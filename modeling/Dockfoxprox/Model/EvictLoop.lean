import Dockfoxprox.Model.Calls
import Dockfoxprox.Model.Collector

/-! `evict_loop` of `eviction.rs` beside the operations of `state.rs` in their atomic steps. A
`Notify` holds one permit: `notify_one` leaves it there and the loop takes it when it waits. The
loop reads the counters one after the other while the operations go on. -/

namespace Dockfoxprox

/-- The operations that end with `eviction_notify.notify_one()`. -/
def Op.notifies : Op → Bool
  | .insertBlob _ _ | .insertManifest _ _ | .insertRedis _ _ => true
  | .removeBlob _ | .removeManifest _ | .removeRedis _ => false

/-- An insert that has counters or the map still to change. -/
def Call.inserting : Call → Bool
  | .start op => op.notifies
  | .insertBlobMap _ _ | .insertBlobOld _ | .insertManifestAdd _ _ | .insertRedisCharge _ _
  | .insertRedisMap _ _ | .insertRedisOld _ | .insertRedisKey _ => true
  | .removeBlobOld _ | .removeManifestOld _ | .removeRedisValue _ _ | .removeRedisKey _ _
  | .done => false

/-- A spilled blob goes through `insert_blob` as well. -/
def Act.notifies : Act → Bool
  | .moveBlob _ _ => true
  | _ => false

/-- What a request finds in the cache. -/
inductive Hit where
  | manifest (digest : Digest)
  | blob (digest : Digest)
  | redis (key : Bytes)
deriving DecidableEq

/-- The access that is noted for it. -/
def State.hit (s : State) : Hit → State
  | .manifest d =>
    match s.manifests.lookup d with
    | some m =>
      { s with manifests := s.manifests.insert d { m with lastUsed := s.now, evicted := false } }
    | none => s
  | .blob d =>
    match s.blobs.lookup d with
    | some b => { s with blobs := s.blobs.insert d (b.touch s.now) }
    | none => s
  | .redis key =>
    match s.redisEntries.lookup key with
    | some (.inMemory value id _) =>
      { s with redisEntries := s.redisEntries.insert key (.inMemory value id s.now) }
    | _ => s

/-- The loads of `small_memory_usage`, `total_memory_usage` and `total_disk_usage`, in order, each
for the budget whose limit its sum is compared with. -/
def usageLoads : List (Pool × Bucket) :=
  [(.smallMemory, .manifestMemory), (.smallMemory, .smallBlobMemory),
    (.smallMemory, .smallRedisMemory), (.largeMemory, .largeBlobMemory),
    (.largeMemory, .largeRedisMemory), (.largeMemory, .manifestMemory),
    (.largeMemory, .smallBlobMemory), (.largeMemory, .smallRedisMemory), (.disk, .blobDisk),
    (.disk, .redisDisk)]

/-- A sum is over its limit; the limits are cast to `i64`. -/
def Config.exceeded (c : Config) (sum : Pool → BitVec 64) : Bool :=
  (BitVec.ofNat 64 c.smallMemoryLimit).slt (sum .smallMemory) ||
    (BitVec.ofNat 64 c.memoryLimit).slt (sum .largeMemory) ||
    (BitVec.ofNat 64 c.diskLimit).slt (sum .disk)

/-- The step `evict_loop` is about to take. -/
inductive LoopPhase where
  | waiting
  | loading (todo : List (Pool × Bucket)) (sum : Pool → BitVec 64)
  | evicting (p : Pass)
  | cooldown
  | stopped

/-- A spill under way holds the blob that it has fetched, and sees the access. -/
def LoopPhase.hit (s : State) (ph : LoopPhase) : Hit → LoopPhase
  | .blob d =>
    match ph, s.blobs.lookup d with
    | .evicting p, some b => .evicting (p.goto (p.phase.touch d b s.now))
    | _, _ => ph
  | _ => ph

/-- The state, the calls made on it, how many inserts have yet to notify the loop, its permit and
the loop. -/
structure LoopSys where
  st : State
  calls : List Call
  returning : ℕ
  notified : Bool
  phase : LoopPhase

/-- The loop has just begun. -/
def LoopSys.init (s : State) : LoopSys := ⟨s, [], 0, false, .waiting⟩

inductive LoopEvent where
  | tick (now : ℕ)
  | hit (h : Hit)
  | start (op : Op)
  | call (i : ℕ)
  | notify
  | flush
  | wake
  | backstop
  | load
  | evict (c : Choice)
  | cooled
  | cancel

namespace LoopSys

def load (x : LoopSys) : Option LoopSys :=
  match x.phase with
  | .loading [] sum =>
    some { x with phase := if x.st.config.exceeded sum then .evicting .start else .cooldown }
  | .loading ((pool, b) :: todo) sum =>
    some { x with
      phase := .loading todo (Function.update sum pool (sum pool + x.st.usage b)) }
  | _ => none

/-- A step of the pass. It returns to the loop, which ends when the pass failed. -/
def evict (fromSlice : Bytes → Option Json) (x : LoopSys) (c : Choice) : Option LoopSys :=
  match x.phase with
  | .evicting p =>
    if p.phase = .done then some { x with phase := .cooldown }
    else if p.phase = .failed then some { x with phase := .stopped }
    else
      (Pass.next fromSlice x.st p c).map fun r =>
        { x with
          st := r.1.apply x.st
          notified := x.notified || r.1.notifies
          phase := .evicting r.2 }
  | _ => none

def step (fromSlice : Bytes → Option Json) (x : LoopSys) : LoopEvent → Option LoopSys
  | .tick now => some { x with st := { x.st with now := now } }
  | .hit h => some { x with st := x.st.hit h, phase := x.phase.hit x.st h }
  | .start op => some { x with calls := x.calls ++ [.start op] }
  | .call i =>
    match x.calls[i]? with
    | none => none
    | some c =>
      some { x with
        st := (c.step x.st).1
        calls := x.calls.set i (c.step x.st).2
        returning := x.returning + (c.inserting && !(c.step x.st).2.inserting).toNat }
  | .notify =>
    if x.returning = 0 then none
    else some { x with returning := x.returning - 1, notified := true }
  | .flush => some { x with st := x.st.flushRedis }
  | .wake =>
    match x.phase with
    | .waiting =>
      if x.notified then
        some { x with notified := false, phase := .loading usageLoads fun _ => 0 }
      else none
    | _ => none
  | .backstop =>
    match x.phase with
    | .waiting => some { x with phase := .loading usageLoads fun _ => 0 }
    | _ => none
  | .load => x.load
  | .evict c => x.evict fromSlice c
  | .cooled =>
    match x.phase with
    | .cooldown => some { x with phase := .waiting }
    | _ => none
  | .cancel =>
    match x.phase with
    | .waiting | .cooldown => some { x with phase := .stopped }
    | _ => none

end LoopSys

end Dockfoxprox
