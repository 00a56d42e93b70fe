import Dockfoxprox.Model.Calls

/-! FLUSHALL beside the commands that adjust the Redis counters, all cut into their
atomic steps. `retain` visits the shards of the map one after the other and holds the
lock of one of them at a time; then the three counters are set to zero. SET, DEL and the
promotion of a GET run the steps of `insert_redis` and `remove_redis`. -/

namespace Dockfoxprox

/-- The counters that `flush_redis` sets to zero, in its order. -/
def flushedBuckets : List Bucket := [.smallRedisMemory, .largeRedisMemory, .redisDisk]

namespace State

/-- `AtomicI64::store(0)`. -/
def storeZero (s : State) (b : Bucket) : State := { s with usage := Function.update s.usage b 0 }

section
variable {n : ℕ} (shard : Bytes → Fin n) (i : ℕ) (s : State)

/-- The ids that the closure of `retain` collects in one shard. -/
def shardDiskIds : List ℕ :=
  (s.redisEntries.entries.filter fun e => (shard e.1).val = i).filterMap fun e => diskId e.2

/-- `retain` has emptied one shard. -/
def clearShard : State :=
  { s with redisEntries := MapSum.retain (fun k _ => (shard k).val ≠ i) s.redisEntries }

end

end State

/-- A command in flight, by the step it is about to take: a GET before and after it has
cloned an on-disk entry, a call of `insert_redis` or `remove_redis` with the keys that a
DEL goes on to, and a FLUSHALL inside `retain` or with counters still to set to zero. -/
inductive KeyedCall where
  | get (key : Bytes)
  | read (key : Bytes) (id : ℕ)
  | call (c : Call) (keys : List Bytes)
  | retain (i : ℕ) (delete : List ℕ)
  | store (buckets : List Bucket) (delete : List ℕ)
deriving DecidableEq

/-- A command that has returned. -/
abbrev KeyedCall.returned : KeyedCall := .call .done []

inductive KeyedCommand where
  | get (key : Bytes)
  | set (key value : Bytes)
  | del (keys : List Bytes)
  | flushAll
deriving DecidableEq

def KeyedCommand.start : KeyedCommand → KeyedCall
  | .get key => .get key
  | .set key value => .call (.start (.insertRedis key value)) []
  | .del keys => .call .done keys
  | .flushAll => .retain 0 []

section
variable {n : ℕ} (shard : Bytes → Fin n)

def KeyedCall.step (s : State) : KeyedCall → State × KeyedCall
  | .get key =>
    match s.redisEntries.lookup key with
    | none => (s, .returned)
    | some (.inMemory value id _) =>
      ({ s with redisEntries := s.redisEntries.insert key (.inMemory value id s.now) }, .returned)
    | some (.onDisk _ id _) => (s, .read key id)
  | .read key id =>
    match s.files.lookup id with
    | some value => (s, .call (.start (.insertRedis key value)) [])
    -- the dangling metadata is dropped
    | none => (s, .call (.start (.removeRedis key)) [])
  | .call .done [] => (s, .returned)
  | .call .done (k :: keys) => (s, .call (.start (.removeRedis k)) keys)
  | .call c keys => ((c.step s).1, .call (c.step s).2 keys)
  | .retain i delete =>
    if i < n then (s.clearShard shard i, .retain (i + 1) (delete ++ s.shardDiskIds shard i))
    else (s, .store flushedBuckets delete)
  | .store (b :: bs) delete => (s.storeZero b, .store bs delete)
  | .store [] delete => ({ s with unlinks := s.unlinks ++ delete }, .returned)

/-- The state and the commands of all connections. -/
structure FlushSys where
  state : State
  calls : List KeyedCall

inductive FlushEvent where
  | command (c : KeyedCommand)
  | step (i : ℕ)
  | unlink (i : ℕ)
deriving DecidableEq

def FlushSys.step (s : FlushSys) : FlushEvent → Option FlushSys
  | .command c => some { s with calls := s.calls ++ [c.start] }
  | .step i =>
    match s.calls[i]? with
    | none => none
    | some c => some ⟨(c.step shard s.state).1, s.calls.set i (c.step shard s.state).2⟩
  | .unlink i =>
    match s.state.unlinks[i]? with
    | none => none
    | some id =>
      some { s with
        state := { s.state.removeFile id with unlinks := s.state.unlinks.eraseIdx i } }

end

/-- Every command has returned. -/
def FlushSys.Quiescent (s : FlushSys) : Prop := ∀ c ∈ s.calls, c = .returned

instance (s : FlushSys) : Decidable s.Quiescent := inferInstanceAs (Decidable (∀ c ∈ s.calls, _))

end Dockfoxprox
