import Dockfoxprox.Model.Cache
import Dockfoxprox.Model.Snapshot

/-! Lives of the server over one data folder. A life begins with `load_or_wipe`, runs the
cache until the listeners and the eviction loop have shut down, and may end with `save`.
HTTP connections and unlink tasks are detached and go on while a save runs. A crash can
come between any two file system operations, and in the middle of a write; the end of the
process is one more crash. -/

namespace Dockfoxprox

/-- The step the process is about to take. -/
inductive Life where
  | down
  /-- `load` returned the state, and the snapshot file is to be removed. -/
  | loaded
  /-- The files under `blobs` are being removed; `other` if the snapshot did not load. -/
  | wiping (other : Bool)
  /-- The snapshot that did not load is to be removed, after a wipe that was `ok` or not. -/
  | wiped (ok : Bool)
  | up
  | saving (sv : Save)

/-- The data folder and the process over it. The files under `blobs` are those of the
state, which is fresh while no process runs. No step reads `saved`, which has what the last
completed save had on record. -/
structure Node (Buf : Type) where
  sys : CacheSys
  life : Life
  disk : SnapshotFiles Buf
  saved : Option State

/-- `ok` says whether the removal of the snapshot or of the directory returned `Ok`. -/
inductive NodeEvent (Buf : Type) where
  | boot (config : Config) (now : ℕ)
  | removeSnapshot (ok : Bool)
  | wipeFile (id : ℕ)
  | wiped (ok : Bool)
  | run (e : CacheEvent)
  | tag (ref : String × String) (digest : Digest)
  | shutdown
  | save (e : SaveEvent)
  | crash (file : Option (ℕ × Bytes)) (tmp : Option Buf)

/-- An event of the lives, or a boot that could not read the snapshot, though it may be there. -/
inductive DiskEvent (Buf : Type) where
  | node (e : NodeEvent Buf)
  | unread (config : Config) (now : ℕ) (e : String)

/-- The tasks that shutting down does not wait for. -/
def CacheEvent.detached : CacheEvent → Bool
  | .tick _ | .hit _ | .storeBlob _ _ _ | .storeManifest _ _ _ | .unlink _ => true
  | _ => false

/-- The files a save may be writing. -/
def Save.writing (s : State) (sv : Save) : List ℕ :=
  match sv.phase with
  | .blobs it => (it.unseen s.blobs).filterMap fun b => b.spill.map Prod.fst
  | .redis it => (it.unseen s.redisEntries).filterMap fun e => e.spill.map Prod.fst
  | _ => []

/-- The file a spill of the pass may be writing. -/
def Phase.writing : Phase → List ℕ
  | .spillWrite _ _ held => [held.id]
  | .redisWrite _ _ _ _ id => [id]
  | _ => []

namespace Node

variable {Buf : Type}

/-- The files under `blobs`. -/
def files (x : Node Buf) : DashMap ℕ Bytes := x.sys.st.files

/-- The files a write may be under way to. -/
def writing (x : Node Buf) : List ℕ :=
  match x.life with
  | .up => x.sys.pass.phase.writing
  | .saving sv => sv.writing x.sys.st
  | _ => []

/-- The process is about to write the temporary file or in the middle of it. -/
def writingTmp (x : Node Buf) : Bool :=
  match x.life with
  | .saving sv => match sv.phase with | .write _ => true | _ => false
  | _ => false

/-- No process: the state is lost, the files stay. -/
def off (x : Node Buf) (files : DashMap ℕ Bytes) : Node Buf :=
  { x with
    sys := .init { State.new x.sys.st.config x.sys.st.now with files := files }
    life := .down }

/-- A data folder before its first life. -/
def init (files : DashMap ℕ Bytes) (path : Option Buf) : Node Buf where
  sys := .init { State.new ⟨0, none, 0⟩ 0 with files := files }
  life := .down
  disk := ⟨path, none⟩
  saved := none

variable (cbor : Cbor Buf) (password : Option Bytes) (fromSlice : Bytes → Option Json)

/-- `load` on a fresh state, by what its read of the snapshot returned. -/
def bootRead (x : Node Buf) (config : Config) (now : ℕ) (read : Except ReadError Buf) : Node Buf :=
  let s := { State.new config now with files := x.files }
  match s.loadRead cbor read with
  | .ok t => { x with sys := .init t, life := .loaded }
  | .error .missing => { x with sys := .init s, life := .wiping false }
  | .error (.other _) => { x with sys := .init s, life := .wiping true }

/-- A boot whose read of the snapshot finds the file as it is. -/
def boot (x : Node Buf) (config : Config) (now : ℕ) : Node Buf :=
  x.bootRead cbor config now (x.disk.path.elim (.error .notFound) .ok)

/-- One step of a save, which is complete once the snapshot is renamed. -/
def save (x : Node Buf) (sv : Save) (e : SaveEvent) : Option (Node Buf) :=
  (Save.step cbor (x.sys.st, x.disk, sv) e).map fun (s, disk, sv') =>
    { x with
      sys := { x.sys with st := s }
      life := .saving sv'
      disk := disk
      saved := if sv'.phase = .done then some sv'.record else x.saved }

def step (x : Node Buf) : NodeEvent Buf → Option (Node Buf)
  | .boot config now =>
    match x.life with
    | .down => some (x.boot cbor config now)
    | _ => none
  -- a process that cannot remove the snapshot it loaded stops
  | .removeSnapshot ok =>
    match x.life with
    | .loaded => some (if ok then { x with life := .up, disk.path := none } else x.off x.files)
    | .wiped _ => some { x with life := .up, disk.path := if ok then none else x.disk.path }
    | _ => none
  | .wipeFile id =>
    match x.life with
    | .wiping _ => some { x with sys := { x.sys with st := x.sys.st.removeFile id } }
    | _ => none
  -- a wipe that fails goes on with the files it could not remove
  | .wiped ok =>
    match x.life with
    | .wiping other =>
      if ok → x.files.keys = [] then
        some { x with
          sys := .init x.sys.st.wipeCache
          life := if other then .wiped ok else .up }
      else none
    | _ => none
  | .run e =>
    match x.life with
    | .up => (x.sys.step password fromSlice e).map fun sys => { x with sys := sys }
    | .saving _ =>
      if e.detached then (x.sys.step password fromSlice e).map fun sys => { x with sys := sys }
      else none
    | _ => none
  | .tag ref d =>
    match x.life with
    | .up | .saving _ =>
      some { x with
        sys := { x.sys with st := { x.sys.st with tags := x.sys.st.tags.insert ref d } } }
    | _ => none
  -- the eviction loop ends between two passes, and the Redis connections are aborted
  | .shutdown =>
    match x.life with
    | .up =>
      if x.sys.pass.phase = .begin ∨ x.sys.pass.ended then
        some { x with
          sys := { x.sys with pass := .start, conns := [] }
          life := .saving (.start x.sys.st) }
      else none
    | _ => none
  | .save e =>
    match x.life with
    | .saving sv => x.save cbor sv e
    | _ => none
  | .crash file tmp =>
    if (∀ f, file = some f → f.1 ∈ x.writing) ∧ (tmp.isSome → x.writingTmp) then
      some (({ x with disk.tmp := tmp.or x.disk.tmp } : Node Buf).off
        (file.elim x.files fun f => x.files.insert f.1 f.2))
    else none

/-- The lives over a disk whose reads may fail. -/
def diskStep (x : Node Buf) : DiskEvent Buf → Option (Node Buf)
  | .node e => x.step cbor password fromSlice e
  | .unread config now e =>
    match x.life with
    | .down => some (x.bootRead cbor config now (.error (.other e)))
    | _ => none

end Node

end Dockfoxprox
