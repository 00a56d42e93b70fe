import Dockfoxprox.Model.Collector
import Dockfoxprox.Model.Conn
import Dockfoxprox.Model.Tags

/-! Everything that touches an id or a file of the cache: blob uploads and fills, Redis
connections, the unlink tasks they spawn and the eviction passes, in two systems. In
`CacheSys` they interleave at their await points. In `SerialSys` each of them runs without
interleaving, but for the unlink tasks, which run at any later moment. -/

namespace Dockfoxprox

/-- The file behind the entry that the next step of the pass inserts, with its content. -/
def Phase.creates : Phase → Option (ℕ × Bytes)
  | .spillInsert _ _ held => some (held.id, held.content)
  | .redisInsert _ _ _ value id => some (id, value)
  | _ => none

/-- The history of the entries created on disk, after a step of the pass. -/
def Phase.record (ph : Phase) (created : DashMap ℕ Bytes) : DashMap ℕ Bytes :=
  match ph.creates with
  | some (id, content) => created.insert id content
  | none => created

/-- One unlink task runs. -/
def State.runUnlink (s : State) (i : ℕ) : Option State :=
  match s.unlinks[i]? with
  | none => none
  | some id => some { s.removeFile id with unlinks := s.unlinks.eraseIdx i }

/-- The state, the pass and the connections. No step reads `created`, which has for each id
the bytes that were written when an entry with it was created on disk. -/
structure CacheSys where
  st : State
  pass : Pass
  conns : List Conn
  created : DashMap ℕ Bytes

/-- A server over `s` that has accepted no connection yet; the entries on disk are those
the files hold. -/
def CacheSys.init (s : State) : CacheSys := ⟨s, .start, [], s.files⟩

inductive CacheEvent where
  | tick (now : ℕ)
  | hit (digest : Digest)
  | storeBlob (digest : Digest) (content : Bytes) (mediaType : String)
  | storeManifest (digest : Digest) (content : Bytes) (mediaType : String)
  | connect (cmds : List (List Bytes))
  | conn (i : ℕ)
  | unlink (i : ℕ)
  | evict (c : Choice)
  | nextPass

namespace CacheSys

variable (password : Option Bytes) (fromSlice : Bytes → Option Json)

/-- A GET or HEAD that finds its blob in the map. -/
def hit (x : CacheSys) (d : Digest) : Option CacheSys :=
  match x.st.blobs.lookup d with
  | none => none
  | some b =>
    some { x with
      st := { x.st with blobs := x.st.blobs.insert d (b.touch x.st.now) }
      pass := x.pass.goto (x.pass.phase.touch d b x.st.now) }

def step (x : CacheSys) : CacheEvent → Option CacheSys
  | .tick now => some { x with st := { x.st with now := now } }
  | .hit d => x.hit d
  | .storeBlob d content mt => some { x with st := x.st.storeBlob d content mt }
  | .storeManifest d content mt =>
    some { x with st := x.st.insertManifest d ⟨content, mt, x.st.now, false⟩ }
  | .connect cmds => some { x with conns := x.conns ++ [Conn.fresh password cmds] }
  | .conn i =>
    match x.conns[i]? with
    | none => none
    | some c =>
      some { x with
        st := (c.step password x.st).1
        conns := x.conns.set i (c.step password x.st).2 }
  | .unlink i => (x.st.runUnlink i).map fun s => { x with st := s }
  | .evict c =>
    (Pass.next fromSlice x.st x.pass c).map fun r =>
      { x with
        st := r.1.apply x.st
        pass := r.2
        created := x.pass.phase.record x.created }
  | .nextPass => if x.pass.ended then some { x with pass := .start } else none

end CacheSys

/-- The state, the pass, and an authenticated connection on which the commands of all
clients arrive one after another. -/
structure SerialSys where
  st : State
  pass : Pass
  conn : Conn

/-- No command has arrived yet. -/
def SerialSys.init (s : State) : SerialSys := ⟨s, .start, ⟨true, .ready, [], [], []⟩⟩

inductive SerialEvent where
  | tick (now : ℕ)
  | storeBlob (digest : Digest) (content : Bytes) (mediaType : String)
  | storeManifest (digest : Digest) (content : Bytes) (mediaType : String)
  | command (args : List Bytes)
  | getStep
  | unlink (i : ℕ)
  | evict (pick : ℕ)
  | nextPass
deriving DecidableEq

/-- The commands on keys. -/
def Verb.keyed : Verb → Bool
  | .get | .set | .del | .exists | .flush | .dbsize => true
  | _ => false

namespace SerialSys

variable (fromSlice : Bytes → Option Json)

/-- No pass is under way and no command is being served. -/
def idle (x : SerialSys) : Bool :=
  (x.pass.phase = .begin ∨ x.pass.ended) ∧ x.conn.phase = .ready

def step (x : SerialSys) : SerialEvent → Option SerialSys
  | .tick now => some { x with st := { x.st with now := now } }
  | .storeBlob d content mt =>
    if x.idle then some { x with st := x.st.storeBlob d content mt } else none
  | .storeManifest d content mt =>
    if x.idle then some { x with st := x.st.insertManifest d ⟨content, mt, x.st.now, false⟩ }
    else none
  | .command args =>
    if x.idle ∧ (Verb.of (cmdOf args)).keyed then
      some { x with
        st := (x.conn.dispatch none x.st args).1
        conn := (x.conn.dispatch none x.st args).2 }
    else none
  | .getStep =>
    match x.conn.phase with
    | .getting g =>
      some { x with st := (x.conn.getStep x.st g).1, conn := (x.conn.getStep x.st g).2 }
    | _ => none
  | .unlink i => (x.st.runUnlink i).map fun s => { x with st := s }
  -- the file operations of the pass succeed
  | .evict pick =>
    if x.conn.phase = .ready then
      (Pass.next fromSlice x.st x.pass { pick }).map fun r =>
        { x with st := r.1.apply x.st, pass := r.2 }
    else none
  | .nextPass => if x.pass.ended then some { x with pass := .start } else none

end SerialSys

end Dockfoxprox
