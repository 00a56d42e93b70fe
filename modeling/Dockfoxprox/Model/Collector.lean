import Dockfoxprox.Model.Eviction
import Dockfoxprox.Model.Uploads

/-! One eviction pass beside the Docker clients: hits on cached blobs, completed
uploads and fills, and stored manifests, each landing between any two steps of the
pass. -/

namespace Dockfoxprox

/-- The blob a spill holds is the `Arc` in the map as long as it carries the same id, and
an access through the map shows in it. -/
def HeldBlob.touch (held : HeldBlob) (now : ℕ) : Blob → HeldBlob
  | .inMemory id _ _ _ => if id = held.id then { held with lastAccessed := now } else held
  | .onDisk _ _ _ _ => held

/-- An access to the blob under `d`, as a spill in progress sees it. -/
def Phase.touch (d : Digest) (b : Blob) (now : ℕ) : Phase → Phase
  | .spillWrite sp r held => .spillWrite sp r (if r = d then held.touch now b else held)
  | .spillInsert sp r held => .spillInsert sp r (if r = d then held.touch now b else held)
  | ph => ph

/-- The state, the pass, and two histories that no step reads: the blobs touched or
stored since the pass scanned the blobs, and the manifest bodies stored since it
scanned the manifests. -/
structure EvictSys where
  st : State
  pass : Pass
  touched : List Digest
  put : List Bytes

/-- A pass that is about to begin. -/
def EvictSys.init (s : State) : EvictSys := ⟨s, .start, [], []⟩

inductive EvictEvent where
  | evict (c : Choice)
  | hit (digest : Digest)
  | storeBlob (digest : Digest) (content : Bytes) (mediaType : String)
  | storeManifest (digest : Digest) (content : Bytes) (mediaType : String)
  | tick (now : ℕ)

namespace EvictSys

/-- A GET or HEAD that finds its blob in the map. -/
def hit (x : EvictSys) (d : Digest) : Option EvictSys :=
  match x.st.blobs.lookup d with
  | none => none
  | some b =>
    some { x with
      st := { x.st with blobs := x.st.blobs.insert d (b.touch x.st.now) }
      pass := x.pass.goto (x.pass.phase.touch d b x.st.now)
      touched := d :: x.touched }

/-- The histories after a step of the pass: each scan forgets what came before it. -/
def scanned (x : EvictSys) (s : State) (p : Pass) : EvictSys where
  st := s
  pass := p
  touched := if x.pass.phase = .scanBlobs then [] else x.touched
  put := if x.pass.phase = .scanManifests then [] else x.put

def step (fromSlice : Bytes → Option Json) (x : EvictSys) : EvictEvent → Option EvictSys
  | .evict c => (Pass.next fromSlice x.st x.pass c).map fun r => x.scanned (r.1.apply x.st) r.2
  | .hit d => x.hit d
  | .storeBlob d content mt =>
    some { x with st := x.st.storeBlob d content mt, touched := d :: x.touched }
  | .storeManifest d content mt =>
    some { x with
      st := x.st.insertManifest d ⟨content, mt, x.st.now, false⟩
      put := content :: x.put }
  | .tick now => some { x with st := { x.st with now := now } }

end EvictSys

end Dockfoxprox
