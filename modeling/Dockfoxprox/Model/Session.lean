import Dockfoxprox.Model.Uploads

/-! One client's upload session among the requests of everyone else: it sends PATCH after
PATCH, each to its end, and between any two of them the requests of others take steps. -/

namespace Dockfoxprox

/-- A request served from its first step to its reply, which takes at most five steps. -/
def Uploads.serve (crates : Crates) (inp : Input) (r : Request) (u : Uploads) :
    Uploads × UploadReq :=
  (fun p => p.1.step crates inp p.2)^[5] (u, .start r)

/-- The status a request came back with. -/
def UploadReq.status : UploadReq → Option ℕ
  | .done (.ok r) => some r.status
  | .done (.error e) => some e.response.status
  | _ => none

/-- What requests come back with that are served one after another. -/
def Uploads.replies (crates : Crates) : Uploads → List (Input × Request) → List UploadReq
  | _, [] => []
  | u, (inp, r) :: later =>
    (u.serve crates inp r).2 :: Uploads.replies crates (u.serve crates inp r).1 later

/-- The request came back with an error status. -/
def UploadReq.Rejected (q : UploadReq) : Prop :=
  ∃ status, q.status = some status ∧ 400 ≤ status

/-- A PUT that gets as far as its body: it is for the proxy itself, its digest parameter is a
digest and its upload exists. -/
structure Uploads.Admits (crates : Crates) (u : Uploads) (r : Request) : Prop where
  host : r.upstreamHost = "self"
  digest : ∃ text expected, digestFromQuery crates r.query = some text ∧
    Digest.fromStr text = some expected
  upload : ∃ uuid, crates.parseUuid r.tail = some uuid ∧ (u.uploads.lookup uuid).isSome

/-- A request that names another upload, or none. -/
def Request.Elsewhere (crates : Crates) (uuid : Uuid) (r : Request) : Prop :=
  r.method = .post ∨ crates.parseUuid r.tail ≠ some uuid

/-- An event that concerns other uploads: `Uuid::new_v4` gives out no uuid twice. -/
def UploadEvent.Elsewhere (crates : Crates) (uuid : Uuid) : UploadEvent → Prop
  | .request r => r.Elsewhere crates uuid
  | .step _ inp => inp.uuid ≠ uuid
  | _ => True

inductive SessionEvent where
  | other (e : UploadEvent)
  | patch (r : Request) (chunk : Bytes)

/-- The bytes the client sends. -/
def SessionEvent.sent : SessionEvent → Bytes
  | .other _ => []
  | .patch _ chunk => chunk

/-- What others do concerns other uploads. -/
def SessionEvent.Apart (crates : Crates) (uuid : Uuid) : SessionEvent → Prop
  | .other e => e.Elsewhere crates uuid
  | .patch _ _ => True

/-- A PATCH of the session. -/
structure Request.Patches (crates : Crates) (uuid : Uuid) (r : Request) : Prop where
  method : r.method = .patch
  host : r.upstreamHost = "self"
  tail : crates.parseUuid r.tail = some uuid

/-- A PUT that finalizes the session with the digest parameter `digest`. -/
structure Request.Finalizes (crates : Crates) (uuid : Uuid) (digest : String) (r : Request) :
    Prop where
  method : r.method = .put
  host : r.upstreamHost = "self"
  tail : crates.parseUuid r.tail = some uuid
  query : digestFromQuery crates r.query = some digest

/-- A POST that opens a session. -/
structure Request.Opens (crates : Crates) (r : Request) : Prop where
  method : r.method = .post
  host : r.upstreamHost = "self"
  query : digestFromQuery crates r.query = none

/-- A POST that uploads a blob in one request. -/
structure Request.UploadsWhole (crates : Crates) (digest : String) (r : Request) : Prop where
  method : r.method = .post
  host : r.upstreamHost = "self"
  query : digestFromQuery crates r.query = some digest

instance (crates : Crates) (uuid : Uuid) (r : Request) : Decidable (r.Patches crates uuid) :=
  decidable_of_iff (r.method = .patch ∧ r.upstreamHost = "self" ∧
      crates.parseUuid r.tail = some uuid)
    ⟨fun h => ⟨h.1, h.2.1, h.2.2⟩, fun h => ⟨h.method, h.host, h.tail⟩⟩

/-- A step of the session: someone else moves, or the client sends a chunk. -/
def UploadSys.sessionStep (crates : Crates) (uuid : Uuid) (y : UploadSys) :
    SessionEvent → Option UploadSys
  | .other e => y.step crates e
  | .patch r chunk =>
    if r.Patches crates uuid then
      some { y with shared := (y.shared.serve crates { body := .ok chunk } r).1 }
    else none

end Dockfoxprox
