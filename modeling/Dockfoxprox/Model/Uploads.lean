import Dockfoxprox.Model.Http

/-! Blob uploads and upstream fills of `docker.rs`, with their await points. A
request looks its uuid up and clones the `Arc`, reads its body, and runs its
section under the mutex of the upload; a finalizing PUT then removes the session
and inserts the blob. The requests of any number of clients and any number of
fills interleave at these steps. -/

namespace Dockfoxprox

/-- Store fresh content in memory under a digest, with a new id. -/
def State.storeBlob (s : State) (digest : Digest) (content : Bytes) (mediaType : String) : State :=
  State.insertBlob { s with nextId := s.nextId + 1 } digest
    (.inMemory s.nextId content mediaType s.now)

/-- What the mutex of an upload guards. -/
structure UploadInner where
  buf : Bytes
  hasher : Hasher
deriving DecidableEq

def UploadInner.new : UploadInner := ⟨[], Hasher.new⟩

def UploadInner.append (u : UploadInner) (chunk : Bytes) : UploadInner :=
  ⟨u.buf ++ chunk, u.hasher.update chunk⟩

/-- The shared part of the system: `state.uploads` maps a uuid to an `Arc`, whose
contents live in `arcs`. No step reads `taken`, the uploads out of which a PUT has
taken bytes so far. -/
structure Uploads where
  st : State
  uploads : DashMap Uuid ℕ
  arcs : ℕ → UploadInner
  nextArc : ℕ
  taken : List ℕ

/-- An upload request, by the step it is about to take. -/
inductive UploadReq where
  | start (r : Request)
  | postBody (name : String) (expected : Digest)
  | patchBody (name : String) (uuid : Uuid) (upload : ℕ)
  | patchLock (name : String) (uuid : Uuid) (upload : ℕ) (chunk : Bytes)
  | putBody (name : String) (uuid : Uuid) (expected : Digest) (upload : ℕ)
  | putLock (name : String) (uuid : Uuid) (expected : Digest) (upload : ℕ) (chunk : Bytes)
  | putRemove (name : String) (uuid : Uuid) (got : Digest) (buf : Bytes)
  | store (name : String) (got : Digest) (content : Bytes)
  | statusLock (name : String) (uuid : Uuid) (upload : ℕ)
  | done (reply : Reply)

/-- What a step may draw from outside: the uuid of `Uuid::new_v4` and the body of the request. -/
structure Input where
  uuid : Uuid := 0
  body : Except String Bytes := .ok []

namespace UploadReq

def respond (r : Response) : UploadReq := .done (.ok r)

def refuse (status : ℕ) (msg : String) : UploadReq := .done (.ok (errorResponse status msg))

/-- Go on with the body once it is read; a client that breaks off ends the request. -/
def withBody (body : Except String Bytes) (k : Bytes → UploadReq) : UploadReq :=
  match readBody body with
  | .error e => .done (.error e)
  | .ok chunk => k chunk

end UploadReq

/-- The text of a failed digest check. -/
def digestMismatch (expected got : Digest) : String :=
  "digest mismatch: expected " ++ expected.toText ++ " got " ++ got.toText

/-- The upload's own URL. -/
def uploadLocation (crates : Crates) (name : String) (uuid : Uuid) : String :=
  "/v2/self/" ++ name ++ "/blobs/uploads/" ++ crates.uuidText uuid

/-- The `Range` of an upload that holds `len` bytes. -/
def uploadRange (len : ℕ) : String := "0-" ++ Nat.repr (len - 1)

/-- The 201 of a stored blob. -/
def blobCreated (name : String) (got : Digest) : Response where
  status := 201
  headers :=
    [("Location", "/v2/self/" ++ name ++ "/blobs/" ++ got.toText),
      ("Docker-Content-Digest", got.toText), ("Content-Length", "0")]
  body := []

/-- The 202 of a created upload and of an accepted chunk. -/
def uploadAccepted (crates : Crates) (name : String) (uuid : Uuid) (range : String) : Response where
  status := 202
  headers :=
    [("Location", uploadLocation crates name uuid), ("Range", range), ("Content-Length", "0"),
      ("Docker-Upload-UUID", crates.uuidText uuid)]
  body := []

namespace Uploads

variable (crates : Crates)

/-- The guard every upload handler starts with. -/
def selfOnly (u : Uploads) (upstreamHost : String) (method : Method) (k : Uploads × UploadReq) :
    Uploads × UploadReq :=
  match ensureSelf upstreamHost method with
  | .error e => (u, .done (.error e))
  | .ok () => k

/-- The uuid of a request path and the `Arc` it stands for, or the refusal. -/
def find (u : Uploads) (uuidStr : String) (k : Uuid → ℕ → UploadReq) : UploadReq :=
  match crates.parseUuid uuidStr with
  | none => .refuse 400 "invalid upload id"
  | some uuid =>
    match u.uploads.lookup uuid with
    | none => .refuse 404 "unknown upload"
    | some upload => k uuid upload

/-- Create an upload, or take the body as a single-shot one when the query has a digest. -/
def postBlobUpload (u : Uploads) (fresh : Uuid) (r : Request) : Uploads × UploadReq :=
  u.selfOnly r.upstreamHost r.method <|
    match digestFromQuery crates r.query with
    | some digestStr =>
      match Digest.fromStr digestStr with
      | none => (u, .refuse 400 "invalid digest")
      | some expected => (u, .postBody r.name expected)
    | none =>
      ({ u with
          uploads := u.uploads.insert fresh u.nextArc
          arcs := Function.update u.arcs u.nextArc .new
          nextArc := u.nextArc + 1 },
        .respond (uploadAccepted crates r.name fresh "0-0"))

def patchBlobUpload (u : Uploads) (r : Request) : Uploads × UploadReq :=
  u.selfOnly r.upstreamHost r.method
    (u, u.find crates r.tail fun uuid upload => .patchBody r.name uuid upload)

/-- The digest is parsed between the uuid and the lookup of the upload. -/
def putBlobUpload (u : Uploads) (r : Request) : Uploads × UploadReq :=
  u.selfOnly r.upstreamHost r.method
    (u, match crates.parseUuid r.tail with
      | none => .refuse 400 "invalid upload id"
      | some uuid =>
        match digestFromQuery crates r.query with
        | none => .refuse 400 "missing ?digest"
        | some expectedStr =>
          match Digest.fromStr expectedStr with
          | none => .refuse 400 "invalid digest"
          | some expected =>
            match u.uploads.lookup uuid with
            | none => .refuse 404 "unknown upload"
            | some upload => .putBody r.name uuid expected upload)

def getBlobUploadStatus (u : Uploads) (r : Request) : Uploads × UploadReq :=
  u.selfOnly r.upstreamHost .get
    (u, u.find crates r.tail fun uuid upload => .statusLock r.name uuid upload)

def deleteBlobUpload (u : Uploads) (r : Request) : Uploads × UploadReq :=
  u.selfOnly r.upstreamHost .delete <|
    match crates.parseUuid r.tail with
    | none => (u, .refuse 400 "invalid upload id")
    | some uuid =>
      ({ u with uploads := u.uploads.erase uuid }, .respond ⟨204, [("Content-Length", "0")], []⟩)

/-- The first step of a request: the dispatch on its method. -/
def start (u : Uploads) (fresh : Uuid) (r : Request) : Uploads × UploadReq :=
  match r.method with
  | .post => u.postBlobUpload crates fresh r
  | .patch => u.patchBlobUpload crates r
  | .put => u.putBlobUpload crates r
  | .delete => u.deleteBlobUpload crates r
  | .get => u.getBlobUploadStatus crates r
  | .head => (u, .done (.error (.methodNotAllowed .head)))

/-- The single-shot body must hash to the digest of the query. -/
def postCheck (name : String) (expected : Digest) (body : Bytes) : UploadReq :=
  if crates.sha256 body ≠ expected then
    .refuse 400 (digestMismatch expected (crates.sha256 body))
  else .store name (crates.sha256 body) body

/-- The section of a PATCH. -/
def patchSection (u : Uploads) (name : String) (uuid : Uuid) (upload : ℕ) (chunk : Bytes) :
    Uploads × UploadReq :=
  let inner := (u.arcs upload).append chunk
  ({ u with arcs := Function.update u.arcs upload inner },
    .respond (uploadAccepted crates name uuid (uploadRange inner.buf.length)))

/-- What a PUT leaves in the upload before its digest check: an empty body is not appended. -/
def putAppend (u : Uploads) (upload : ℕ) (chunk : Bytes) : UploadInner :=
  if chunk.isEmpty then u.arcs upload else (u.arcs upload).append chunk

/-- The digest a PUT computes in its section. -/
def putDigest (u : Uploads) (upload : ℕ) (chunk : Bytes) : Digest :=
  (u.putAppend upload chunk).hasher.finalize crates

/-- The section of a PUT. On a mismatch the chunk stays appended; on a match the
buffer is taken and the hasher stays as it is. -/
def putSection (u : Uploads) (name : String) (uuid : Uuid) (expected : Digest) (upload : ℕ)
    (chunk : Bytes) : Uploads × UploadReq :=
  let inner := u.putAppend upload chunk
  let got := u.putDigest crates upload chunk
  if got ≠ expected then
    ({ u with arcs := Function.update u.arcs upload inner },
      .refuse 400 (digestMismatch expected got))
  else
    ({ u with
        arcs := Function.update u.arcs upload { inner with buf := [] }
        taken := if inner.buf = [] then u.taken else upload :: u.taken },
      .putRemove name uuid got inner.buf)

/-- The upload status: the offset reached so far. -/
def statusSection (u : Uploads) (name : String) (uuid : Uuid) (upload : ℕ) : Response where
  status := 204
  headers :=
    [("Location", uploadLocation crates name uuid),
      ("Range", uploadRange (u.arcs upload).buf.length),
      ("Docker-Upload-UUID", crates.uuidText uuid)]
  body := []

/-- The next step of a request. -/
def step (u : Uploads) (inp : Input) : UploadReq → Uploads × UploadReq
  | .start r => u.start crates inp.uuid r
  | .postBody name expected => (u, .withBody inp.body fun body => postCheck crates name expected body)
  | .patchBody name uuid upload => (u, .withBody inp.body fun chunk => .patchLock name uuid upload chunk)
  | .patchLock name uuid upload chunk => u.patchSection crates name uuid upload chunk
  | .putBody name uuid expected upload =>
    (u, .withBody inp.body fun chunk => .putLock name uuid expected upload chunk)
  | .putLock name uuid expected upload chunk => u.putSection crates name uuid expected upload chunk
  | .putRemove name uuid got buf => ({ u with uploads := u.uploads.erase uuid }, .store name got buf)
  | .store name got content =>
    ({ u with st := u.st.storeBlob got content "application/octet-stream" },
      .respond (blobCreated name got))
  | .statusLock name uuid upload => (u, .respond (u.statusSection crates name uuid upload))
  | .done reply => (u, .done reply)

end Uploads

/-- What the upstream body stream yields next. -/
inductive StreamItem where
  | chunk (bytes : Bytes)
  | error (e : String)
  | eof
deriving DecidableEq

inductive FillPhase where
  | streaming
  | inserting
  | finished
deriving DecidableEq

/-- The task of `spawn_blob_fill` and the channel it feeds. `receiver` is whether the
client still holds the receiving end; `frames` are those the client was sent. A full
channel only delays the task, so its bound is not modelled. -/
structure Fill where
  digest : Digest
  mediaType : String
  buf : Bytes := []
  hasher : Hasher := .new
  clientAlive : Bool := true
  receiver : Bool := true
  frames : List (Except String Bytes) := []
  phase : FillPhase := .streaming

namespace Fill

/-- Send a frame to a client that is still there. -/
def send (f : Fill) (frame : Except String Bytes) : Fill :=
  if f.receiver then { f with frames := f.frames ++ [frame] } else f

/-- One turn of the task's loop, or its digest check after a clean end. -/
def next (crates : Crates) (f : Fill) : StreamItem → Fill
  | .chunk bytes =>
    let f := { f with hasher := f.hasher.update bytes, buf := f.buf ++ bytes }
    if f.clientAlive then { f.send (.ok bytes) with clientAlive := f.receiver } else f
  | .error e =>
    let f := { f with phase := .finished }
    if f.clientAlive then f.send (.error e) else f
  | .eof =>
    { f with
      phase := if f.hasher.finalize crates ≠ f.digest then .finished else .inserting }

end Fill

/-- The shared state, the requests and the fill tasks. -/
structure UploadSys where
  shared : Uploads
  reqs : List UploadReq
  fills : List Fill

/-- A proxy over `s` that has served no upload request yet. -/
def UploadSys.init (s : State) : UploadSys where
  shared := ⟨s, ∅, fun _ => .new, 0, []⟩
  reqs := []
  fills := []

inductive UploadEvent where
  | tick (now : ℕ)
  | request (r : Request)
  | step (i : ℕ) (inp : Input)
  | fill (digest : Digest) (mediaType : String)
  | stream (j : ℕ) (item : StreamItem)
  | disconnect (j : ℕ)
  | insert (j : ℕ)

def UploadSys.step (crates : Crates) (s : UploadSys) : UploadEvent → Option UploadSys
  | .tick now => some { s with shared := { s.shared with st := { s.shared.st with now := now } } }
  | .request r => some { s with reqs := s.reqs ++ [.start r] }
  | .step i inp =>
    match s.reqs[i]? with
    | none => none
    | some r =>
      some { s with
        shared := (s.shared.step crates inp r).1
        reqs := s.reqs.set i (s.shared.step crates inp r).2 }
  | .fill digest mediaType => some { s with fills := s.fills ++ [{ digest, mediaType }] }
  | .stream j item =>
    match s.fills[j]? with
    | none => none
    | some f =>
      if f.phase = .streaming then some { s with fills := s.fills.set j (f.next crates item) }
      else none
  | .disconnect j =>
    match s.fills[j]? with
    | none => none
    | some f => some { s with fills := s.fills.set j { f with receiver := false } }
  | .insert j =>
    match s.fills[j]? with
    | none => none
    | some f =>
      if f.phase = .inserting then
        some { s with
          shared := { s.shared with st := s.shared.st.storeBlob f.digest f.buf f.mediaType }
          fills := s.fills.set j { f with phase := .finished } }
      else none

end Dockfoxprox
