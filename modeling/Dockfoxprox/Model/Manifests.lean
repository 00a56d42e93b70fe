import Dockfoxprox.Model.Http

/-! The manifest handlers of `docker.rs` with their await points: GET and HEAD,
which resolve a tag and fetch a missing manifest upstream, and PUT. What an
upstream answers is an input of the step that waits for it. Its authentication
touches only the token cache, and the `Accept` header only what it answers. -/

namespace Dockfoxprox

/-- What the handlers read of an upstream response. A header is absent when it is
missing or not text; the body may break off. -/
structure UpstreamResponse where
  status : ℕ
  dockerContentDigest : Option String := none
  contentType : Option String := none
  body : Except String Bytes := .ok []
deriving DecidableEq

def UpstreamResponse.isSuccess (r : UpstreamResponse) : Bool := 200 ≤ r.status ∧ r.status < 300

/-- What `upstream_pull_request` comes back with. -/
abbrev Answer := Except DockerError UpstreamResponse

/-- A manifest request, by the step it is about to take. -/
inductive ManifestReq where
  | start (r : Request)
  | resolve (r : Request)
  | lookup (r : Request) (digest : Digest)
  | fetch (r : Request) (digest : Digest)
  | putBody (r : Request)
  | putInsert (r : Request) (body : Bytes)
  | putTag (r : Request) (digest : Digest)
  | putDigest (r : Request) (digest : Digest)
  | done (reply : Reply)

/-- What a step may get from outside: the answer of an upstream or the body of the request. -/
structure ManifestInput where
  answer : Answer := .error (.upstream "")
  body : Except String Bytes := .ok []

/-- The 200 of a cached manifest. -/
def serveManifest (m : Manifest) (head : Bool) (digest : Digest) : Response where
  status := 200
  headers :=
    [("content-type", m.mediaType), ("docker-content-digest", digest.toText),
      ("content-length", Nat.repr m.content.length)]
  body := if head then [] else m.content

/-- The failure of an upstream, handed on to the client. -/
def upstreamReturned (crates : Crates) (resp : UpstreamResponse) : Response :=
  errorResponse resp.status ("upstream returned " ++ crates.statusText resp.status)

/-- The 201 of a stored manifest. -/
def manifestCreated (name : String) (digest : Digest) : Response where
  status := 201
  headers :=
    [("Location", "/v2/self/" ++ name ++ "/manifests/" ++ digest.toText),
      ("Docker-Content-Digest", digest.toText), ("Content-Length", "0")]
  body := []

namespace State

variable (crates : Crates)

/-- The digest of a reference: its own, that of a local tag, or one to ask for upstream. -/
def resolveReference (s : State) (r : Request) : ManifestReq :=
  match Digest.fromStr r.tail with
  | some digest => .lookup r digest
  | none =>
    if r.upstreamHost = "self" then
      match s.tags.lookup (r.name, r.tail) with
      | some digest => .lookup r digest
      | none => .done (.error .notFound)
    else .resolve r

/-- The digest an upstream names for a tag. -/
def resolveTag (r : Request) : Answer → ManifestReq
  | .error e => .done (.error e)
  | .ok resp =>
    if !resp.isSuccess then .done (.ok (upstreamReturned crates resp))
    else
      match resp.dockerContentDigest.bind Digest.fromStr with
      | none => .done (.error (.upstream "HEAD response missing Docker-Content-Digest"))
      | some digest => .lookup r digest

/-- Serve a cached manifest and note the access; a miss goes to the upstream of the host. -/
def lookupManifest (s : State) (r : Request) (digest : Digest) : State × ManifestReq :=
  match s.manifests.lookup digest with
  | some m =>
    let m := { m with lastUsed := s.now, evicted := false }
    ({ s with manifests := s.manifests.insert digest m },
      .done (.ok (serveManifest m (r.method = .head) digest)))
  | none => if r.upstreamHost = "self" then (s, .done (.error .notFound)) else (s, .fetch r digest)

/-- Store what the upstream sent under the digest that was asked for, and serve it. -/
def fetchManifest (s : State) (r : Request) (digest : Digest) : Answer → State × ManifestReq
  | .error e => (s, .done (.error e))
  | .ok resp =>
    if !resp.isSuccess then (s, .done (.ok (upstreamReturned crates resp)))
    else
      match resp.body with
      | .error e => (s, .done (.error (.upstream ("read manifest body: " ++ e))))
      | .ok body =>
        let entry : Manifest :=
          ⟨body, resp.contentType.getD "application/octet-stream", s.now, false⟩
        (s.insertManifest digest entry,
          .done (.ok (serveManifest entry (r.method = .head) digest)))

/-- Store the body of a PUT under its own digest. -/
def putInsert (s : State) (r : Request) (body : Bytes) : State × ManifestReq :=
  let digest := crates.sha256 body
  let manifest : Manifest :=
    ⟨body, r.contentType.getD "application/vnd.docker.distribution.manifest.v2+json", s.now, false⟩
  (s.insertManifest digest manifest,
    if (Digest.fromStr r.tail).isNone then .putTag r digest else .putDigest r digest)

/-- The first step of a request: the dispatch on its method. -/
def startManifest (s : State) (r : Request) : ManifestReq :=
  match r.method with
  | .get | .head => s.resolveReference r
  | .put =>
    match ensureSelf r.upstreamHost r.method with
    | .error e => .done (.error e)
    | .ok () => .putBody r
  | m => .done (.error (.methodNotAllowed m))

/-- Read the body of a PUT. -/
def putBody (r : Request) (body : Except String Bytes) : ManifestReq :=
  match readBody body with
  | .error e => .done (.error e)
  | .ok body => .putInsert r body

/-- The next step of a manifest request. -/
def manifestStep (s : State) (inp : ManifestInput) : ManifestReq → State × ManifestReq
  | .start r => (s, s.startManifest r)
  | .resolve r => (s, resolveTag crates r inp.answer)
  | .lookup r digest => s.lookupManifest r digest
  | .fetch r digest => s.fetchManifest crates r digest inp.answer
  | .putBody r => (s, putBody r inp.body)
  | .putInsert r body => s.putInsert crates r body
  | .putTag r digest =>
    ({ s with tags := s.tags.insert (r.name, r.tail) digest }, .putDigest r digest)
  | .putDigest r digest =>
    ({ s with tags := s.tags.insert (r.name, digest.toText) digest },
      .done (.ok (manifestCreated r.name digest)))
  | .done reply => (s, .done reply)

end State

/-- The state and the manifest requests made on it so far. -/
structure ManifestSys where
  st : State
  reqs : List ManifestReq

inductive ManifestEvent where
  | tick (now : ℕ)
  | request (r : Request)
  | step (i : ℕ) (inp : ManifestInput)

def ManifestSys.step (crates : Crates) (s : ManifestSys) : ManifestEvent → Option ManifestSys
  | .tick now => some { s with st := { s.st with now := now } }
  | .request r => some { s with reqs := s.reqs ++ [.start r] }
  | .step i inp =>
    match s.reqs[i]? with
    | none => none
    | some r =>
      some ⟨(s.st.manifestStep crates inp r).1, s.reqs.set i (s.st.manifestStep crates inp r).2⟩

/-- What request `i` was answered, once it is done. -/
def ManifestSys.replyTo (s : ManifestSys) (i : ℕ) : Option Reply :=
  match s.reqs[i]? with
  | some (.done reply) => some reply
  | _ => none

end Dockfoxprox
