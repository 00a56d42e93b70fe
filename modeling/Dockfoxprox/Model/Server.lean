import Dockfoxprox.Model.Accept
import Dockfoxprox.Model.Blobs
import Dockfoxprox.Model.Fill
import Dockfoxprox.Model.Metrics
import Dockfoxprox.Model.Pulls
import Dockfoxprox.Model.Router

/-! The HTTP side as one system: `handle` of `main.rs` with `handle_request` and the handlers of
`docker.rs` behind it. The requests of all clients, the pulls they wait for and the fills they
leave behind take their steps in any order, over one state. -/

namespace Dockfoxprox

/-- What the proxy is built with, and how large a buffer its allocator can give a fill. -/
structure Proxy where
  crates : Crates
  pullCrates : PullCrates
  streams : Streams
  base64Decode : String → Option Bytes
  config : RouterConfig
  allocatable : ℕ

/-- A request with its `Accept` header. -/
structure ClientRequest where
  http : HttpRequest
  accept : Option String := none

/-- What the handlers read of the response of a pull besides its status. -/
structure UpstreamHead where
  dockerContentDigest : Option String := none
  contentType : Option String := none
  contentLength : Option String := none
  stream : BodyStream := ⟨[], none⟩

/-- What a request is answered: a whole body, a body streamed from the cache, or one that a
fill streams. -/
inductive ServerReply where
  | response (r : Response)
  | streamed (r : StreamedResponse)
  | filling (headers : List (String × String)) (fill : ℕ)
  | panicked
deriving DecidableEq

/-- Where a request is. A pull it waits for is named by its place among the pulls. -/
inductive ServeStage where
  | start
  | upload (q : UploadReq)
  | manifest (q : ManifestReq)
  | manifestPull (q : ManifestReq) (pull : ℕ)
  | blobPull (digest : Digest) (head : Bool) (pull : ℕ)
  | done (reply : ServerReply)

structure Served where
  req : ClientRequest
  stage : ServeStage := .start

/-- The task of a fill, with the channel to its client. -/
structure Filling where
  task : FillTask
  channel : List BodyFrame := []
  receiver : Bool := true
  received : List BodyFrame := []

structure Server where
  uploads : Uploads
  pulls : PullSys
  metrics : DockerMetrics
  reqs : List Served
  fills : List Filling

/-- A proxy over `s` that has served no request yet. -/
def Server.init (s : State) : Server where
  uploads := ⟨s, ∅, fun _ => .new, 0, []⟩
  pulls := .init
  metrics := {}
  reqs := []
  fills := []

/-- What a step of a request may draw from outside: a fresh uuid, the body of the request, the
rest of an upstream response, and the counters of the Redis server for `/metrics`. -/
structure ServerInput where
  uuid : Uuid := 0
  body : Except String Bytes := .ok []
  head : UpstreamHead := {}
  redis : RedisMetrics := {}

/-- The response `handle_request` makes of an error of the dispatcher. -/
def RouteError.response : RouteError → Response
  | .invalidAuth =>
    { status := 401
      headers :=
        [("content-type", "text/plain; charset=utf-8"),
          ("www-authenticate", "Basic realm=\"dockfoxprox\"")]
      body := utf8 "Unauthorized" }
  | .invalidHost _ => errorResponse 400 "Invalid host"
  | .notFound => DockerError.notFound.response
  | .methodNotAllowed m => (DockerError.methodNotAllowed m).response

def Reply.response : Reply → Response
  | .ok r => r
  | .error e => e.response

/-- The answer to a probe of the API version. -/
def versionResponse : Response where
  status := 200
  headers := [("Docker-Distribution-Api-Version", "registry/2.0")]
  body := []

def metricsResponse (page : String) : Response where
  status := 200
  headers :=
    [("content-type", "text/plain; version=0.0.4; charset=utf-8"),
      ("content-length", Nat.repr (utf8 page).length)]
  body := utf8 page

/-- The 404 of `main.rs`. -/
def notFoundPage : Response where
  status := 404
  headers := [("content-type", "text/plain; charset=utf-8")]
  body := utf8 "not found"

/-- The username and the password of a `Basic` header, as far as it can be decoded. -/
def HttpRequest.credentials (base64Decode : String → Option Bytes) (req : HttpRequest) :
    Option (List Char × List Char) := do
  let auth ← req.authorization
  let basic ← auth.toList.dropPrefix? "Basic ".toList
  let decoded ← (base64Decode (String.ofList basic)).bind fromUtf8
  splitOnce ':' decoded

/-- A failed check counts only where the header could be decoded. -/
def DockerMetrics.countRefusal (base64Decode : String → Option Bytes) (req : HttpRequest)
    (m : DockerMetrics) : RouteError → DockerMetrics
  | .invalidAuth =>
    if (req.credentials base64Decode).isSome then
      { m with dockerAuthFailures := m.dockerAuthFailures + 1 }
    else m
  | _ => m

/-- The counter of a handler; the status of an upload has none. -/
def DockerMetrics.countHandler (m : DockerMetrics) : Handler → DockerMetrics
  | .getHeadManifest false => { m with dockerManifestGet := m.dockerManifestGet + 1 }
  | .getHeadManifest true => { m with dockerManifestHead := m.dockerManifestHead + 1 }
  | .putManifest => { m with dockerManifestPut := m.dockerManifestPut + 1 }
  | .postBlobUpload => { m with dockerBlobUploadPost := m.dockerBlobUploadPost + 1 }
  | .patchBlobUpload => { m with dockerBlobUploadPatch := m.dockerBlobUploadPatch + 1 }
  | .putBlobUpload => { m with dockerBlobUploadPut := m.dockerBlobUploadPut + 1 }
  | .deleteBlobUpload => { m with dockerBlobUploadDelete := m.dockerBlobUploadDelete + 1 }
  | .getBlobUploadStatus => m
  | .getHeadBlob false => { m with dockerBlobGet := m.dockerBlobGet + 1 }
  | .getHeadBlob true => { m with dockerBlobHead := m.dockerBlobHead + 1 }

/-- The counters of a blob lookup. -/
def DockerMetrics.countBlob (m : DockerMetrics) (s : State) (upstreamHost digest : String) :
    DockerMetrics :=
  match Digest.fromStr digest with
  | none => m
  | some d =>
    match s.blobs.lookup d with
    | some (.inMemory ..) => { m with dockerBlobCacheHitMemory := m.dockerBlobCacheHitMemory + 1 }
    | some (.onDisk ..) => { m with dockerBlobCacheHitDisk := m.dockerBlobCacheHitDisk + 1 }
    | none =>
      if upstreamHost = "self" then m
      else { m with dockerBlobCacheMiss := m.dockerBlobCacheMiss + 1 }

/-- The counters of a manifest request: those of its lookup. -/
def DockerMetrics.countManifest (m : DockerMetrics) (s : State) : ManifestReq → DockerMetrics
  | .lookup r d =>
    if (s.manifests.lookup d).isSome then
      { m with dockerManifestCacheHit := m.dockerManifestCacheHit + 1 }
    else if r.upstreamHost = "self" then m
    else { m with dockerManifestCacheMiss := m.dockerManifestCacheMiss + 1 }
  | _ => m

/-- The counters of a step of a pull: whether a request could not be sent, and whether the next
one is on its way. -/
def DockerMetrics.countPull (m : DockerMetrics) (t t' : PullTask) (inp : PullInput) :
    DockerMetrics :=
  let m := match t.stage, inp.answer with
    | .sending _, .error _ => { m with dockerUpstreamErrors := m.dockerUpstreamErrors + 1 }
    | _, _ => m
  match t'.stage with
  | .sending _ => { m with dockerUpstreamRequests := m.dockerUpstreamRequests + 1 }
  | _ => m

def RouterConfig.registries (config : RouterConfig) : List DockerRegistry :=
  config.dockerRegistry.entries.map Sigma.snd

/-- The body of a response, read to its end. -/
def BodyStream.collect (b : BodyStream) : Except String Bytes :=
  match b.error with
  | some e => .error e
  | none => .ok b.chunks.flatten

namespace UpstreamHead

/-- What a manifest handler gets of a pull that came back with a response. -/
def toResponse (head : UpstreamHead) (resp : PullResponse) : UpstreamResponse where
  status := resp.status
  dockerContentDigest := head.dockerContentDigest
  contentType := head.contentType
  body := head.stream.collect

def mediaType (head : UpstreamHead) : String := head.contentType.getD "application/octet-stream"

/-- The 200 of a HEAD that missed the cache, with the length upstream states. -/
def headMiss (head : UpstreamHead) (d : Digest) : Response where
  status := 200
  headers :=
    [("content-type", head.mediaType), ("docker-content-digest", d.toText),
      ("content-length", head.contentLength.getD "0")]
  body := []

/-- The headers of a GET that missed the cache; a length only if it is a number. -/
def missHeaders (head : UpstreamHead) (d : Digest) : List (String × String) :=
  [("content-type", head.mediaType), ("docker-content-digest", d.toText)] ++
    match head.contentLength.bind fun text => usizeFromStr text.toList with
    | some len => [("content-length", Nat.repr len)]
    | none => []

/-- The task `spawn_blob_fill` leaves behind. -/
def fill (head : UpstreamHead) (d : Digest) : FillTask where
  digest := d
  mediaType := head.mediaType
  contentLength := head.contentLength
  stream := head.stream

end UpstreamHead

/-- A request goes on, or is answered. -/
def UploadReq.serve : UploadReq → ServeStage
  | .done reply => .done (.response reply.response)
  | q => .upload q

def ManifestReq.serve : ManifestReq → ServeStage
  | .done reply => .done (.response reply.response)
  | q => .manifest q

namespace Server

variable (px : Proxy) (s : Server)

def st : State := s.uploads.st

def setSt (st : State) : Server := { s with uploads := { s.uploads with st := st } }

/-- A pull begins, and a request waits for it. -/
def startPull (r : Request) (method : Method) (subPath : String) (accept : Option String)
    (stage : ℕ → ServeStage) : Server × ServeStage :=
  let call : PullCall :=
    ⟨px.config.registries, r.upstreamHost, r.name, method, subPath, accept⟩
  ({ s with pulls := { s.pulls with tasks := s.pulls.tasks ++ [{ call }] } },
    stage s.pulls.tasks.length)

/-- The step of an upload request. -/
def uploadStep (inp : ServerInput) (q : UploadReq) : Server × ServeStage :=
  ({ s with uploads := (s.uploads.step px.crates ⟨inp.uuid, inp.body⟩ q).1 },
    (s.uploads.step px.crates ⟨inp.uuid, inp.body⟩ q).2.serve)

/-- A manifest request moves on with the input of its step. -/
def manifestStep (inp : ManifestInput) (q : ManifestReq) : Server × ServeStage :=
  ({ s.setSt (s.st.manifestStep px.crates inp q).1 with
      metrics := s.metrics.countManifest s.st q },
    (s.st.manifestStep px.crates inp q).2.serve)

/-- A manifest request that is not waiting for a pull: it begins one, or takes its own step. -/
def serveManifestReq (inp : ServerInput) (clientAccept : Option String) (q : ManifestReq) :
    Server × ServeStage :=
  let accept := some (manifestAccept clientAccept)
  match q with
  | .resolve r => s.startPull px r .head ("manifests/" ++ r.tail) accept (.manifestPull q)
  | .fetch r d => s.startPull px r .get ("manifests/" ++ d.toText) accept (.manifestPull q)
  | q => s.manifestStep px { body := inp.body } q

/-- GET or HEAD of a blob up to its cache miss, which begins a pull. -/
def serveBlob (r : Request) (head : Bool) : Server × ServeStage :=
  let found := getHeadBlob px.streams s.st r.upstreamHost r.tail head
  let s' := { s.setSt found.1 with metrics := s.metrics.countBlob s.st r.upstreamHost r.tail }
  match found.2 with
  | .response resp => (s', .done (.streamed resp))
  | .panic => (s', .done .panicked)
  | .notFound => (s', .done (.response DockerError.notFound.response))
  | .miss d =>
    s'.startPull px r (if head then .head else .get) ("blobs/" ++ d.toText) none (.blobPull d head)

/-- The handler a request is dispatched to. -/
def dispatch (handler : Handler) (r : Request) : Server × ServeStage :=
  match handler with
  | .getHeadManifest _ | .putManifest => (s, .manifest (.start r))
  | .getHeadBlob head => s.serveBlob px r head
  | _ => (s, .upload (.start r))

/-- `handle_request`, up to the first await point of a handler. -/
def handleRequest (c : ClientRequest) : Server × ServeStage :=
  match handleRequestInner px.base64Decode px.config c.http with
  | .error e =>
    ({ s with metrics := s.metrics.countRefusal px.base64Decode c.http e },
      .done (.response e.response))
  | .ok .version => (s, .done (.response versionResponse))
  | .ok (.handler handler r) =>
    dispatch px { s with metrics := s.metrics.countHandler handler } handler r

/-- The router shared by the listeners. -/
def handle (inp : ServerInput) (c : ClientRequest) : Server × ServeStage :=
  if "/v2/".toList.isPrefixOf c.http.path.toList then s.handleRequest px c
  else if c.http.path = "/metrics" then
    (s, .done (.response (metricsResponse (render s.st s.metrics inp.redis
      s.uploads.uploads.entries.length s.pulls.tokens.entries.length))))
  else (s, .done (.response notFoundPage))

/-- The rest of `get_head_blob` after its pull. -/
def afterBlobPull (inp : ServerInput) (d : Digest) (head : Bool) :
    PullOutcome → Server × ServeStage
  | .panicked => (s, .done .panicked)
  | .error e => (s, .done (.response e.response))
  | .ok resp =>
    if !isSuccess resp.status then
      (s, .done (.response (upstreamReturned px.crates (inp.head.toResponse resp))))
    else if head then (s, .done (.response (inp.head.headMiss d)))
    else
      ({ s with fills := s.fills ++ [{ task := inp.head.fill d }] },
        .done (.filling (inp.head.missHeaders d) s.fills.length))

/-- A manifest request gets what its pull came back with. -/
def afterManifestPull (inp : ServerInput) (q : ManifestReq) : PullOutcome → Server × ServeStage
  | .panicked => (s, .done .panicked)
  | .error e => s.manifestStep px { answer := .error e } q
  | .ok resp => s.manifestStep px { answer := .ok (inp.head.toResponse resp) } q

/-- The outcome of a pull that is over. -/
def outcome (pull : ℕ) : Option PullOutcome :=
  (s.pulls.tasks[pull]?).bind fun t =>
    match t.stage with
    | .done outcome => some outcome
    | _ => none

/-- The next step of a request; one that waits for a pull, or has been answered, has none. -/
def serve (inp : ServerInput) (q : Served) : Option (Server × ServeStage) :=
  match q.stage with
  | .start => some (s.handle px inp q.req)
  | .upload u => some (s.uploadStep px inp u)
  | .manifest m => some (s.serveManifestReq px inp q.req.accept m)
  | .manifestPull m pull => (s.outcome pull).map (s.afterManifestPull px inp m)
  | .blobPull d head pull => (s.outcome pull).map (s.afterBlobPull px inp d head)
  | .done _ => none

end Server

/-- A fill as a system of its own over the state. -/
def Filling.over (f : Filling) (st : State) : FillSys :=
  ⟨st, f.task, f.channel, f.receiver, f.received⟩

def FillSys.filling (x : FillSys) : Filling := ⟨x.task, x.channel, x.receiver, x.received⟩

/-- A step of a fill. One that aborts takes the process with it, and the run is over. -/
def Proxy.fillStep (px : Proxy) (x : FillSys) (e : FillEvent) : Option FillSys :=
  (x.step px.crates px.allocatable e).filter fun x => x.task.stage ≠ .aborted

inductive ServerEvent where
  | tick (now : ℕ)
  | request (c : ClientRequest)
  | step (i : ℕ) (inp : ServerInput)
  | pull (k : ℕ) (inp : PullInput)
  | fill (j : ℕ) (e : FillEvent)

def Server.step (px : Proxy) (s : Server) : ServerEvent → Option Server
  | .tick now => some (s.setSt { s.st with now := now })
  | .request c => some { s with reqs := s.reqs ++ [{ req := c }] }
  | .step i inp =>
    match s.reqs[i]? with
    | none => none
    | some q => (s.serve px inp q).map fun r =>
        { r.1 with reqs := s.reqs.set i { q with stage := r.2 } }
  | .pull k inp =>
    match s.pulls.tasks[k]? with
    | none => none
    | some t => (t.next px.pullCrates s.pulls.tokens inp).map fun r =>
        { s with
          pulls := ⟨r.1, s.pulls.tasks.set k r.2⟩
          metrics := s.metrics.countPull t r.2 inp }
  | .fill j e =>
    match s.fills[j]? with
    | none => none
    | some f => (px.fillStep (f.over s.st) e).map fun x =>
        { s.setSt x.st with fills := s.fills.set j x.filling }

end Dockfoxprox
