import Dockfoxprox.Model.Http
import Dockfoxprox.Model.Pull
import Dockfoxprox.Model.Resp

/-! `handle_request_inner` of `docker.rs`: the check of the `Authorization` header, the cutting of
a path into host, name and last segment, and the dispatch to a handler. -/

namespace Dockfoxprox

/-- A user of the configuration. -/
structure DockerUser where
  username : String
  password : String

/-- What the dispatcher reads of the configuration. -/
structure RouterConfig where
  dockerUser : List DockerUser
  dockerRegistry : DashMap String DockerRegistry

/-- A request as it comes in. A header is absent when it is missing or not text. -/
structure HttpRequest where
  method : Method
  path : String
  query : Option String := none
  contentType : Option String := none
  authorization : Option String := none

/-- The errors of the dispatcher. -/
inductive RouteError where
  | invalidAuth
  | invalidHost (host : String)
  | notFound
  | methodNotAllowed (method : Method)
deriving DecidableEq

/-- `str::split_once`. -/
def splitOnce (c : Char) : List Char → Option (List Char × List Char)
  | [] => none
  | x :: xs => if x = c then some ([], xs) else (splitOnce c xs).map fun p => (x :: p.1, p.2)

/-- `str::rsplit_once`. -/
def rsplitOnce (c : Char) (s : List Char) : Option (List Char × List Char) :=
  (splitOnce c s.reverse).map fun p => (p.2.reverse, p.1.reverse)

/-- Check the `Authorization` header against the configured users, if any. -/
def checkAuth (base64Decode : String → Option Bytes) (config : RouterConfig) (req : HttpRequest) :
    Except RouteError Unit :=
  if config.dockerUser.isEmpty then .ok ()
  else
    match req.authorization.bind fun auth => auth.toList.dropPrefix? "Basic ".toList with
    | none => .error .invalidAuth
    | some basic =>
      match (base64Decode (String.ofList basic)).bind fromUtf8 with
      | none => .error .invalidAuth
      | some decoded =>
        match splitOnce ':' decoded with
        | none => .error .invalidAuth
        | some (username, password) =>
          if config.dockerUser.any fun user =>
            user.username = String.ofList username ∧ user.password = String.ofList password
          then .ok ()
          else .error .invalidAuth

/-- Reject hosts with characters that would reach into the upstream URL. -/
def validateHost (host : String) : Except RouteError Unit :=
  if host.toList.contains '/' || host.toList.contains '@' || host.toList.contains ' ' then
    .error (.invalidHost host)
  else .ok ()

/-- `self` is reserved; then come the configured aliases, then the shortcut for Docker Hub. -/
def aliasHost (config : RouterConfig) (host : String) : String :=
  if host = "self" then "self"
  else
    match config.dockerRegistry.lookup host with
    | some reg => reg.url
    | none =>
      if host = "docker.io" ∨ host = "index.docker.io" then "registry-1.docker.io" else host

inductive Handler where
  | getHeadManifest (head : Bool)
  | putManifest
  | postBlobUpload
  | patchBlobUpload
  | putBlobUpload
  | deleteBlobUpload
  | getBlobUploadStatus
  | getHeadBlob (head : Bool)
deriving DecidableEq

/-- The resource kinds of a path. -/
inductive Resource where
  | manifests
  | uploads
  | blobs
deriving DecidableEq

/-- The handler of a method. -/
def Resource.handler : Resource → Method → Option Handler
  | .manifests, .get => some (.getHeadManifest false)
  | .manifests, .head => some (.getHeadManifest true)
  | .manifests, .put => some .putManifest
  | .uploads, .post => some .postBlobUpload
  | .uploads, .patch => some .patchBlobUpload
  | .uploads, .put => some .putBlobUpload
  | .uploads, .delete => some .deleteBlobUpload
  | .uploads, .get => some .getBlobUploadStatus
  | .blobs, .get => some (.getHeadBlob false)
  | .blobs, .head => some (.getHeadBlob true)
  | _, _ => none

/-- A path cut into host, resource, name and last segment. -/
structure Cut where
  resource : Resource
  host : String
  name : String
  tail : String
deriving DecidableEq

/-- Cut the last segment and the resource off the end of a path; the name is left. -/
def cutResource (rest : List Char) : Option (Resource × List Char × List Char) :=
  (rsplitOnce '/' rest).bind fun (rest, tail) =>
    (rsplitOnce '/' rest).bind fun (rest, tag) =>
      if String.ofList tag = "manifests" then some (.manifests, rest, tail)
      else if String.ofList tag = "uploads" then
        (rest.dropSuffix? "/blobs".toList).map fun name => (.uploads, name, tail)
      else if String.ofList tag = "blobs" then some (.blobs, rest, tail)
      else none

/-- Cut the host off the front of a path, and the rest from its end. -/
def cutPath (path : String) : Except RouteError Cut :=
  match path.toList.dropPrefix? "/v2/".toList with
  | none => .error .notFound
  | some suffix =>
    match splitOnce '/' suffix with
    | none => .error .notFound
    | some (host, rest) =>
      if host = [] ∨ rest = [] then .error .notFound
      else
        match validateHost (String.ofList host) with
        | .error e => .error e
        | .ok () =>
          match cutResource rest with
          | none => .error .notFound
          | some (resource, name, tail) =>
            .ok ⟨resource, String.ofList host, String.ofList name, String.ofList tail⟩

/-- The answer to a probe of the API version, or a handler with the request it is given. -/
inductive Routed where
  | version
  | handler (handler : Handler) (r : Request)

def handleRequestInner (base64Decode : String → Option Bytes) (config : RouterConfig)
    (req : HttpRequest) : Except RouteError Routed := do
  checkAuth base64Decode config req
  if req.path = "/v2" ∨ req.path = "/v2/" then return .version
  let cut ← cutPath req.path
  match cut.resource.handler req.method with
  | none => throw (.methodNotAllowed req.method)
  | some handler =>
    return .handler handler ⟨req.method, aliasHost config cut.host, cut.name, cut.tail, req.query,
      req.contentType⟩

end Dockfoxprox
