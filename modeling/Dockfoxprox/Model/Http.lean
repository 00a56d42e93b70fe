import Dockfoxprox.Model.State

/-! The requests, responses and errors of `docker.rs`. The hash function and the
parsers of other crates that the handlers call are fields of `Crates`, so that
every result about a handler ranges over them. -/

namespace Dockfoxprox

/-- An upload id, the 128 bits of `Uuid`. -/
abbrev Uuid := BitVec 128

/-- What the handlers use of other crates: `sha2`, `percent_encoding`, `uuid` and the
text of a status code. -/
structure Crates where
  sha256 : Bytes → Digest
  percentDecode : String → String
  parseUuid : String → Option Uuid
  uuidText : Uuid → String
  statusText : ℕ → String

/-- A running `Sha256`, by the bytes it has been fed. -/
structure Hasher where
  fed : Bytes
deriving DecidableEq

namespace Hasher

def new : Hasher := ⟨[]⟩

def update (h : Hasher) (chunk : Bytes) : Hasher := ⟨h.fed ++ chunk⟩

def finalize (crates : Crates) (h : Hasher) : Digest := crates.sha256 h.fed

@[simp] theorem fed_new : new.fed = [] := rfl

@[simp] theorem fed_update (h : Hasher) (chunk : Bytes) : (h.update chunk).fed = h.fed ++ chunk :=
  rfl

end Hasher

inductive Method where
  | get
  | head
  | post
  | put
  | patch
  | delete
deriving DecidableEq

/-- A routed request: the resolved host, the repository name and the last path
segment, with what the handlers read of the query and the headers. -/
structure Request where
  method : Method
  upstreamHost : String
  name : String
  tail : String
  query : Option String := none
  contentType : Option String := none

structure Response where
  status : ℕ
  headers : List (String × String)
  body : Bytes
deriving DecidableEq

inductive DockerError where
  | notFound
  | methodNotAllowed (method : Method)
  | upstream (msg : String)
deriving DecidableEq

/-- A plain-text error response. -/
def errorResponse (status : ℕ) (msg : String) : Response where
  status := status
  headers := [("content-type", "text/plain; charset=utf-8")]
  body := utf8 msg

/-- What a handler comes back with. -/
abbrev Reply := Except DockerError Response

/-- The response `handle_request` makes of an error. -/
def DockerError.response : DockerError → Response
  | .notFound => errorResponse 404 "Not found"
  | .methodNotAllowed _ => errorResponse 405 "Method Not Allowed"
  | .upstream _ => errorResponse 502 "Bad Gateway"

/-- Only the `self` registry accepts writes. -/
def ensureSelf (upstreamHost : String) (method : Method) : Except DockerError Unit :=
  if upstreamHost ≠ "self" then .error (.methodNotAllowed method) else .ok ()

/-- Drain a request body; the client may break off. -/
def readBody (body : Except String Bytes) : Except DockerError Bytes :=
  body.mapError fun e => .upstream ("read body: " ++ e)

/-- The `digest=` parameter of a query, percent-decoded. -/
def digestFromQuery (crates : Crates) (query : Option String) : Option String :=
  query.bind fun q =>
    (q.toList.splitOn '&').findSome? fun kv =>
      (kv.dropPrefix? "digest=".toList).map fun v => crates.percentDecode (String.ofList v)

end Dockfoxprox
