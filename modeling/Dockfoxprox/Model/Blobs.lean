import Dockfoxprox.Model.Cache
import Dockfoxprox.Model.Http

/-! GET and HEAD of a blob that is cached: `get_head_blob` of `docker.rs` up to its cache
miss, with `serve_blob_bytes` and `serve_disk_blob`. A body is the list of its frames. -/

namespace Dockfoxprox

/-- A response whose body is streamed. -/
structure StreamedResponse where
  status : ℕ
  headers : List (String × String)
  frames : List Bytes
deriving DecidableEq

/-- What `http` and `tokio_util` do for the blob handlers: whether a text may stand in a
header, and the frames in which a file is read. -/
structure Streams where
  headerOk : String → Bool
  frames : Bytes → List Bytes
  frames_flatten : ∀ content, (frames content).flatten = content

/-- How `get_head_blob` ends. Building a response with a bad header panics. -/
inductive BlobReply where
  | response (r : StreamedResponse)
  | panic
  | notFound
  | miss (digest : Digest)
deriving DecidableEq

/-- The 200 of a blob of `len` bytes. -/
def blobResponse (streams : Streams) (mediaType : String) (digest : Digest) (len : ℕ)
    (frames : List Bytes) : BlobReply :=
  if streams.headerOk mediaType then
    .response
      { status := 200
        headers :=
          [("content-type", mediaType), ("docker-content-digest", digest.toText),
            ("content-length", Nat.repr len)]
        frames := frames }
  else .panic

/-- A plain-text error as a streamed response. -/
def errorReply (status : ℕ) (msg : String) : BlobReply :=
  .response
    { status := (errorResponse status msg).status
      headers := (errorResponse status msg).headers
      frames := [(errorResponse status msg).body] }

def serveBlobBytes (streams : Streams) (content : Bytes) (mediaType : String) (digest : Digest)
    (head : Bool) : BlobReply :=
  blobResponse streams mediaType digest content.length (if head then [] else [content])

def serveDiskBlob (streams : Streams) (s : State) (digest : Digest) (id size : ℕ)
    (mediaType : String) (head : Bool) : BlobReply :=
  if head then blobResponse streams mediaType digest size []
  else
    match s.files.lookup id with
    | none => errorReply 500 "blob unavailable"
    | some content => blobResponse streams mediaType digest size (streams.frames content)

/-- GET or HEAD of a blob. A hit stores the access time; a miss goes on to the upstream. -/
def getHeadBlob (streams : Streams) (s : State) (upstreamHost digest : String) (head : Bool) :
    State × BlobReply :=
  match Digest.fromStr digest with
  | none => (s, errorReply 400 "invalid digest")
  | some d =>
    match s.blobs.lookup d with
    | some entry =>
      ({ s with blobs := s.blobs.insert d (entry.touch s.now) },
        match entry with
        | .inMemory _ content mediaType _ => serveBlobBytes streams content mediaType d head
        | .onDisk id size mediaType _ => serveDiskBlob streams s d id size mediaType head)
    | none => if upstreamHost = "self" then (s, .notFound) else (s, .miss d)

/-- What a client sees of a reply: how a body is cut into frames does not matter. -/
def BlobReply.body : BlobReply → Bytes
  | .response r => r.frames.flatten
  | _ => []

/-- The reply with its body in one frame. -/
def BlobReply.joined : BlobReply → BlobReply
  | .response r => .response { r with frames := [r.frames.flatten] }
  | reply => reply

/-- The events of eviction passes with nothing else going on: their steps, with file writes
that succeed, the unlink tasks they spawn, and the clock. -/
def CacheEvent.OfPasses : CacheEvent → Prop
  | .evict c => c.write = .ok
  | .unlink _ | .nextPass | .tick _ => True
  | _ => False

end Dockfoxprox
