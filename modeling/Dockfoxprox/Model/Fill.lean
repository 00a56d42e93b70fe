import Dockfoxprox.Model.Alloc
import Dockfoxprox.Model.Uploads

/-! The task of `spawn_blob_fill` with the channel between it and the client, one await point
at a time. The task blocks on a full channel; the client polls frames out of the other end and
may drop it, and with it what is still queued. -/

namespace Dockfoxprox

/-- The `Content-Length` of the upstream response, as far as it is a `usize`. -/
def contentLengthHint (header : Option String) : ℕ :=
  (header.bind fun text => usizeFromStr text.toList).getD 0

/-- The body of an upstream response: its chunks, and the error that ends it, if one does. -/
structure BodyStream where
  chunks : List Bytes
  error : Option String

/-- A frame on its way to the client. -/
abbrev BodyFrame := Except String Bytes

/-- Where the task of a fill is. -/
inductive FillStage where
  | start
  | reading
  | sending (frame : BodyFrame)
  | inserting
  | finished
  | panicked
  | aborted
deriving DecidableEq

/-- The task: what it was spawned with, what upstream has yet to send, and its locals. -/
structure FillTask where
  digest : Digest
  mediaType : String
  contentLength : Option String
  stream : BodyStream
  buf : Bytes := []
  hasher : Hasher := .new
  clientAlive : Bool := true
  stage : FillStage := .start

def FillTask.Done (t : FillTask) : Prop :=
  t.stage = .finished ∨ t.stage = .panicked ∨ t.stage = .aborted

/-- The shared state, a fill and its client. `received` is what the client has polled. -/
structure FillSys where
  st : State
  task : FillTask
  channel : List BodyFrame := []
  receiver : Bool := true
  received : List BodyFrame := []

namespace FillSys

/-- A full channel. -/
def capacity : ℕ := 8

/-- The task allocates its buffer: the task panics over a capacity above `isize::MAX`, and the
process aborts over one that the allocator does not have. -/
def allocate (allocatable : ℕ) (x : FillSys) : FillSys :=
  { x with task := { x.task with
      stage :=
        if isizeMax < contentLengthHint x.task.contentLength then .panicked
        else if allocatable < contentLengthHint x.task.contentLength then .aborted
        else .reading } }

/-- The next item of the stream, or its end: the digest check, with no await before the insert. -/
def read (crates : Crates) (x : FillSys) : FillSys :=
  match x.task.stream.chunks with
  | chunk :: chunks =>
    { x with task := { x.task with
        stream := { x.task.stream with chunks := chunks }
        hasher := x.task.hasher.update chunk
        buf := x.task.buf ++ chunk
        stage := if x.task.clientAlive then .sending (.ok chunk) else .reading } }
  | [] =>
    match x.task.stream.error with
    | some e =>
      { x with task := { x.task with
          stage := if x.task.clientAlive then .sending (.error e) else .finished } }
    | none =>
      { x with task := { x.task with
          stage := if x.task.hasher.finalize crates ≠ x.task.digest then .finished
            else .inserting } }

/-- The loop goes on after a chunk; an error is the last frame. -/
def afterSend : BodyFrame → FillStage
  | .ok _ => .reading
  | .error _ => .finished

/-- `tx.send(frame).await`: it fails without a receiver and waits on a full channel. -/
def send (x : FillSys) (frame : BodyFrame) : Option FillSys :=
  if x.receiver then
    if x.channel.length < capacity then
      some { x with
        channel := x.channel ++ [frame]
        task := { x.task with stage := afterSend frame } }
    else none
  else some { x with task := { x.task with clientAlive := false, stage := afterSend frame } }

def insert (x : FillSys) : FillSys :=
  { x with
    st := x.st.storeBlob x.task.digest x.task.buf x.task.mediaType
    task := { x.task with stage := .finished } }

end FillSys

inductive FillEvent where
  | tick (now : ℕ)
  | task
  | poll
  | disconnect
deriving DecidableEq

/-- A step of the fill, where no buffer of more than `allocatable` bytes can be had at the start.
Bytes that have arrived are taken to fit. -/
def FillSys.step (crates : Crates) (allocatable : ℕ) (x : FillSys) : FillEvent → Option FillSys
  | .tick now => some { x with st := { x.st with now := now } }
  | .task =>
    match x.task.stage with
    | .start => some (x.allocate allocatable)
    | .reading => some (x.read crates)
    | .sending frame => x.send frame
    | .inserting => some x.insert
    | .finished | .panicked | .aborted => none
  | .poll =>
    match x.channel with
    | frame :: channel =>
      some { x with channel := channel, received := x.received ++ [frame] }
    | [] => none
  | .disconnect => if x.receiver then some { x with receiver := false, channel := [] } else none

/-- A fill that has just been spawned. -/
def FillSys.init (s : State) (digest : Digest) (mediaType : String) (contentLength : Option String)
    (stream : BodyStream) : FillSys where
  st := s
  task := { digest, mediaType, contentLength, stream }

/-- What a client that stays to the end is sent. -/
def BodyStream.frames (stream : BodyStream) : List BodyFrame :=
  stream.chunks.map .ok ++ stream.error.toList.map .error

/-- The stream ends without an error, and its content is that of the digest. -/
def BodyStream.Fills (crates : Crates) (stream : BodyStream) (digest : Digest) : Prop :=
  stream.error = none ∧ crates.sha256 stream.chunks.flatten = digest

/-- What a fill that started over `s` may have done by the time it has come to `x`. -/
structure FillSys.AllOrNothing (crates : Crates) (s : State) (digest : Digest) (mediaType : String)
    (stream : BodyStream) (x : FillSys) : Prop where
  untouched : ¬ x.task.Done → x.st.blobs = s.blobs
  stored : x.task.Done → stream.Fills crates digest →
    ∃ now, x.st.blobs =
      s.blobs.insert digest (.inMemory s.nextId stream.chunks.flatten mediaType now)
  dropped : x.task.Done → ¬ stream.Fills crates digest → x.st.blobs = s.blobs
  delivered : x.received <+: stream.frames
  unfinished : ¬ x.task.Done → x.received ++ x.channel <+: stream.chunks.map .ok
  all : x.task.Done → x.receiver = true → x.received ++ x.channel = stream.frames
  gone : x.receiver = false → x.channel = []

end Dockfoxprox
