import Dockfoxprox.Model.Alloc
import Dockfoxprox.Model.Conn

/-! `handle_conn` of `redis.rs` on the bytes of its socket. The client sends what it likes in
pieces of any size and may hang up; the loop waits until a whole command is there or the reader
has failed. The task of a connection is aborted at any time. What is written to the socket gets
there: a client that reads no replies is not modelled. -/

namespace Dockfoxprox

/-- A connection and its socket: what was received and not read yet, and whether the client has
hung up. The commands are still in the bytes, so that `conn` has none waiting. -/
structure WireConn where
  conn : Conn
  unread : Bytes := []
  eof : Bool := false

namespace WireConn

/-- A connection that was just accepted. -/
def fresh (password : Option Bytes) : WireConn := { conn := .fresh password [] }

def close (w : WireConn) : WireConn := { w with conn := { w.conn with phase := .closed } }

/-- The next step of the connection, if it has not to wait for the client. A reader that meets the
end of what was received goes on with what is received later, until the client hangs up. The
reader gets what it allocates (see `WireSys.stepWithin`). -/
def step (password : Option Bytes) (s : State) (w : WireConn) : Option (State × WireConn) :=
  match w.conn.phase with
  | .closed => none
  | .getting g => some ((w.conn.getStep s g).1, { w with conn := (w.conn.getStep s g).2 })
  | .ready =>
    match readCommand w.unread with
    | .ok (some [], rest) => some (s, { w with unread := rest })
    | .ok (some args, rest) =>
      some ((w.conn.dispatch password s args).1,
        { w with conn := (w.conn.dispatch password s args).2, unread := rest })
    | .ok (none, _) => if w.eof then some (s, w.close) else none
    | .error e => if e.kind = .unexpectedEof ∧ w.eof = false then none else some (s, w.close)

/-- The reader is about to allocate more than can be had, for a length that the client announced. -/
def starved (allocatable : ℕ) (w : WireConn) : Bool :=
  match w.conn.phase with
  | .ready => decide (Alloc.readCommand allocatable w.unread = .error .panicked)
  | _ => false

end WireConn

/-- The shared state and one connection. -/
structure WireSys where
  st : State
  wire : WireConn

/-- The client sends bytes or hangs up, the connection moves or is aborted, or another task
changes the shared state in any way. -/
inductive WireEvent where
  | receive (chunk : Bytes)
  | hangup
  | go
  | abort
  | other (s : State)

def WireSys.step (password : Option Bytes) (x : WireSys) : WireEvent → Option WireSys
  | .receive chunk =>
    if x.wire.eof then none
    else some { x with wire := { x.wire with unread := x.wire.unread ++ chunk } }
  | .hangup => some { x with wire := { x.wire with eof := true } }
  | .go => (x.wire.step password x.st).map fun r => ⟨r.1, r.2⟩
  | .abort => some { x with wire := x.wire.close }
  | .other s => some { x with st := s }

/-- The step where no allocation of more than `allocatable` bytes can be had. A reader that asks for
more takes its task, or the process, with it: the connection has no further step. -/
def WireSys.stepWithin (allocatable : ℕ) (password : Option Bytes) (x : WireSys) :
    WireEvent → Option WireSys
  | .go => if x.wire.starved allocatable then none else x.step password .go
  | e => x.step password e

/-- All bytes that a client sends. -/
def received : List WireEvent → Bytes
  | [] => []
  | .receive chunk :: es => chunk ++ received es
  | _ :: es => received es

/-- The commands a stream begins with, up to its end or to the first one that cannot be read. -/
def commandsIn : ℕ → Bytes → List (List Bytes)
  | 0, _ => []
  | n + 1, s =>
    match readCommand s with
    | .ok (some args, rest) => args :: commandsIn n rest
    | _ => []

/-- Every command takes at least one byte. -/
def commands (s : Bytes) : List (List Bytes) := commandsIn s.length s

end Dockfoxprox
