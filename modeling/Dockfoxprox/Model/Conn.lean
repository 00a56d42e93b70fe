import Dockfoxprox.Model.Redis
import Dockfoxprox.Model.Resp

/-! `handle_conn` of `redis.rs`: one connection of the Redis server, from parsed commands
to reply bytes. A command is dispatched on its verb in one step, and a GET goes on with
its own steps. The configured password is a parameter. -/

namespace Dockfoxprox

inductive Verb where
  | ping
  | quit
  | hello
  | command
  | auth
  | get
  | set
  | del
  | exists
  | flush
  | select
  | info
  | dbsize
  | unknown
deriving DecidableEq

/-- The verbs that have an arm of their own. -/
def verbs : List (String × Verb) :=
  [("PING", .ping), ("QUIT", .quit), ("HELLO", .hello), ("COMMAND", .command), ("AUTH", .auth),
    ("GET", .get), ("SET", .set), ("DEL", .del), ("UNLINK", .del), ("EXISTS", .exists),
    ("FLUSHDB", .flush), ("FLUSHALL", .flush), ("SELECT", .select), ("CLIENT", .select),
    ("INFO", .info), ("DBSIZE", .dbsize)]

def toAsciiUppercase (b : UInt8) : UInt8 := if 97 ≤ b ∧ b ≤ 122 then b - 32 else b

/-- The uppercased verb of a command; one that is not UTF-8 counts as empty. -/
def cmdOf (args : List Bytes) : Bytes :=
  ((args.head?.filter fun a => (fromUtf8 a).isSome).getD []).map toAsciiUppercase

def Verb.of (cmd : Bytes) : Verb :=
  ((verbs.find? fun v => utf8 v.1 = cmd).map Prod.snd).getD .unknown

namespace State

/-- The loop of DEL, with the number of keys that were there. -/
def delete (s : State) : List Bytes → ℕ × State
  | [] => (0, s)
  | k :: keys =>
    let (found, s) := s.removeRedis k
    let (n, s) := s.delete keys
    (n + found.toNat, s)

/-- The loop of EXISTS, which counts a key as often as it is named. -/
def existing (s : State) (keys : List Bytes) : ℕ :=
  keys.countP fun k => (s.redisEntries.lookup k).isSome

end State

inductive ConnPhase where
  | ready
  | getting (g : Get)
  | closed
deriving DecidableEq

/-- A connection: the commands the client has yet to send, the bytes written since the last
flush and, for each flush so far, what it sent. -/
structure Conn where
  authed : Bool
  phase : ConnPhase
  input : List (List Bytes)
  buf : Bytes
  sent : List Bytes
deriving DecidableEq

namespace Conn

/-- A connection that was just accepted. -/
def fresh (password : Option Bytes) (input : List (List Bytes)) : Conn :=
  ⟨password.isNone, .ready, input, [], []⟩

def write (c : Conn) (b : Bytes) : Conn := { c with buf := c.buf ++ b }

def flush (c : Conn) : Conn := { c with buf := [], sent := c.sent ++ [c.buf] }

/-- Write a reply and go on to the next command. -/
def reply (c : Conn) (b : Bytes) : Conn := { (c.write b).flush with phase := .ready }

/-- Compare the password a client gave with the configured one. -/
def checkPassword (password : Option Bytes) (c : Conn) (given : Bytes) : Conn :=
  match password with
  | none => c.reply (writeError (utf8 "ERR Client sent AUTH, but no password is set"))
  | some p =>
    if given = p then { c.reply (writeSimple (utf8 "OK")) with authed := true }
    else c.reply (writeError (utf8 "WRONGPASS invalid username-password pair"))

/-- The arm of AUTH; a username is ignored. -/
def auth (password : Option Bytes) (c : Conn) (args : List Bytes) : Conn :=
  match args with
  | [_, given] => c.checkPassword password given
  | [_, _, given] => c.checkPassword password given
  | _ => c.reply (writeError (utf8 "ERR wrong number of arguments for 'auth'"))

def unknownCommand (cmd : Bytes) : Bytes :=
  writeError (utf8 "ERR unknown command '" ++ cmd ++ utf8 "'")

/-- The arms behind the gate. -/
def authedCommand (s : State) (c : Conn) (args : List Bytes) : State × Conn :=
  match Verb.of (cmdOf args) with
  | .get =>
    match args with
    | [_, key] => (s, { c with phase := .getting (.start key) })
    | _ => (s, c.reply (writeError (utf8 "ERR wrong number of arguments for 'get'")))
  | .set =>
    match args with
    -- optional flags are ignored
    | _ :: key :: value :: _ => (s.insertRedis key value, c.reply (writeSimple (utf8 "OK")))
    | _ => (s, c.reply (writeError (utf8 "ERR wrong number of arguments for 'set'")))
  | .del => ((s.delete args.tail).2, c.reply (writeInteger (s.delete args.tail).1))
  | .exists => (s, c.reply (writeInteger (s.existing args.tail)))
  | .flush => (s.flushRedis, c.reply (writeSimple (utf8 "OK")))
  | .select => (s, c.reply (writeSimple (utf8 "OK")))
  | .info => (s, c.reply (writeBulk []))
  | .dbsize => (s, c.reply (writeInteger s.redisEntries.entries.length))
  | _ => (s, c.reply (unknownCommand (cmdOf args)))

/-- The arms of a command, in the order of the source. -/
def dispatch (password : Option Bytes) (s : State) (c : Conn) (args : List Bytes) : State × Conn :=
  match Verb.of (cmdOf args) with
  | .ping =>
    match args with
    | _ :: msg :: _ => (s, c.reply (writeBulk msg))
    | _ => (s, c.reply (writeSimple (utf8 "PONG")))
  | .quit => (s, { c.reply (writeSimple (utf8 "OK")) with phase := .closed })
  | .hello => (s, c.reply (writeError (utf8 "ERR NOPROTO unsupported protocol")))
  | .command => (s, c.reply (utf8 "*0\r\n"))
  | .auth => (s, c.auth password args)
  | _ =>
    if c.authed then c.authedCommand s args
    else (s, c.reply (writeError (utf8 "NOAUTH Authentication required.")))

/-- The bytes of a finished GET. -/
def getBytes : Option Bytes → Bytes
  | some value => writeBulk value
  | none => writeNil

/-- The next step of a GET, with its reply once it is done. -/
def getStep (s : State) (c : Conn) (g : Get) : State × Conn :=
  ((g.step s).1,
    match (g.step s).2 with
    | .done r => c.reply (getBytes r)
    | g => { c with phase := .getting g })

/-- The next step of the connection. -/
def step (password : Option Bytes) (s : State) (c : Conn) : State × Conn :=
  match c.phase with
  | .closed => (s, c)
  | .getting g => c.getStep s g
  | .ready =>
    match c.input with
    | [] => (s, { c with phase := .closed })
    | [] :: rest => (s, { c with input := rest })
    | args :: rest => dispatch password s { c with input := rest } args

end Conn

/-- The shared state and one connection. -/
structure ConnSys where
  st : State
  conn : Conn

/-- The connection moves, or another task changes the shared state in any way. -/
inductive ConnEvent where
  | go
  | other (s : State)

def ConnSys.step (password : Option Bytes) (x : ConnSys) : ConnEvent → Option ConnSys
  | .go =>
    if x.conn.phase = .closed then none
    else some ⟨(x.conn.step password x.st).1, (x.conn.step password x.st).2⟩
  | .other s => some { x with st := s }

end Dockfoxprox
