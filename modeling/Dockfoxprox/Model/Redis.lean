import Dockfoxprox.Model.State

/-! The keyed commands of `redis.rs` and the Redis arm of `evict`, with their
await points. SET, DEL and FLUSHALL run to completion in one step. A GET of a key
whose value is on disk clones the entry, reads the file and inserts what it read.
A spill fetches the current entry, writes its bytes to the path of its id and
inserts the on-disk entry. The unlink tasks these operations spawn run whenever
the scheduler lets them. -/

namespace Dockfoxprox

inductive Command where
  | set (key value : Bytes)
  | del (keys : List Bytes)
  | flushAll
deriving DecidableEq

def Command.apply (s : State) : Command → State
  | .set key value => s.insertRedis key value
  | .del keys => keys.foldl (fun s k => (s.removeRedis k).2) s
  | .flushAll => s.flushRedis

/-- A GET, by the step it is about to take. The reply is a bulk string or nil. -/
inductive Get where
  | start (key : Bytes)
  | cloned (key : Bytes) (id : ℕ)
  | loaded (key value : Bytes)
  | failed (key : Bytes)
  | done (reply : Option Bytes)
deriving DecidableEq

def Get.step (s : State) : Get → State × Get
  | .start key =>
    match s.redisEntries.lookup key with
    | none => (s, .done none)
    | some (.inMemory value id _) =>
      ({ s with redisEntries := s.redisEntries.insert key (.inMemory value id s.now) },
        .done (some value))
    | some (.onDisk _ id _) => (s, .cloned key id)
  | .cloned key id =>
    match s.files.lookup id with
    | some value => (s, .loaded key value)
    | none => (s, .failed key)
  | .loaded key value => (s.insertRedis key value, .done (some value))
  -- the source drops whatever entry sits under the key by now
  | .failed key => ((s.removeRedis key).2, .done none)
  | .done reply => (s, .done reply)

/-- The key a GET has looked up and not yet written back. -/
def Get.window : Get → Option Bytes
  | .cloned key _ | .loaded key _ => some key
  | _ => none

/-- The Redis arm of `evict` on one large candidate, by the step it is about to take. -/
inductive Spill where
  | idle
  | fetched (key : Bytes) (size lastAccessed : ℕ) (value : Bytes) (id : ℕ)
  | written (key : Bytes) (size lastAccessed : ℕ) (value : Bytes) (id : ℕ)
deriving DecidableEq

/-- The key between the fetch of a spill and its insert. -/
def Spill.window : Spill → Option Bytes
  | .idle => none
  | .fetched key _ _ _ _ | .written key _ _ _ _ => some key

namespace State

/-- The entry a spill of `key` would write out: the current one, if it is in memory. -/
def spillFetch (s : State) (key : Bytes) : Option (Bytes × ℕ) :=
  match s.redisEntries.lookup key with
  | some (.inMemory value id _) => some (value, id)
  | _ => none

/-- The spill's insert goes to the map directly: size and access time are those of
the candidate, and neither a counter nor the replaced entry is looked at. -/
def spillInsert (s : State) (key : Bytes) (size lastAccessed id : ℕ) : State :=
  { s with redisEntries := s.redisEntries.insert key (.onDisk size id lastAccessed) }

/-- The value a key stands for: the bytes in memory or the contents of its file. -/
def denotes (s : State) (key : Bytes) : Option Bytes :=
  match s.redisEntries.lookup key with
  | none => none
  | some (.inMemory value _ _) => some value
  | some (.onDisk _ id _) => s.files.lookup id

/-- The reply of a GET that runs without interleaving. -/
def getReply (s : State) (key : Bytes) : Option Bytes :=
  let (s, g) := Get.step s (.start key)
  let (s, g) := Get.step s g
  match (Get.step s g).2 with
  | .done reply => reply
  | _ => none

end State

/-- The state, the GETs of the clients and the spill of the one eviction pass. -/
structure RedisSys where
  st : State
  gets : List Get
  spill : Spill

inductive RedisEvent where
  | command (c : Command)
  | get (key : Bytes)
  | getStep (i : ℕ)
  | unlink (i : ℕ)
  | spillFetch (key : Bytes) (size lastAccessed : ℕ)
  | spillWrite
  | spillFail (leftover : Option Bytes)
  | spillInsert
deriving DecidableEq

def RedisSys.step (s : RedisSys) : RedisEvent → Option RedisSys
  | .command c => some { s with st := c.apply s.st }
  | .get key => some { s with gets := s.gets ++ [.start key] }
  | .getStep i =>
    match s.gets[i]? with
    | none => none
    | some g => some { s with st := (g.step s.st).1, gets := s.gets.set i (g.step s.st).2 }
  | .unlink i =>
    match s.st.unlinks[i]? with
    | none => none
    | some id =>
      some { s with st := { s.st.removeFile id with unlinks := s.st.unlinks.eraseIdx i } }
  | .spillFetch key size lastAccessed =>
    match s.spill, s.st.spillFetch key with
    | .idle, some (value, id) => some { s with spill := .fetched key size lastAccessed value id }
    | .idle, none => some s
    | _, _ => none
  | .spillWrite =>
    match s.spill with
    | .fetched key size t value id =>
      some { s with st := s.st.writeFile id value, spill := .written key size t value id }
    | _ => none
  -- a failed write ends the pass and may leave any part of the file behind
  | .spillFail leftover =>
    match s.spill, leftover with
    | .fetched _ _ _ _ id, some part => some { s with st := s.st.writeFile id part, spill := .idle }
    | .fetched _ _ _ _ _, none => some { s with spill := .idle }
    | _, _ => none
  | .spillInsert =>
    match s.spill with
    | .written key size t _ id =>
      some { s with st := s.st.spillInsert key size t id, spill := .idle }
    | _ => none

/-- The steps of the eviction pass. -/
def RedisEvent.isSpill : RedisEvent → Bool
  | .spillFetch _ _ _ | .spillWrite | .spillFail _ | .spillInsert => true
  | _ => false

/-- The steps of GET commands. -/
def RedisEvent.isGet : RedisEvent → Bool
  | .get _ | .getStep _ => true
  | _ => false

end Dockfoxprox
