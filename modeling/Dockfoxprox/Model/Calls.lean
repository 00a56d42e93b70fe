import Dockfoxprox.Model.State

/-! The six operations of `state.rs` that keep the usage counters, cut into their
atomic steps: a step is one `fetch_add` or `fetch_sub` on a counter or one
insertion into or removal from a `DashMap`. Any number of calls may be in flight
and their steps interleave. -/

namespace Dockfoxprox

inductive Op where
  | insertBlob (digest : Digest) (blob : Blob)
  | removeBlob (digest : Digest)
  | insertManifest (digest : Digest) (m : Manifest)
  | removeManifest (digest : Digest)
  | insertRedis (key value : Bytes)
  | removeRedis (key : Bytes)
deriving DecidableEq

/-- A call in flight, by the step it is about to take. -/
inductive Call where
  | start (op : Op)
  | insertBlobMap (digest : Digest) (blob : Blob)
  | insertBlobOld (old : Blob)
  | removeBlobOld (old : Blob)
  | insertManifestAdd (newLen : ℕ) (oldLen : BitVec 64)
  | removeManifestOld (old : Manifest)
  | insertRedisCharge (key : Bytes) (entry : RedisEntry)
  | insertRedisMap (key : Bytes) (entry : RedisEntry)
  | insertRedisOld (old : RedisEntry)
  | insertRedisKey (key : Bytes)
  | removeRedisValue (key : Bytes) (old : RedisEntry)
  | removeRedisKey (key : Bytes) (old : RedisEntry)
  | done
deriving DecidableEq

/-- The next step of a call. -/
def Call.step (s : State) : Call → State × Call
  | .start (.insertBlob d b) =>
    (s.fetchAdd (blobBucket b).1 (blobBucket b).2, .insertBlobMap d b)
  | .insertBlobMap d b =>
    ({ s with blobs := s.blobs.insert d b },
      match s.blobs.lookup d with
      | some old => .insertBlobOld old
      | none => .done)
  | .insertBlobOld old => (s.fetchSub (blobBucket old).1 (blobBucket old).2, .done)
  | .start (.removeBlob d) =>
    match s.blobs.lookup d with
    | some b => ({ s with blobs := s.blobs.erase d }, .removeBlobOld b)
    | none => (s, .done)
  | .removeBlobOld b => (s.fetchSub (blobBucket b).1 (blobBucket b).2, .done)
  | .start (.insertManifest d m) =>
    ({ s with manifests := s.manifests.insert d m },
      .insertManifestAdd m.content.length
        ((s.manifests.lookup d).elim 0 fun o => (o.content.length : BitVec 64)))
  | .insertManifestAdd new old => (s.fetchAdd .manifestMemory (new - old), .done)
  | .start (.removeManifest d) =>
    match s.manifests.lookup d with
    | some m => ({ s with manifests := s.manifests.erase d }, .removeManifestOld m)
    | none => (s, .done)
  | .removeManifestOld m => (s.fetchSub .manifestMemory m.content.length, .done)
  | .start (.insertRedis k v) =>
    ({ s with nextId := s.nextId + 1 }, .insertRedisCharge k (.inMemory v s.nextId s.now))
  | .insertRedisCharge k e =>
    (s.fetchAdd (redisValueBucket e).1 (redisValueBucket e).2, .insertRedisMap k e)
  | .insertRedisMap k e =>
    ({ s with redisEntries := s.redisEntries.insert k e },
      match s.redisEntries.lookup k with
      | some old => .insertRedisOld old
      | none => .insertRedisKey k)
  | .insertRedisOld old =>
    ((s.fetchSub (redisValueBucket old).1 (redisValueBucket old).2).spawnUnlink old, .done)
  | .insertRedisKey k => (s.fetchAdd .smallRedisMemory k.length, .done)
  | .start (.removeRedis k) =>
    match s.redisEntries.lookup k with
    | some v => ({ s with redisEntries := s.redisEntries.erase k }, .removeRedisValue k v)
    | none => (s, .done)
  | .removeRedisValue k v =>
    (s.fetchSub (redisValueBucket v).1 (redisValueBucket v).2, .removeRedisKey k v)
  | .removeRedisKey k v => ((s.fetchSub .smallRedisMemory k.length).spawnUnlink v, .done)
  | .done => (s, .done)

/-- The state and the calls made on it so far. -/
structure InFlight where
  state : State
  calls : List Call

inductive CallEvent where
  | start (op : Op)
  | step (i : ℕ)

def InFlight.step (s : InFlight) : CallEvent → Option InFlight
  | .start op => some { s with calls := s.calls ++ [.start op] }
  | .step i =>
    match s.calls[i]? with
    | none => none
    | some c => some ⟨(c.step s.state).1, s.calls.set i (c.step s.state).2⟩

/-- What the operation does when it runs without interleaving. -/
def Op.apply (s : State) : Op → State
  | .insertBlob d b => s.insertBlob d b
  | .removeBlob d => (s.removeBlob d).2
  | .insertManifest d m => s.insertManifest d m
  | .removeManifest d => (s.removeManifest d).2
  | .insertRedis k v => s.insertRedis k v
  | .removeRedis k => (s.removeRedis k).2

end Dockfoxprox
