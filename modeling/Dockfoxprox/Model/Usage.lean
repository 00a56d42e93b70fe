import Dockfoxprox.Model.State

/-! `recompute_usage` of `snapshot.rs`: the seven usage buckets and the oldest
touch times, counted from the live maps. -/

namespace Dockfoxprox

/-- The local accumulators of `recompute_usage`. -/
structure Recount where
  bytes : Usage
  oldestSmall : ℕ
  oldestLarge : ℕ
  oldestDisk : ℕ

namespace Recount

def u64Max : ℕ := 2 ^ 64 - 1

def init : Recount := ⟨fun _ => 0, u64Max, u64Max, u64Max⟩

def add (r : Recount) (b : Bucket) (n : ℕ) : Recount :=
  { r with bytes := Function.update r.bytes b (r.bytes b + n) }

def touchSmall (r : Recount) (t : ℕ) : Recount := { r with oldestSmall := min r.oldestSmall t }

def touchLarge (r : Recount) (t : ℕ) : Recount := { r with oldestLarge := min r.oldestLarge t }

def touchDisk (r : Recount) (t : ℕ) : Recount := { r with oldestDisk := min r.oldestDisk t }

def manifest (r : Recount) (_ : Digest) (m : Manifest) : Recount :=
  (r.add .manifestMemory m.content.length).touchSmall m.lastUsed

def blob (r : Recount) (_ : Digest) : Blob → Recount
  | .inMemory _ content _ t =>
    if content.length > memoryTierThreshold then
      (r.add .largeBlobMemory content.length).touchLarge t
    else (r.add .smallBlobMemory content.length).touchSmall t
  | .onDisk _ size _ t => (r.add .blobDisk size).touchDisk t

/-- The key always lives in memory, wherever the value sits. -/
def redis (r : Recount) (key : Bytes) (e : RedisEntry) : Recount :=
  let r := r.add .smallRedisMemory key.length
  match e with
  | .inMemory value _ t =>
    if value.length > memoryTierThreshold then
      (r.add .largeRedisMemory value.length).touchLarge t
    else (r.add .smallRedisMemory value.length).touchSmall t
  | .onDisk size _ t => (r.add .redisDisk size).touchDisk t

end Recount

/-- The three loops of `recompute_usage`. -/
def State.recount (s : State) : Recount :=
  s.redisEntries.foldl Recount.redis
    (s.blobs.foldl Recount.blob (s.manifests.foldl Recount.manifest Recount.init))

/-- What `recompute_usage` stores into the seven counters. -/
def State.recomputed (s : State) : Usage := s.recount.bytes

/-- Recompute all seven buckets and the oldest touch times; an empty pool
publishes `now`. -/
def State.recomputeUsage (s : State) : State :=
  let fallback := fun v => if v = Recount.u64Max then s.now else v
  { s with
    usage := s.recomputed
    metrics :=
      { s.metrics with
        oldestSmallMemoryTouchTime := fallback s.recount.oldestSmall
        oldestLargeMemoryTouchTime := fallback s.recount.oldestLarge
        oldestDiskTouchTime := fallback s.recount.oldestDisk } }

end Dockfoxprox
