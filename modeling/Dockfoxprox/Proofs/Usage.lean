import Dockfoxprox.Model.Usage
import Mathlib.Algebra.Group.Pi.Basic
import Mathlib.Algebra.Group.Pi.Lemmas

/-! The bytes of each bucket as a sum over the maps. Every operation moves the
charge of one entry, so all accounting results reduce to the two lemmas about
sums in `MapSum` and the equation `recomputed_eq`. -/

namespace Dockfoxprox

open MapSum

/-- One charge, as a vector over the buckets. -/
def charge (c : Bucket × ℕ) : Bucket → ℕ := Pi.single c.1 c.2

def manifestCharge (m : Manifest) : Bucket → ℕ := charge (.manifestMemory, m.content.length)

def blobCharge (b : Blob) : Bucket → ℕ := charge (blobBucket b)

/-- A Redis entry is charged for its value in the bucket of its tier and for its
key in the small pool. -/
def redisCharge (key : Bytes) (e : RedisEntry) : Bucket → ℕ :=
  charge (redisValueBucket e) + charge (.smallRedisMemory, key.length)

/-- The bytes the maps hold in each bucket. -/
def State.bytesIn (s : State) : Bucket → ℕ :=
  total (fun _ => manifestCharge) s.manifests + total (fun _ => blobCharge) s.blobs +
    total redisCharge s.redisEntries

/-- States whose configuration and maps tell the same. -/
structure State.SameMaps (s s' : State) : Prop where
  config : s'.config = s.config
  manifests : ∀ d, s'.manifests.lookup d = s.manifests.lookup d
  blobs : ∀ d, s'.blobs.lookup d = s.blobs.lookup d
  redis : ∀ key, s'.redisEntries.lookup key = s.redisEntries.lookup key

theorem State.SameMaps.bytesIn {s s' : State} (h : s.SameMaps s') : s'.bytesIn = s.bytesIn := by
  simp only [State.bytesIn, total_congr _ h.manifests, total_congr _ h.blobs, total_congr _ h.redis]

/-- A natural number of bytes in each bucket as the counters hold it. -/
def toUsage (f : Bucket → ℕ) : Usage := fun b => (f b : BitVec 64)

theorem toUsage_add (f g : Bucket → ℕ) : toUsage (f + g) = toUsage f + toUsage g := by
  funext b
  simp [toUsage]

@[simp] theorem toUsage_zero : toUsage 0 = 0 := by
  funext b
  simp [toUsage]

theorem toUsage_charge (b : Bucket) (n : ℕ) :
    toUsage (charge (b, n)) = Pi.single b (n : BitVec 64) := by
  funext c
  by_cases h : c = b
  · subst h; simp [toUsage, charge]
  · simp [toUsage, charge, h]

theorem update_add (u : Usage) (b : Bucket) (n : BitVec 64) :
    Function.update u b (u b + n) = u + Pi.single b n := by
  funext c
  by_cases h : c = b
  · subst h; simp
  · simp [h]

theorem update_sub (u : Usage) (b : Bucket) (n : BitVec 64) :
    Function.update u b (u b - n) = u - Pi.single b n := by
  funext c
  by_cases h : c = b
  · subst h; simp
  · simp [h]

theorem Recount.add_bytes (r : Recount) (b : Bucket) (n : ℕ) :
    (r.add b n).bytes = r.bytes + toUsage (charge (b, n)) := by
  rw [toUsage_charge]
  exact update_add r.bytes b n

theorem Recount.manifest_bytes (r : Recount) (d : Digest) (m : Manifest) :
    (r.manifest d m).bytes = r.bytes + toUsage (manifestCharge m) := r.add_bytes _ _

theorem Recount.blob_bytes (r : Recount) (d : Digest) (b : Blob) :
    (r.blob d b).bytes = r.bytes + toUsage (blobCharge b) := by
  cases b with
  | onDisk id size mt t => exact r.add_bytes _ _
  | inMemory id content mt t =>
    simp only [Recount.blob, blobCharge, blobBucket]
    split
    · exact r.add_bytes _ _
    · exact r.add_bytes _ _

theorem Recount.redis_bytes (r : Recount) (k : Bytes) (e : RedisEntry) :
    (r.redis k e).bytes = r.bytes + toUsage (redisCharge k e) := by
  have hk := r.add_bytes .smallRedisMemory k.length
  have hv (b : Bucket) (n : ℕ) : ((r.add .smallRedisMemory k.length).add b n).bytes =
      r.bytes + toUsage (charge (b, n) + charge (.smallRedisMemory, k.length)) := by
    rw [Recount.add_bytes, hk, toUsage_add, add_assoc, add_comm (toUsage (charge (b, n)))]
  cases e with
  | onDisk size id t => exact hv _ _
  | inMemory value id t =>
    simp only [Recount.redis, redisCharge, redisValueBucket]
    split
    · exact hv _ _
    · exact hv _ _

/-- A loop that adds one charge an entry adds their total. -/
theorem foldl_bytes {α β : Type} {f : Recount → α → β → Recount} {c : α → β → Bucket → ℕ}
    (hf : ∀ r k v, (f r k v).bytes = r.bytes + toUsage (c k v)) (m : DashMap α β) {r : Recount}
    {n : Bucket → ℕ} (hr : r.bytes = toUsage n) :
    (m.foldl f r).bytes = toUsage (n + total c m) := by
  refine foldl_total (R := fun (r : Recount) n => r.bytes = toUsage n) (fun r n k v h => ?_) m hr
  rw [hf, h, toUsage_add]

theorem recomputed_eq (s : State) : s.recomputed = toUsage s.bytesIn := by
  have h0 : Recount.init.bytes = toUsage 0 := rfl
  have hm := foldl_bytes Recount.manifest_bytes s.manifests h0
  have hb := foldl_bytes Recount.blob_bytes s.blobs hm
  have hr := foldl_bytes Recount.redis_bytes s.redisEntries hb
  rw [zero_add] at hr
  exact hr

@[simp] theorem fetchAdd_usage (s : State) (b : Bucket) (n : BitVec 64) :
    (s.fetchAdd b n).usage = s.usage + Pi.single b n := update_add s.usage b n

@[simp] theorem fetchSub_usage (s : State) (b : Bucket) (n : BitVec 64) :
    (s.fetchSub b n).usage = s.usage - Pi.single b n := update_sub s.usage b n

section
variable (s : State)

/-! Each map operation, as an equation between the bytes before and after it. -/

theorem bytesIn_insert_blob (d : Digest) (b : Blob) :
    State.bytesIn { s with blobs := s.blobs.insert d b } +
      share (fun _ => blobCharge) s.blobs d = s.bytesIn + blobCharge b := by
  have h := total_insert_add_share (fun _ => blobCharge) s.blobs d b
  calc _ = total (fun _ => manifestCharge) s.manifests +
        (total (fun _ => blobCharge) (s.blobs.insert d b) +
          share (fun _ => blobCharge) s.blobs d) + total redisCharge s.redisEntries := by
        simp only [State.bytesIn]; ac_rfl
    _ = _ := by rw [h]; simp only [State.bytesIn]; ac_rfl

theorem bytesIn_erase_blob (d : Digest) :
    s.bytesIn = share (fun _ => blobCharge) s.blobs d +
      State.bytesIn { s with blobs := s.blobs.erase d } := by
  have h := total_eq_erase (fun _ => blobCharge) s.blobs d
  simp only [State.bytesIn]
  rw [h]
  ac_rfl

theorem bytesIn_insert_manifest (d : Digest) (m : Manifest) :
    State.bytesIn { s with manifests := s.manifests.insert d m } +
      share (fun _ => manifestCharge) s.manifests d = s.bytesIn + manifestCharge m := by
  have h := total_insert_add_share (fun _ => manifestCharge) s.manifests d m
  calc _ = (total (fun _ => manifestCharge) (s.manifests.insert d m) +
        share (fun _ => manifestCharge) s.manifests d) +
          total (fun _ => blobCharge) s.blobs + total redisCharge s.redisEntries := by
        simp only [State.bytesIn]; ac_rfl
    _ = _ := by rw [h]; simp only [State.bytesIn]; ac_rfl

theorem bytesIn_erase_manifest (d : Digest) :
    s.bytesIn = share (fun _ => manifestCharge) s.manifests d +
      State.bytesIn { s with manifests := s.manifests.erase d } := by
  have h := total_eq_erase (fun _ => manifestCharge) s.manifests d
  simp only [State.bytesIn]
  rw [h]
  ac_rfl

theorem bytesIn_insert_redis (k : Bytes) (e : RedisEntry) :
    State.bytesIn { s with redisEntries := s.redisEntries.insert k e } +
      share redisCharge s.redisEntries k = s.bytesIn + redisCharge k e := by
  have h := total_insert_add_share redisCharge s.redisEntries k e
  simp only [State.bytesIn]
  rw [add_assoc, h]
  ac_rfl

theorem bytesIn_erase_redis (k : Bytes) :
    s.bytesIn = share redisCharge s.redisEntries k +
      State.bytesIn { s with redisEntries := s.redisEntries.erase k } := by
  have h := total_eq_erase redisCharge s.redisEntries k
  simp only [State.bytesIn]
  rw [h]
  ac_rfl

end

end Dockfoxprox
