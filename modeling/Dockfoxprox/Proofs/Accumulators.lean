import Dockfoxprox.Proofs.Agreement

/-! The accumulators of a pass that runs alone. Each step moves them and the bytes in the
maps by the same amounts, except that a dropped Redis key and a swept blob are never
credited. -/

namespace Dockfoxprox

open MapSum

def grand (f : Bucket → ℕ) : ℕ :=
  f .manifestMemory + f .smallBlobMemory + f .largeBlobMemory + f .smallRedisMemory +
    f .largeRedisMemory + f .blobDisk + f .redisDisk

theorem grand_add (f g : Bucket → ℕ) : grand (f + g) = grand f + grand g := by
  simp only [grand, Pi.add_apply]
  omega

@[simp] theorem grand_charge (c : Bucket × ℕ) : grand (charge c) = c.2 := by
  obtain ⟨b, n⟩ := c
  cases b <;> simp [grand, charge]

theorem charge_add (b : Bucket) (m n : ℕ) : charge (b, m + n) = charge (b, m) + charge (b, n) :=
  Pi.single_add (f := fun _ => ℕ) b m n

theorem le_grand (f : Bucket → ℕ) (b : Bucket) : f b ≤ grand f := by
  cases b <;> simp only [grand] <;> omega

/-- Vectors one below the other are equal once their sums are. -/
theorem eq_of_grand_le {f g : Bucket → ℕ} (h : ∀ b, f b ≤ g b) (hg : grand g ≤ grand f) :
    f = g := by
  have h1 := h .manifestMemory
  have h2 := h .smallBlobMemory
  have h3 := h .largeBlobMemory
  have h4 := h .smallRedisMemory
  have h5 := h .largeRedisMemory
  have h6 := h .blobDisk
  have h7 := h .redisDisk
  unfold grand at hg
  funext b
  cases b <;> omega

theorem grand_mono {f g : Bucket → ℕ} (h : ∀ b, f b ≤ g b) : grand f ≤ grand g := by
  have h1 := h .manifestMemory
  have h2 := h .smallBlobMemory
  have h3 := h .largeBlobMemory
  have h4 := h .smallRedisMemory
  have h5 := h .largeRedisMemory
  have h6 := h .blobDisk
  have h7 := h .redisDisk
  unfold grand
  omega

namespace Act

/-- The bytes a Redis spill moves past the counters. -/
def spilled : Act → ℕ
  | .moveRedis _ size _ _ => size
  | _ => 0

variable {a : Act} {s : State}

theorem bytesIn_apply : (a.apply s).bytesIn = total (fun _ => manifestCharge)
    (a.onManifests s.manifests) + total (fun _ => blobCharge) (a.onBlobs s.blobs) +
      total redisCharge (a.onRedis s.redisEntries) := by
  simp only [State.bytesIn, apply_manifests, apply_blobs, apply_redisEntries]

theorem bytesIn_inert (h : a.inert) : (a.apply s).bytesIn = s.bytesIn := by
  rw [bytesIn_apply, onManifests_inert h, onBlobs_inert h, onRedis_inert h]
  rfl

theorem bytesIn_dropBlob {d : Digest} {b : Blob} (h : s.blobs.lookup d = some b) :
    s.bytesIn = blobCharge b + ((Act.dropBlob d).apply s).bytesIn := by
  have he := bytesIn_erase_blob s d
  rw [share, h, Option.elim_some] at he
  rw [bytesIn_apply]
  exact he

theorem bytesIn_moveBlob {d : Digest} {b b' : Blob} (h : s.blobs.lookup d = some b) :
    ((Act.moveBlob d b').apply s).bytesIn + blobCharge b = s.bytesIn + blobCharge b' := by
  have he := bytesIn_insert_blob s d b'
  rw [share, h, Option.elim_some] at he
  rw [bytesIn_apply]
  exact he

theorem bytesIn_dropManifest {d : Digest} {m : Manifest} (h : s.manifests.lookup d = some m) :
    s.bytesIn = manifestCharge m + ((Act.dropManifest d).apply s).bytesIn := by
  have he := bytesIn_erase_manifest s d
  rw [share, h, Option.elim_some] at he
  rw [bytesIn_apply]
  exact he

theorem bytesIn_dropRedis {k : Bytes} {e : RedisEntry} (h : s.redisEntries.lookup k = some e) :
    s.bytesIn = redisCharge k e + ((Act.dropRedis k).apply s).bytesIn := by
  have he := bytesIn_erase_redis s k
  rw [share, h, Option.elim_some] at he
  rw [bytesIn_apply]
  exact he

/-! Every entry is counted in its bucket. -/

theorem manifest_le {d : Digest} {m : Manifest} (h : s.manifests.lookup d = some m) :
    m.content.length ≤ s.bytesIn .manifestMemory := by
  rw [bytesIn_dropManifest h]
  simp [manifestCharge, charge]

theorem blob_le {d : Digest} {b : Blob} (h : s.blobs.lookup d = some b) :
    (blobBucket b).2 ≤ s.bytesIn (blobBucket b).1 := by
  rw [bytesIn_dropBlob h]
  simp [blobCharge, charge]

theorem redis_le {k : Bytes} {e : RedisEntry} (h : s.redisEntries.lookup k = some e) :
    (redisValueBucket e).2 ≤ s.bytesIn (redisValueBucket e).1 := by
  rw [bytesIn_dropRedis h, redisCharge, add_assoc]
  simp [charge]

/-- A Redis spill moves the value to its new bucket; the key is charged as before. -/
theorem bytesIn_moveRedis {k : Bytes} {e : RedisEntry} {size t id : ℕ}
    (h : s.redisEntries.lookup k = some e) :
    ((Act.moveRedis k size t id).apply s).bytesIn + charge (redisValueBucket e) =
      s.bytesIn + charge (.redisDisk, size) := by
  have he := bytesIn_insert_redis s k (.onDisk size id t)
  rw [share, h, Option.elim_some] at he
  simp only [redisCharge, ← add_assoc] at he
  have he' := add_right_cancel he
  rw [bytesIn_apply]
  exact he'

theorem bytesIn_markEvicted (d : Digest) : ((Act.markEvicted d).apply s).bytesIn = s.bytesIn := by
  rw [bytesIn_apply]
  simp only [onManifests]
  cases h : s.manifests.lookup d with
  | none => rfl
  | some m =>
    have he := bytesIn_insert_manifest s d { m with evicted := true }
    rw [share, h, Option.elim_some] at he
    exact add_right_cancel he

end Act

namespace Pass

variable {fromSlice : Bytes → Option Json} {s s' : State} {p p' : Pass} {c : Choice} {a : Act}

/-- The pass is at an entry of its sweep. -/
def sweeping : Phase → Bool
  | .sweep _ => true
  | _ => false

/-- The bytes a step takes out of the maps and not out of the accumulators: the key of a
dropped Redis entry, and a blob removed by the sweep. -/
def missed (s : State) (p : Pass) : Act → Bucket → ℕ
  | .dropRedis key => charge (.smallRedisMemory, key.length)
  | .dropBlob d => if sweeping p.phase then share (fun _ => blobCharge) s.blobs d else 0
  | _ => 0

/-- What one step books: the bytes that leave a bucket of the maps leave its accumulator,
and those that go to another bucket go to its accumulator too. -/
inductive Booked (s : State) (p : Pass) (a : Act) (p' : Pass) : Prop
  | same (hacc : p'.acc = p.acc) (hB : s.bytesIn = missed s p a + (a.apply s).bytesIn)
      (hsp : a.spilled = 0)
  | credit {b n} (hB : s.bytesIn = charge (b, n) + missed s p a + (a.apply s).bytesIn)
      (hacc : p'.acc = (p.credit b n).acc) (hb : b ≠ .largeRedisMemory) (hsp : a.spilled = 0)
  | move {b b' n} (hbb : b ≠ b')
      (hB : (a.apply s).bytesIn + charge (b, n) = s.bytesIn + charge (b', n))
      (hm : missed s p a = 0) (hacc : p'.acc = ((p.credit b n).debit b' n).acc)
      (hb : b' ≠ .largeRedisMemory) (hsp : a.spilled = charge (b, n) .largeRedisMemory)

theorem Booked.inert (ha : a.inert) (hacc : p'.acc = p.acc) : Booked s p a p' := by
  refine .same hacc ?_ ?_
  · rw [Act.bytesIn_inert ha]
    cases a <;> first | exact (zero_add _).symm | cases ha
  · cases a <;> first | rfl | cases ha

/-- How one step moves the accumulators. -/
structure Accounted (s : State) (p : Pass) (a : Act) (p' : Pass) : Prop where
  balance : p'.acc + s.bytesIn = p.acc + (a.apply s).bytesIn + missed s p a
  shrink : grand p'.acc ≤ grand p.acc
  large : p'.acc .largeRedisMemory + a.spilled = p.acc .largeRedisMemory

theorem acc_credit {b : Bucket} {n : ℕ} (h : n ≤ p.acc b) :
    (p.credit b n).acc + charge (b, n) = p.acc := by
  funext b'
  by_cases hb : b' = b
  · subst hb
    simp [charge, h]
  · simp [charge, hb]

theorem acc_debit {b : Bucket} {n : ℕ} (h : p.acc b + n < 2 ^ 64) :
    (p.debit b n).acc = p.acc + charge (b, n) := by
  funext b'
  by_cases hb : b' = b
  · subst hb
    simp only [debit_acc, Function.update_self, charge, Pi.add_apply, Pi.single_eq_same]
    omega
  · simp [charge, hb]

theorem Accounted.same (hacc : p'.acc = p.acc)
    (hB : s.bytesIn = missed s p a + (a.apply s).bytesIn) (hsp : a.spilled = 0) :
    Accounted s p a p' := by
  refine ⟨?_, by rw [hacc], by rw [hacc, hsp, add_zero]⟩
  rw [hacc, hB]
  ac_rfl

theorem Accounted.credit {b : Bucket} {n : ℕ} (hle : s.bytesIn ≤ p.acc)
    (hB : s.bytesIn = charge (b, n) + missed s p a + (a.apply s).bytesIn)
    (hacc : p'.acc = (p.credit b n).acc) (hb : b ≠ .largeRedisMemory) (hsp : a.spilled = 0) :
    Accounted s p a p' := by
  have hn : n ≤ p.acc b := by
    have h := hle b
    rw [hB] at h
    simp only [charge, Pi.add_apply, Pi.single_eq_same] at h
    omega
  have h := acc_credit hn
  rw [← hacc] at h
  refine ⟨?_, ?_, ?_⟩
  · rw [hB, ← h]
    ac_rfl
  · rw [← h, grand_add]
    omega
  · rw [← h, hsp]
    simp [charge, hb.symm]

theorem Accounted.move {b b' : Bucket} {n : ℕ} (hle : s.bytesIn ≤ p.acc)
    (hfit : grand p.acc < 2 ^ 64) (hbb : b ≠ b')
    (hB : (a.apply s).bytesIn + charge (b, n) = s.bytesIn + charge (b', n))
    (hm : missed s p a = 0) (hacc : p'.acc = ((p.credit b n).debit b' n).acc)
    (hb : b' ≠ .largeRedisMemory) (hsp : a.spilled = charge (b, n) .largeRedisMemory) :
    Accounted s p a p' := by
  have hn : n ≤ p.acc b := by
    have h := congrFun hB b
    have h' : s.bytesIn b ≤ p.acc b := hle b
    simp only [charge, Pi.add_apply, Pi.single_eq_same, Pi.single_eq_of_ne hbb] at h
    omega
  have hpair : p.acc b + p.acc b' ≤ grand p.acc := by
    cases b <;> cases b' <;> first | exact absurd rfl hbb | (simp only [grand]; omega)
  have hroom : (p.credit b n).acc b' + n < 2 ^ 64 := by
    simp only [credit_acc, Function.update_of_ne hbb.symm]
    omega
  have h : p'.acc + charge (b, n) = p.acc + charge (b', n) := by
    rw [hacc, acc_debit hroom, add_right_comm, acc_credit hn]
  refine ⟨?_, ?_, ?_⟩
  · have h1 : p'.acc + s.bytesIn + (charge (b, n) + charge (b', n)) =
        p.acc + (a.apply s).bytesIn + (charge (b, n) + charge (b', n)) := by
      calc p'.acc + s.bytesIn + (charge (b, n) + charge (b', n))
          = (p'.acc + charge (b, n)) + (s.bytesIn + charge (b', n)) := by ac_rfl
        _ = (p.acc + charge (b', n)) + ((a.apply s).bytesIn + charge (b, n)) := by rw [h, hB]
        _ = _ := by ac_rfl
    rw [hm, add_zero]
    exact add_right_cancel h1
  · have h' := congrArg grand h
    rw [grand_add, grand_add, grand_charge, grand_charge] at h'
    omega
  · have h' := congrFun h .largeRedisMemory
    rw [hsp]
    simpa [charge, hb.symm] using h'

theorem bucket_of_describes {pool : Pool} {b : Bucket} {size : ℕ} {e : RedisEntry}
    (hb : DropsFrom pool b) (hd : Describes pool size e) : redisValueBucket e = (b, size) := by
  rcases hb with ⟨rfl, rfl⟩ | ⟨rfl, rfl⟩
  · cases e with
    | onDisk n id t => exact False.elim hd
    | inMemory value id t =>
      obtain ⟨rfl, hle⟩ := hd
      simp [redisValueBucket, hle]
  · cases e with
    | onDisk n id t => exact congrArg _ hd
    | inMemory value id t => exact False.elim hd

theorem largeBlob_charge {id : ℕ} {content : Bytes} {mt : String} {t : ℕ}
    (h : memoryTierThreshold < content.length) :
    blobCharge (.inMemory id content mt t) = charge (.largeBlobMemory, content.length) := by
  simp [blobCharge, blobBucket, h]

theorem blobBucket_ne (b : Blob) : (blobBucket b).1 ≠ .largeRedisMemory := by
  cases b with
  | onDisk id size mt t => simp [blobBucket]
  | inMemory id content mt t =>
    simp only [blobBucket]
    split <;> simp

theorem Step.booked (h : Agrees s p) (hs : Step fromSlice s p c a p') : Booked s p a p' := by
  have hholds := h.holds
  cases hs with
  | begin hp => rw [hp] at hholds; exact hholds.elim
  | scanBlobs hp => rw [hp] at hholds; exact hholds.elim
  | scanManifests hp => rw [hp] at hholds; exact hholds.elim
  | scanRedis hp => rw [hp] at hholds; exact hholds.elim
  | @dropRedis hp pool b key t size rest e hb ha hpop he =>
    have hbucket := bucket_of_describes hb (h.candidates _ _ _ _ (popOldest_mem hpop).1 e he)
    refine .credit ?_ rfl ?_ rfl
    · have hB := Act.bytesIn_dropRedis he
      rw [redisCharge, hbucket] at hB
      exact hB
    · rcases hb with ⟨-, rfl⟩ | ⟨-, rfl⟩ <;> decide
  | @dropManifest hp pool t d rest m hl ha hpop hm =>
    refine .credit ?_ rfl (by decide) rfl
    rw [Act.bytesIn_dropManifest hm]
    exact (congrArg (· + _) (add_zero (manifestCharge m))).symm
  | spillManifest hp ha hpop hm =>
    exact .same rfl (by rw [Act.bytesIn_markEvicted]; exact (zero_add _).symm) rfl
  | spillInsert hp =>
    rw [hp] at hholds
    refine .move (by decide) ?_ rfl rfl (by decide) (by simp [Act.spilled, charge])
    rw [← largeBlob_charge hholds.2]
    exact Act.bytesIn_moveBlob hholds.1
  | @redisInsert key size t value id hp =>
    rw [hp] at hholds
    obtain ⟨⟨t', hl⟩, rfl, hlarge⟩ := hholds
    refine .move (by decide) ?_ rfl rfl (by decide) (by simp [Act.spilled, charge])
    have hbucket : redisValueBucket (.inMemory value id t') = (.largeRedisMemory, value.length) := by
      simp [redisValueBucket, hlarge]
    rw [← hbucket]
    exact Act.bytesIn_moveRedis hl
  | @cascadeDrop old r todo bb blob hp hb hr ht hl =>
    refine .credit ?_ rfl (blobBucket_ne blob) rfl
    have hm : missed s p (.dropBlob r) = 0 := by simp [missed, hp, sweeping]
    rw [hm, add_zero]
    exact Act.bytesIn_dropBlob hl
  | @sweepDrop todo r bb blob hp hd hb hr ht hl =>
    refine .same rfl ?_ rfl
    have hm : missed s p (.dropBlob r) = blobCharge blob := by simp [missed, hp, sweeping, share, hl]
    rw [hm]
    exact Act.bytesIn_dropBlob hl
  | store hp => exact .same rfl (zero_add _).symm rfl
  | writeFailed hp hw => exact .inert (Act.inert_leftover ..) rfl
  | cascadeUnlink hp => exact .inert (Act.inert_unlink ..) rfl
  | sweepUnlink hp => exact .inert (Act.inert_unlink ..) rfl
  | _ => exact .inert rfl rfl

/-- The step lemma of the accumulators. -/
theorem Step.accounted (h : Agrees s p) (hle : s.bytesIn ≤ p.acc) (hfit : grand p.acc < 2 ^ 64)
    (hs : Step fromSlice s p c a p') : Accounted s p a p' := by
  cases hs.booked h with
  | same hacc hB hsp => exact .same hacc hB hsp
  | credit hB hacc hb hsp => exact .credit hle hB hacc hb hsp
  | move hbb hB hm hacc hb hsp => exact .move hle hfit hbb hB hm hacc hb hsp

/-- The accumulators of a pass that began in `s₀` count everything in the maps, and never
more than there was. -/
structure Ledger (s₀ s : State) (p : Pass) : Prop where
  bound : grand p.acc ≤ grand s₀.bytesIn
  le : ∀ b, s.bytesIn b ≤ p.acc b

theorem Ledger.step {s₀ : State} (h : Ledger s₀ s p) (hfit : grand s₀.bytesIn < 2 ^ 64)
    (hag : Agrees s p) (hs : Step fromSlice s p c a p') : Ledger s₀ (a.apply s) p' := by
  have ha := hs.accounted hag h.le (h.bound.trans_lt hfit)
  refine ⟨ha.shrink.trans h.bound, fun b => ?_⟩
  have hb := congrFun ha.balance b
  have hle := h.le b
  simp only [Pi.add_apply] at hb
  omega

theorem Ledger.start (hfit : grand s.bytesIn < 2 ^ 64) :
    Ledger s (Act.countRun.apply s) (scanned fromSlice s) := by
  have hacc (b : Bucket) : (scanned fromSlice s).acc b = s.bytesIn b :=
    (scanned_acc s b).trans (Nat.mod_eq_of_lt ((le_grand s.bytesIn b).trans_lt hfit))
  exact ⟨(congrArg grand (funext hacc)).le, fun b => (hacc b).ge⟩

end Pass

end Dockfoxprox
