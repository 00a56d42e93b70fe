import Dockfoxprox.Model.EvictLoop
import Dockfoxprox.Proofs.Budgets
import Dockfoxprox.Proofs.EvictUsage
import Dockfoxprox.Proofs.Flush
import Mathlib.Algebra.Order.BigOperators.Group.List
import Mathlib.Algebra.Order.Group.Nat

/-! The loop around the eviction passes. The counters may run ahead of the maps, because a pass
leaves the keys of dropped Redis entries and the blobs it swept in them, but never behind once no
insert is under way. So when the loop waits with no permit, what it read is at least what the maps
hold, although it read the counters one after the other while removals went on. -/

namespace Dockfoxprox

open MapSum Machine

/-! Removals. -/

/-- Everything in memory was there before, and no bucket has grown. -/
structure State.Shrinks (s s' : State) : Prop where
  config : s'.config = s.config
  manifests : ∀ d m', s'.manifests.lookup d = some m' →
    ∃ m, s.manifests.lookup d = some m ∧ m'.content = m.content
  blobs : ∀ d id content mt t', s'.blobs.lookup d = some (.inMemory id content mt t') →
    ∃ t, s.blobs.lookup d = some (.inMemory id content mt t)
  redis : ∀ key value id t', s'.redisEntries.lookup key = some (.inMemory value id t') →
    ∃ t, s.redisEntries.lookup key = some (.inMemory value id t)
  bytes : s'.bytesIn ≤ s.bytesIn

/-- The memory limits are kept, or there is nothing left that a pass could take. -/
structure State.MemoryKept (fromSlice : Bytes → Option Json) (s : State) : Prop where
  small : Pool.smallMemory.usage s.bytesIn ≤ s.config.smallMemoryLimit ∨ ∀ x, ¬ s.InSmallPool x
  large : Pool.largeMemory.usage s.bytesIn ≤ s.config.memoryLimit ∨
    (∀ x, ¬ s.InLargePool x) ∧ ∀ d id content mt t,
      s.blobs.lookup d = some (.inMemory id content mt t) → memoryTierThreshold < content.length →
        ∀ dm m, s.manifests.lookup dm = some m → d ∉ referencedDigests fromSlice m.content

namespace State

variable {s s' : State} {fromSlice : Bytes → Option Json}

theorem Shrinks.of_maps (hc : s'.config = s.config) (hm : s'.manifests = s.manifests)
    (hb : s'.blobs = s.blobs) (hr : s'.redisEntries = s.redisEntries) : s.Shrinks s' where
  config := hc
  manifests d m' h := ⟨m', hm ▸ h, rfl⟩
  blobs d id content mt t' h := ⟨t', hb ▸ h⟩
  redis key value id t' h := ⟨t', hr ▸ h⟩
  bytes := by simp only [bytesIn, hm, hb, hr, le_refl]

theorem Shrinks.inSmallPool (h : s.Shrinks s') {x : Item} (hx : s'.InSmallPool x) :
    s.InSmallPool x := by
  cases x with
  | manifest d =>
    obtain ⟨m', hm'⟩ := hx
    obtain ⟨m, hm, -⟩ := h.manifests d m' hm'
    exact ⟨m, hm⟩
  | redis key =>
    obtain ⟨value, id, t', hr, hlen⟩ := hx
    obtain ⟨t, ht⟩ := h.redis key value id t' hr
    exact ⟨value, id, t, ht, hlen⟩

theorem Shrinks.inLargePool (h : s.Shrinks s') {x : Item} (hx : s'.InLargePool x) :
    s.InLargePool x := by
  cases x with
  | manifest d => exact hx
  | redis key =>
    obtain ⟨value, id, t', hr, hlen⟩ := hx
    obtain ⟨t, ht⟩ := h.redis key value id t' hr
    exact ⟨value, id, t, ht, hlen⟩

theorem Shrinks.erase_manifest (d : Digest) :
    s.Shrinks { s with manifests := s.manifests.erase d } where
  config := rfl
  manifests d' m' h := by
    rw [lookup_erase_apply, Option.ite_none_left_eq_some] at h
    exact ⟨m', h.2, rfl⟩
  blobs d id content mt t' h := ⟨t', h⟩
  redis key value id t' h := ⟨t', h⟩
  bytes := by
    rw [bytesIn_erase_manifest s d]
    exact fun b => Nat.le_add_left ..

theorem Shrinks.erase_blob (d : Digest) : s.Shrinks { s with blobs := s.blobs.erase d } where
  config := rfl
  manifests d m' h := ⟨m', h, rfl⟩
  blobs d' id content mt t' h := by
    rw [lookup_erase_apply, Option.ite_none_left_eq_some] at h
    exact ⟨t', h.2⟩
  redis key value id t' h := ⟨t', h⟩
  bytes := by
    rw [bytesIn_erase_blob s d]
    exact fun b => Nat.le_add_left ..

theorem Shrinks.erase_redis (key : Bytes) :
    s.Shrinks { s with redisEntries := s.redisEntries.erase key } where
  config := rfl
  manifests d m' h := ⟨m', h, rfl⟩
  blobs d id content mt t' h := ⟨t', h⟩
  redis key' value id t' h := by
    rw [lookup_erase_apply, Option.ite_none_left_eq_some] at h
    exact ⟨t', h.2⟩
  bytes := by
    rw [bytesIn_erase_redis s key]
    exact fun b => Nat.le_add_left ..

theorem flushRedis_usage (s : State) (b : Bucket) :
    s.flushRedis.usage b = if b ∈ flushedBuckets then 0 else s.usage b := by
  simp [flushRedis, flushedBuckets]

theorem manifestMemory_not_flushed : Bucket.manifestMemory ∉ flushedBuckets := by decide

theorem blobBucket_not_flushed (v : Blob) : (blobBucket v).1 ∉ flushedBuckets := by
  cases v with
  | onDisk => simp [blobBucket, flushedBuckets]
  | inMemory id content mt t =>
    simp only [blobBucket]
    split <;> simp [flushedBuckets]

theorem redisValueBucket_flushed (e : RedisEntry) : (redisValueBucket e).1 ∈ flushedBuckets := by
  cases e with
  | onDisk => simp [redisValueBucket, flushedBuckets]
  | inMemory value id t =>
    simp only [redisValueBucket]
    split <;> simp [flushedBuckets]

/-- The buckets FLUSHALL sets to zero are those of the Redis entries. -/
theorem flushRedis_bytesIn (s : State) (b : Bucket) :
    s.flushRedis.bytesIn b = if b ∈ flushedBuckets then 0 else s.bytesIn b := by
  have hzero {α β : Type} {f : α → β → Bucket → ℕ} (h : ∀ k v, f k v b = 0) (m : DashMap α β) :
      total f m b = 0 := by
    rw [total_apply]
    simp [h, total]
  have hone (c : Bucket × ℕ) (h : b ≠ c.1) : charge c b = 0 := Pi.single_eq_of_ne h _
  have hflush : s.flushRedis.bytesIn b =
      total (fun _ => manifestCharge) s.manifests b + total (fun _ => blobCharge) s.blobs b := by
    simp [bytesIn, flushRedis, total]
  rw [hflush]
  split
  · rename_i hb
    have hm (_ : Digest) (m : Manifest) : manifestCharge m b = 0 :=
      hone _ fun (h : b = .manifestMemory) => manifestMemory_not_flushed (h ▸ hb)
    have hbl (_ : Digest) (v : Blob) : blobCharge v b = 0 :=
      hone _ fun h => blobBucket_not_flushed v (h ▸ hb)
    rw [hzero hm, hzero hbl]
  · rename_i hb
    have hr (k : Bytes) (e : RedisEntry) : redisCharge k e b = 0 := by
      have hvalue : charge (redisValueBucket e) b = 0 :=
        hone _ fun h => hb (h ▸ redisValueBucket_flushed e)
      have hkey : charge (.smallRedisMemory, k.length) b = 0 :=
        hone _ fun h => hb (h ▸ List.mem_cons_self)
      rw [redisCharge, Pi.add_apply, hvalue, hkey]
    simp only [bytesIn, Pi.add_apply, hzero hr, add_zero]

theorem Shrinks.flushRedis : s.Shrinks s.flushRedis where
  config := rfl
  manifests d m' h := ⟨m', h, rfl⟩
  blobs d id content mt t' h := ⟨t', h⟩
  redis key value id t' h := by cases h
  bytes := by
    intro b
    rw [flushRedis_bytesIn]
    split
    · exact Nat.zero_le _
    · exact le_refl _

theorem bytesIn_hit (s : State) (h : Hit) : (s.hit h).bytesIn = s.bytesIn := by
  cases h with
  | manifest d =>
    simp only [hit]
    cases hl : s.manifests.lookup d with
    | none => rfl
    | some m =>
      have hb := bytesIn_insert_manifest s d { m with lastUsed := s.now, evicted := false }
      rw [share, hl, Option.elim_some] at hb
      exact add_right_cancel hb
  | blob d =>
    simp only [hit]
    cases hl : s.blobs.lookup d with
    | none => rfl
    | some b =>
      have hb := bytesIn_insert_blob s d (b.touch s.now)
      have hsame : blobCharge (b.touch s.now) = blobCharge b := by cases b <;> rfl
      rw [share, hl, Option.elim_some, hsame] at hb
      exact add_right_cancel hb
  | redis key =>
    simp only [hit]
    split
    · rename_i value id t hl
      exact bytesIn_touch hl
    · rfl

theorem hit_usage (s : State) (h : Hit) : (s.hit h).usage = s.usage := by
  cases h with
  | manifest d =>
    simp only [hit]
    split <;> rfl
  | blob d =>
    simp only [hit]
    split <;> rfl
  | redis key =>
    simp only [hit]
    split <;> rfl

theorem Shrinks.hit (h : Hit) : s.Shrinks (s.hit h) := by
  have hbytes : (s.hit h).bytesIn ≤ s.bytesIn := (bytesIn_hit s h).le
  cases h with
  | manifest d =>
    simp only [State.hit] at hbytes ⊢
    cases hl : s.manifests.lookup d with
    | none => exact .of_maps rfl rfl rfl rfl
    | some m =>
      rw [hl] at hbytes
      refine ⟨rfl, fun d' m' hm' => ?_, fun d id content mt t' h => ⟨t', h⟩,
        fun key value id t' h => ⟨t', h⟩, hbytes⟩
      simp only [lookup_insert_apply] at hm'
      split at hm'
      · rename_i hd
        obtain rfl := Option.some.inj hm'
        exact ⟨m, hd ▸ hl, rfl⟩
      · exact ⟨m', hm', rfl⟩
  | blob d =>
    simp only [State.hit] at hbytes ⊢
    cases hl : s.blobs.lookup d with
    | none => exact .of_maps rfl rfl rfl rfl
    | some b =>
      rw [hl] at hbytes
      refine ⟨rfl, fun d' m' hm' => ⟨m', hm', rfl⟩, fun d' id content mt t' hb' => ?_,
        fun key value id t' h => ⟨t', h⟩, hbytes⟩
      simp only [lookup_insert_apply] at hb'
      split at hb'
      · rename_i hd
        cases b with
        | onDisk => cases hb'
        | inMemory id' content' mt' t =>
          cases hb'
          exact ⟨t, hd ▸ hl⟩
      · exact ⟨t', hb'⟩
  | redis key =>
    simp only [State.hit] at hbytes ⊢
    split at hbytes
    · rename_i value id t hl
      refine ⟨rfl, fun d' m' hm' => ⟨m', hm', rfl⟩, fun d id content mt t' h => ⟨t', h⟩,
        fun key' value' id' t' he => ?_, hbytes⟩
      simp only [lookup_insert_apply] at he
      split at he
      · rename_i hk
        cases he
        exact ⟨t, hk ▸ hl⟩
      · exact ⟨t', he⟩
    · exact .of_maps rfl rfl rfl rfl

theorem MemoryKept.shrinks (h : s.MemoryKept fromSlice) (hs : s.Shrinks s') :
    s'.MemoryKept fromSlice where
  small := by
    rw [hs.config]
    exact h.small.imp ((Pool.usage_mono _ hs.bytes).trans ·)
      fun hnone x hx => hnone x (hs.inSmallPool hx)
  large := by
    rw [hs.config]
    refine h.large.imp ((Pool.usage_mono _ hs.bytes).trans ·) fun ⟨hnone, hfree⟩ =>
      ⟨fun x hx => hnone x (hs.inLargePool hx), fun d id content mt t' hb hlen dm m' hm' => ?_⟩
    obtain ⟨t, ht⟩ := hs.blobs d id content mt t' hb
    obtain ⟨m, hm, hcontent⟩ := hs.manifests dm m' hm'
    rw [hcontent]
    exact hfree d id content mt t ht hlen dm m hm

/-- What a pass reached is below the limits. -/
theorem MemoryKept.of_met (hsmall : s.SmallBudgetMet) (hlarge : s.MemoryBudgetMet fromSlice) :
    s.MemoryKept fromSlice where
  small := hsmall.imp_left fun h => h.trans (Nat.sub_le ..)
  large := hlarge.imp_left fun h => h.trans (Nat.sub_le ..)

end State

/-! A pass whose counters begin ahead of the maps. -/

namespace Pass

variable {fromSlice : Bytes → Option Json} {s₀ s s' : State} {p p' : Pass} {c : Choice} {a : Act}

/-- The manifest counter moves with the maps, and a counter that was stored is its accumulator. -/
structure Stores (s₀ s : State) (p : Pass) : Prop where
  left : ∀ l, p.phase = .store l → l <:+ finalStores
  manifest : s.usage .manifestMemory + toUsage s₀.bytesIn .manifestMemory =
    s₀.usage .manifestMemory + toUsage s.bytesIn .manifestMemory
  stored : ∀ b, stored p.phase b → s.usage b = (p.acc b : BitVec 64)

theorem Stores.step (h : Stores s₀ s p) (hag : Agrees s p) (hs : Step fromSlice s p c a p') :
    Stores s₀ (a.apply s) p' := by
  rcases hs.stores with ⟨b, rest, hp, rfl, rfl⟩ | ⟨hp, rfl, rfl⟩ | ⟨-, hnot, hleft, hst⟩
  · have hsub := h.left _ hp
    have hb : b ≠ .manifestMemory := by
      rintro rfl
      exact absurd (hsub.subset List.mem_cons_self) (by decide)
    refine ⟨fun l hl => ?_, ?_, fun b' hb' => ?_⟩
    · obtain rfl := Phase.store.inj hl
      exact (List.suffix_cons b rest).trans hsub
    · show Function.update s.usage b _ _ + _ = _
      rw [Function.update_of_ne hb.symm]
      exact h.manifest
    · simp only [Act.apply, goto_acc]
      by_cases heq : b' = b
      · rw [heq, Function.update_self]
      · rw [Function.update_of_ne heq]
        refine h.stored b' ?_
        simp only [goto_phase, Pass.stored, decide_eq_true_eq] at hb'
        rw [hp]
        simp only [Pass.stored, List.mem_cons, not_or, decide_eq_true_eq]
        exact ⟨hb'.1, heq, hb'.2⟩
  · refine ⟨(fun l hl => by cases hl), h.manifest, fun b hb => h.stored b ?_⟩
    simp only [goto_phase, Pass.stored, decide_eq_true_eq] at hb
    rw [hp]
    simpa only [Pass.stored, List.not_mem_nil, not_false_eq_true, and_true, decide_eq_true_eq]
  · refine ⟨fun l hl => by rw [hleft l hl], ?_, fun b hb =>
      absurd hb (by rw [hnot b]; exact Bool.false_ne_true)⟩
    have hskew : skew a.spilled .manifestMemory = 0 := by simp [skew, toUsage, charge]
    have hbal := congrFun (hs.usage_balance hag hst) .manifestMemory
    simp only [Pi.add_apply, hskew, add_zero] at hbal
    have hman := h.manifest
    rw [eq_sub_of_add_eq hman] at hbal
    rw [eq_sub_of_add_eq hbal]
    abel

theorem Stores.start (s : State) : Stores s (Act.countRun.apply s) (scanned fromSlice s) where
  left l hl := by cases hl
  manifest := rfl
  stored b hb := by cases hb

theorem run_enforces (hfit : grand s₀.bytesIn < 2 ^ 64) {choices : List Choice}
    (hr : run (Pass.step fromSlice) (s₀, .start) choices = some (s', p'))
    (hend : p'.phase.scanning = false) : Enforces fromSlice s₀ s' p' ∧ Stores s₀ s' p' := by
  obtain ⟨_, _, _, _, rest, -, hr⟩ := run_scanned hr hend
  exact run_keeps (I := fun s p => Enforces fromSlice s₀ s p ∧ Stores s₀ s p)
    (fun _ _ _ _ _ hi hs => ⟨hi.1.step hfit hs, hi.2.step hi.1.alone.agrees hs⟩)
    ⟨.start hfit, .start s₀⟩ hr

end Pass

/-! Calls in flight. -/

namespace Call

/-- The bytes of an entry that a removal has taken from its map and not yet from the counters. -/
def owes : Call → Bucket → ℕ
  | .removeBlobOld old => blobCharge old
  | .removeManifestOld m => manifestCharge m
  | .removeRedisValue key v => redisCharge key v
  | .removeRedisKey key _ => charge (.smallRedisMemory, key.length)
  | _ => 0

theorem pending_eq {c : Call} (h : c.inserting = false) : c.pending + toUsage c.owes = 0 := by
  have hzero : (0 : Usage) + toUsage (0 : Bucket → ℕ) = 0 := by simp
  cases c with
  | start op => exact hzero
  | done => exact hzero
  | removeBlobOld | removeManifestOld | removeRedisValue | removeRedisKey => exact neg_add_cancel _
  | _ => cases h

/-- A step of a removal, which moves the bytes of an entry out of a map and then forgets them. -/
theorem step_removing (s : State) {c : Call} (h : c.inserting = false) :
    (c.step s).2.inserting = false ∧ s.Shrinks (c.step s).1 ∧
      (c.step s).1.bytesIn + (c.step s).2.owes ≤ s.bytesIn + c.owes := by
  have hmaps {u : Usage} {l : List ℕ} : s.Shrinks { s with usage := u, unlinks := l } :=
    .of_maps rfl rfl rfl rfl
  have hmove {s' : State} {f : Bucket → ℕ} (hb : s.bytesIn = f + s'.bytesIn) :
      s'.bytesIn + f ≤ s.bytesIn + 0 := by
    rw [hb, add_zero, add_comm]
  cases c with
  | start op =>
    cases op with
    | insertBlob | insertManifest | insertRedis => cases h
    | removeBlob d =>
      have hb := bytesIn_erase_blob s d
      simp only [step]
      cases hl : s.blobs.lookup d with
      | none => exact ⟨rfl, .of_maps rfl rfl rfl rfl, le_refl _⟩
      | some b =>
        rw [share, hl, Option.elim_some] at hb
        exact ⟨rfl, .erase_blob d, hmove hb⟩
    | removeManifest d =>
      have hb := bytesIn_erase_manifest s d
      simp only [step]
      cases hl : s.manifests.lookup d with
      | none => exact ⟨rfl, .of_maps rfl rfl rfl rfl, le_refl _⟩
      | some m =>
        rw [share, hl, Option.elim_some] at hb
        exact ⟨rfl, .erase_manifest d, hmove hb⟩
    | removeRedis key =>
      have hb := bytesIn_erase_redis s key
      simp only [step]
      cases hl : s.redisEntries.lookup key with
      | none => exact ⟨rfl, .of_maps rfl rfl rfl rfl, le_refl _⟩
      | some e =>
        rw [share, hl, Option.elim_some] at hb
        exact ⟨rfl, .erase_redis key, hmove hb⟩
  | removeBlobOld old => exact ⟨rfl, hmaps, fun b => Nat.le_add_right ..⟩
  | removeManifestOld m => exact ⟨rfl, hmaps, fun b => Nat.le_add_right ..⟩
  | removeRedisValue key v =>
    refine ⟨rfl, hmaps, fun b => ?_⟩
    show s.bytesIn b + charge (.smallRedisMemory, key.length) b ≤ s.bytesIn b + redisCharge key v b
    exact Nat.add_le_add_left (Nat.le_add_left ..) _
  | removeRedisKey key v =>
    cases v <;> exact ⟨rfl, hmaps, fun b => Nat.le_add_right ..⟩
  | done => exact ⟨rfl, .of_maps rfl rfl rfl rfl, le_refl _⟩
  | _ => cases h

end Call

/-- An access changes at most what a pass holds. -/
theorem LoopPhase.hit_cases (ph : LoopPhase) (s : State) (h : Hit) :
    ph.hit s h = ph ∨
      ∃ p d b, ph = .evicting p ∧ ph.hit s h = .evicting (p.goto (p.phase.touch d b s.now)) := by
  cases h with
  | blob d =>
    simp only [LoopPhase.hit]
    split
    · rename_i p b _
      exact .inr ⟨p, d, b, rfl, rfl⟩
    · exact .inl rfl
  | _ => exact .inl rfl

/-- The loop leaves its wait to look at the counters. -/
def LoopEvent.Wakes (e : LoopEvent) : Prop := e = .wake ∨ e = .backstop

namespace LoopSys

variable {fromSlice : Bytes → Option Json} {x x' : LoopSys} {e : LoopEvent}

/-- No insert is under way that the loop has not been told of, and it has no permit. -/
structure Quiet (x : LoopSys) : Prop where
  calls : ∀ c ∈ x.calls, c.inserting = false
  returning : x.returning = 0
  notified : x.notified = false

/-- Only taking the permit makes the system quiet. -/
theorem Quiet.before (h : x'.Quiet) (hs : x.step fromSlice e = some x') (he : e ≠ .wake) :
    x.Quiet := by
  cases e with
  | wake => exact absurd rfl he
  | start op =>
    cases hs
    exact ⟨fun c hc => h.calls c (List.mem_append_left _ hc), h.returning, h.notified⟩
  | call i =>
    simp only [step] at hs
    cases hi : x.calls[i]? with
    | none => simp [hi] at hs
    | some c =>
      simp only [hi] at hs
      obtain rfl := Option.some.inj hs
      obtain ⟨hret, hnot⟩ := Nat.add_eq_zero_iff.mp h.returning
      have hmem : (c.step x.st).2 ∈ x.calls.set i (c.step x.st).2 :=
        List.mem_set (List.getElem?_eq_some_iff.mp hi).1 _
      have hc : c.inserting = false := by
        have hnext := h.calls _ hmem
        simpa [hnext] using hnot
      refine ⟨fun c' hc' => ?_, hret, h.notified⟩
      obtain ⟨j, hj, rfl⟩ := List.mem_iff_getElem.mp hc'
      obtain rfl | hne := eq_or_ne i j
      · rw [List.getElem?_eq_getElem hj, Option.some.injEq] at hi
        rwa [hi]
      · have hset : x.calls[j] ∈ x.calls.set i (c.step x.st).2 := by
          refine List.mem_iff_getElem.mpr ⟨j, by simpa using hj, ?_⟩
          rw [List.getElem_set_ne hne]
        exact h.calls _ hset
  | notify =>
    simp only [step] at hs
    split at hs
    · cases hs
    · obtain rfl := Option.some.inj hs
      cases h.notified
  | load =>
    simp only [step, load] at hs
    split at hs
    · cases hs
      exact ⟨h.calls, h.returning, h.notified⟩
    · cases hs
      exact ⟨h.calls, h.returning, h.notified⟩
    · cases hs
  | evict c =>
    simp only [step, evict] at hs
    split at hs
    · split at hs
      · cases hs
        exact ⟨h.calls, h.returning, h.notified⟩
      · split at hs
        · cases hs
          exact ⟨h.calls, h.returning, h.notified⟩
        · obtain ⟨r, -, rfl⟩ := Option.map_eq_some_iff.mp hs
          exact ⟨h.calls, h.returning, (Bool.or_eq_false_iff.mp h.notified).1⟩
    · cases hs
  | backstop | cooled =>
    simp only [step] at hs
    split at hs
    · cases hs
      exact ⟨h.calls, h.returning, h.notified⟩
    · cases hs
  | cancel =>
    simp only [step] at hs
    split at hs
    · cases hs
      exact ⟨h.calls, h.returning, h.notified⟩
    · cases hs
      exact ⟨h.calls, h.returning, h.notified⟩
    · cases hs
  | _ =>
    cases hs
    exact ⟨h.calls, h.returning, h.notified⟩

/-- The bytes in the maps, and those that removals have yet to take from the counters. -/
def held (x : LoopSys) : Bucket → ℕ := x.st.bytesIn + (x.calls.map Call.owes).sum

/-- The counters and what the calls owe them are ahead of the maps by `drift`. -/
structure Ahead (drift : Bucket → ℕ) (x : LoopSys) : Prop where
  manifest : drift .manifestMemory = 0
  bound : grand drift < 2 ^ 58
  usage : x.st.usage + (x.calls.map Call.pending).sum = toUsage (x.st.bytesIn + drift)

theorem sum_pending {calls : List Call} (h : ∀ c ∈ calls, c.inserting = false) :
    (calls.map Call.pending).sum + toUsage (calls.map Call.owes).sum = 0 := by
  induction calls with
  | nil => simp
  | cons c calls ih =>
    have hc := Call.pending_eq (h c List.mem_cons_self)
    have hrest := ih fun c' hc' => h c' (List.mem_cons_of_mem c hc')
    simp only [List.map_cons, List.sum_cons, toUsage_add]
    calc _ = c.pending + toUsage c.owes +
          ((calls.map Call.pending).sum + toUsage (calls.map Call.owes).sum) := by abel
      _ = 0 := by rw [hc, hrest, add_zero]

/-- With no insert under way the counters are never behind the maps. -/
theorem Ahead.usage_eq {drift : Bucket → ℕ} (h : Ahead drift x)
    (hq : ∀ c ∈ x.calls, c.inserting = false) : x.st.usage = toUsage (x.held + drift) := by
  have hsum := sum_pending hq
  have husage := h.usage
  rw [eq_neg_of_add_eq_zero_left hsum] at husage
  rw [eq_add_of_add_neg_eq husage, held, toUsage_add, toUsage_add, toUsage_add]
  abel

/-- The step of a call, which keeps the balance. -/
theorem Ahead.call {drift : Bucket → ℕ} {i : ℕ} {c : Call} {n : ℕ} (h : Ahead drift x)
    (hi : x.calls[i]? = some c) :
    Ahead drift { x with
      st := (c.step x.st).1, calls := x.calls.set i (c.step x.st).2, returning := n } where
  manifest := h.manifest
  bound := h.bound
  usage := by
    have hstep := Call.step_balance x.st c
    have hset := sum_map_set Call.pending hi (c.step x.st).2
    have husage := h.usage
    simp only [toUsage_add] at husage ⊢
    rw [eq_sub_of_add_eq hset]
    unfold Balances at hstep
    calc _ = (c.step x.st).1.usage + (c.step x.st).2.pending + toUsage x.st.bytesIn +
          (x.calls.map Call.pending).sum - c.pending - toUsage x.st.bytesIn := by abel
      _ = x.st.usage + (x.calls.map Call.pending).sum + toUsage (c.step x.st).1.bytesIn -
          toUsage x.st.bytesIn := by rw [hstep]; abel
      _ = _ := by rw [husage]; abel

/-- The step of a removal. -/
theorem held_call_le {i : ℕ} {c : Call} {n : ℕ} (hi : x.calls[i]? = some c)
    (hc : c.inserting = false) :
    held { x with
      st := (c.step x.st).1, calls := x.calls.set i (c.step x.st).2, returning := n } ≤ x.held := by
  intro b
  have hstep := (Call.step_removing x.st hc).2.2 b
  have hset := congrFun (sum_map_set Call.owes hi (c.step x.st).2) b
  simp only [Pi.add_apply, held] at hstep hset ⊢
  omega

/-! What the loop has read. -/

/-- The bytes of the loads that count for a budget. -/
def due (done : List (Pool × Bucket)) (f : Bucket → ℕ) (pool : Pool) : ℕ :=
  ((done.filter fun l => l.1 = pool).map fun l => f l.2).sum

theorem due_usageLoads (f : Bucket → ℕ) (pool : Pool) : due usageLoads f pool = pool.usage f := by
  cases pool <;> simp [due, usageLoads, Pool.usage] <;> omega

theorem due_mono (done : List (Pool × Bucket)) {f g : Bucket → ℕ} (h : f ≤ g) (pool : Pool) :
    due done f pool ≤ due done g pool := by
  unfold due
  exact List.sum_le_sum fun l _ => h l.2

theorem due_concat (done : List (Pool × Bucket)) (l : Pool × Bucket) (f : Bucket → ℕ)
    (pool : Pool) :
    due (done ++ [l]) f pool = due done f pool + if l.1 = pool then f l.2 else 0 := by
  by_cases hl : l.1 = pool <;> simp [due, List.filter_append, hl]

/-- The sums count at least what the counters hold now, and have not overflowed. -/
structure Seen (done : List (Pool × Bucket)) (sum : Pool → BitVec 64) (f : Bucket → ℕ)
    (pool : Pool) : Prop where
  ge : due done f pool ≤ (sum pool).toNat
  bound : (sum pool).toNat ≤ done.length * 2 ^ 59

theorem Seen.mono {done : List (Pool × Bucket)} {sum : Pool → BitVec 64} {f g : Bucket → ℕ}
    {pool : Pool} (h : Seen done sum g pool) (hle : f ≤ g) : Seen done sum f pool :=
  ⟨(due_mono done hle pool).trans h.ge, h.bound⟩

/-- One more load. -/
theorem Seen.load {done : List (Pool × Bucket)} {sum : Pool → BitVec 64} {f : Bucket → ℕ}
    {pool : Pool} {b : Bucket} (h : ∀ pool, Seen done sum f pool) (hf : f b < 2 ^ 59)
    (hlen : done.length < 10) (pool' : Pool) :
    Seen (done ++ [(pool, b)]) (Function.update sum pool (sum pool + (f b : BitVec 64))) f
      pool' := by
  have hp := h pool'
  have hone : (done ++ [(pool, b)]).length = done.length + 1 := by simp
  obtain rfl | hne := eq_or_ne pool' pool
  · have hv : ((f b : BitVec 64)).toNat = f b := by
      rw [BitVec.natCast_eq_ofNat, BitVec.toNat_ofNat, Nat.mod_eq_of_lt (by omega)]
    have hle : done.length * 2 ^ 59 ≤ 9 * 2 ^ 59 := Nat.mul_le_mul_right _ (by omega)
    have hbound := hp.bound
    have hadd : (sum pool' + (f b : BitVec 64)).toNat = (sum pool').toNat + f b := by
      rw [BitVec.toNat_add, hv, Nat.mod_eq_of_lt (by omega)]
    refine ⟨?_, ?_⟩
    · rw [due_concat, if_pos rfl, Function.update_self, hadd]
      exact Nat.add_le_add_right hp.ge _
    · rw [Function.update_self, hadd, hone]
      omega
  · refine ⟨?_, ?_⟩
    · rw [due_concat, if_neg hne.symm, Function.update_of_ne hne]
      exact hp.ge
    · rw [Function.update_of_ne hne, hone]
      exact hp.bound.trans (Nat.mul_le_mul_right _ (Nat.le_succ _))

theorem toInt_ofNat_le (n : ℕ) : (BitVec.ofNat 64 n).toInt ≤ n := by
  have hle : (BitVec.ofNat 64 n).toInt ≤ (BitVec.ofNat 64 n).toNat := by
    rw [BitVec.toInt_eq_toNat_cond]
    split <;> omega
  rw [BitVec.toNat_ofNat] at hle
  have hmod : n % 2 ^ 64 ≤ n := Nat.mod_le ..
  omega

/-- What the loop lets pass is within the limits. -/
theorem Seen.within {config : Config} {sum : Pool → BitVec 64} {f : Bucket → ℕ}
    (h : ∀ pool, Seen usageLoads sum f pool) (hx : config.exceeded sum = false) (pool : Pool) :
    pool.usage f ≤ pool.limit config := by
  have hge := (h pool).ge
  have hbound : (sum pool).toNat ≤ 10 * 2 ^ 59 := (h pool).bound
  rw [due_usageLoads] at hge
  have hint : (sum pool).toInt = (sum pool).toNat := BitVec.toInt_eq_toNat_of_lt (by omega)
  have hslt : (BitVec.ofNat 64 (pool.limit config)).slt (sum pool) = false := by
    simp only [Config.exceeded, Bool.or_eq_false_iff] at hx
    cases pool with
    | smallMemory => exact hx.1.1
    | largeMemory => exact hx.1.2
    | disk => exact hx.2
  have hle := toInt_ofNat_le (pool.limit config)
  rw [BitVec.slt_eq_decide, decide_eq_false_iff_not] at hslt
  omega

def passing (x : LoopSys) : Bool :=
  match x.phase with
  | .evicting _ => true
  | _ => false

theorem hit_phase (s : State) (h : Hit) (hp : x.passing = false) : x.phase.hit s h = x.phase := by
  rcases x.phase.hit_cases s h with heq | ⟨p, d, b, hx, -⟩
  · exact heq
  · rw [passing, hx] at hp
    cases hp

def waits (x : LoopSys) : Bool :=
  match x.phase with
  | .waiting => true
  | _ => false

theorem waits_iff : x.waits ↔ x.phase = .waiting := by
  unfold waits
  cases x.phase <;> simp

/-- No operation of another task happens during a pass, and FLUSHALL not during a call. -/
def Apart (x : LoopSys) (e : LoopEvent) (_ : LoopSys) : Prop :=
  match e with
  | .evict _ => ∀ c ∈ x.calls, c = .done
  | .flush => x.passing = false ∧ ∀ c ∈ x.calls, c = .done
  | .tick _ | .hit _ | .call _ => x.passing = false
  | _ => True

/-- All bytes that are cached or held by a removal fit a machine. -/
def Fits (x : LoopSys) (_ : LoopEvent) (_ : LoopSys) : Prop := grand x.held < 2 ^ 58

section
variable (fromSlice : Bytes → Option Json) (checked : Prop)

/-- The invariant, by the phase of the loop. `checked` tells that the loop has read the counters
since it began. -/
def Inv (x : LoopSys) : Prop :=
  match x.phase with
  | .waiting | .cooldown =>
    (∃ drift, Ahead drift x) ∧ (checked → x.Quiet → x.st.MemoryKept fromSlice)
  | .loading todo sum =>
    ∃ drift done, Ahead drift x ∧ usageLoads = done ++ todo ∧
      (x.Quiet → ∀ pool, Seen done sum (x.held + drift) pool)
  | .evicting p =>
    ∃ s₀ choices drift, run (Pass.step fromSlice) (s₀, .start) choices = some (x.st, p) ∧
      grand s₀.bytesIn < 2 ^ 58 ∧ Ahead drift { x with st := s₀ }
  | .stopped => True

end

variable {checked : Prop}

/-- A step of another task. During a pass it changes neither the state nor what is owed. -/
theorem Inv.outer {y : LoopSys} (h : Inv fromSlice checked x) (hphase : y.phase = x.phase)
    (hp : x.passing → y.st = x.st ∧
      (y.calls.map Call.pending).sum = (x.calls.map Call.pending).sum)
    (hahead : ∀ drift, Ahead drift x → ∃ drift', Ahead drift' y ∧
      (y.Quiet → x.Quiet ∧ x.st.Shrinks y.st ∧ y.held ≤ x.held ∧ drift' ≤ drift)) :
    Inv fromSlice checked y := by
  unfold Inv at h ⊢
  rw [hphase]
  cases hx : x.phase with
  | waiting | cooldown =>
    rw [hx] at h
    obtain ⟨⟨drift, hd⟩, hkept⟩ := h
    obtain ⟨drift', hd', hq⟩ := hahead drift hd
    exact ⟨⟨drift', hd'⟩, fun hc hy => (hkept hc (hq hy).1).shrinks (hq hy).2.1⟩
  | loading todo sum =>
    rw [hx] at h
    obtain ⟨drift, done, hd, hall, hseen⟩ := h
    obtain ⟨drift', hd', hq⟩ := hahead drift hd
    exact ⟨drift', done, hd', hall, fun hy pool => (hseen (hq hy).1 pool).mono
      fun b => Nat.add_le_add ((hq hy).2.2.1 b) ((hq hy).2.2.2 b)⟩
  | evicting p =>
    rw [hx] at h
    obtain ⟨s₀, choices, drift, hr, hfit, hd⟩ := h
    obtain ⟨hst, hsum⟩ := hp (by rw [passing, hx])
    refine ⟨s₀, choices, drift, hst ▸ hr, hfit, hd.manifest, hd.bound, ?_⟩
    rw [hsum]
    exact hd.usage
  | stopped => trivial

/-- Where another task leaves the bytes as they are. -/
theorem Inv.same {s : State} (h : Inv fromSlice checked x) (hp : x.passing = false)
    (husage : s.usage = x.st.usage) (hbytes : s.bytesIn = x.st.bytesIn) (hs : x.st.Shrinks s) :
    Inv fromSlice checked { x with st := s } := by
  refine h.outer rfl (fun hx => absurd hx (Bool.eq_false_iff.mp hp)) fun drift hd =>
    ⟨drift, ⟨hd.manifest, hd.bound, ?_⟩, fun hy =>
      ⟨⟨hy.calls, hy.returning, hy.notified⟩, hs, ?_, le_refl _⟩⟩
  · rw [husage, hbytes]
    exact hd.usage
  · rw [held, held, hbytes]

theorem Inv.start (h : Inv fromSlice checked x) (op : Op) :
    Inv fromSlice checked { x with calls := x.calls ++ [Call.start op] } := by
  have hsum : ((x.calls ++ [Call.start op]).map Call.pending).sum =
      (x.calls.map Call.pending).sum := by
    rw [List.map_append, List.sum_append]
    exact add_zero _
  have howes : ((x.calls ++ [Call.start op]).map Call.owes).sum = (x.calls.map Call.owes).sum := by
    rw [List.map_append, List.sum_append]
    exact add_zero _
  refine h.outer rfl (fun _ => ⟨rfl, hsum⟩) fun drift hd =>
    ⟨drift, ⟨hd.manifest, hd.bound, ?_⟩, fun hy =>
      ⟨⟨fun c hc => hy.calls c (List.mem_append_left _ hc), hy.returning, hy.notified⟩,
        .of_maps rfl rfl rfl rfl, ?_, le_refl _⟩⟩
  · rw [hsum]
    exact hd.usage
  · rw [held, held, howes]

theorem sum_done {α : Type} [AddCommMonoid α] {f : Call → α} (hf : f .done = 0) {calls : List Call}
    (h : ∀ c ∈ calls, c = .done) : (calls.map f).sum = 0 := by
  refine List.sum_eq_zero fun a ha => ?_
  obtain ⟨c, hc, rfl⟩ := List.mem_map.mp ha
  rw [h c hc, hf]

theorem Inv.flush (h : Inv fromSlice checked x) (hp : x.passing = false)
    (hdone : ∀ c ∈ x.calls, c = .done) :
    Inv fromSlice checked { x with st := x.st.flushRedis } := by
  have hpending : (x.calls.map Call.pending).sum = 0 := sum_done rfl hdone
  refine h.outer rfl (fun hx => absurd hx (Bool.eq_false_iff.mp hp)) fun drift hd => ?_
  -- the Redis counters are exact again
  have hle : (fun b => if b ∈ flushedBuckets then 0 else drift b) ≤ drift := by
    intro b
    show (if b ∈ flushedBuckets then 0 else drift b) ≤ drift b
    split
    · exact Nat.zero_le _
    · exact le_refl _
  refine ⟨_, ⟨?_, (grand_mono hle).trans_lt hd.bound, ?_⟩, fun hy =>
    ⟨⟨hy.calls, hy.returning, hy.notified⟩, .flushRedis, fun b => ?_, hle⟩⟩
  · exact hd.manifest
  · have husage := hd.usage
    rw [hpending, add_zero] at husage ⊢
    funext b
    simp only [toUsage, Pi.add_apply, State.flushRedis_usage, State.flushRedis_bytesIn]
    split
    · rfl
    · rw [husage]
      rfl
  · exact Nat.add_le_add_right (State.Shrinks.flushRedis.bytes b) _

theorem Inv.call {i : ℕ} {c : Call} {n : ℕ} (h : Inv fromSlice checked x) (hp : x.passing = false)
    (hi : x.calls[i]? = some c) (hq : Quiet { x with
      st := (c.step x.st).1, calls := x.calls.set i (c.step x.st).2, returning := n } → x.Quiet) :
    Inv fromSlice checked { x with
      st := (c.step x.st).1, calls := x.calls.set i (c.step x.st).2, returning := n } := by
  refine h.outer rfl (fun hx => absurd hx (Bool.eq_false_iff.mp hp)) fun drift hd =>
    ⟨drift, hd.call hi, fun hy => ?_⟩
  have hc : c.inserting = false := (hq hy).calls c (List.mem_of_getElem? hi)
  exact ⟨hq hy, (Call.step_removing x.st hc).2.1, held_call_le hi hc, le_refl _⟩

/-- The loop wakes and begins to read. -/
theorem Inv.woken (h : Inv fromSlice checked x) (hx : x.phase = .waiting) (b : Bool)
    (checked' : Prop) :
    Inv fromSlice checked'
      { x with notified := b, phase := .loading usageLoads fun _ => 0 } := by
  unfold Inv at h ⊢
  rw [hx] at h
  obtain ⟨⟨drift, hd⟩, -⟩ := h
  exact ⟨drift, [], ⟨hd.manifest, hd.bound, hd.usage⟩, rfl,
    fun _ pool => ⟨Nat.zero_le _, Nat.zero_le _⟩⟩

theorem Inv.load (h : Inv fromSlice checked x) (hfit : grand x.held < 2 ^ 58)
    (hs : x.load = some x') : Inv fromSlice checked x' := by
  unfold LoopSys.load at hs
  split at hs
  · rename_i sum hx
    unfold Inv at h
    rw [hx] at h
    obtain ⟨drift, done, hd, hall, hseen⟩ := h
    rw [List.append_nil] at hall
    subst hall
    obtain rfl := Option.some.inj hs
    cases hover : x.st.config.exceeded sum with
    | true =>
      refine ⟨x.st, [], drift, rfl, ?_, hd.manifest, hd.bound, hd.usage⟩
      exact (grand_mono fun b => Nat.le_add_right ..).trans_lt hfit
    | false =>
      refine ⟨⟨drift, hd.manifest, hd.bound, hd.usage⟩, fun _ hq => ?_⟩
      have hwithin := Seen.within (hseen ⟨hq.calls, hq.returning, hq.notified⟩) hover
      have hle : x.st.bytesIn ≤ x.held + drift := fun b =>
        (Nat.le_add_right ..).trans (Nat.le_add_right ..)
      exact ⟨.inl ((Pool.usage_mono _ hle).trans (hwithin .smallMemory)),
        .inl ((Pool.usage_mono _ hle).trans (hwithin .largeMemory))⟩
  · rename_i pool b todo sum hx
    unfold Inv at h
    rw [hx] at h
    obtain ⟨drift, done, hd, hall, hseen⟩ := h
    obtain rfl := Option.some.inj hs
    refine ⟨drift, done ++ [(pool, b)], ⟨hd.manifest, hd.bound, hd.usage⟩, ?_, fun hq pool' => ?_⟩
    · rw [hall, List.append_assoc]
      rfl
    · have hq : x.Quiet := ⟨hq.calls, hq.returning, hq.notified⟩
      have hvalue : x.st.usage b = ((x.held + drift) b : ℕ) := congrFun (hd.usage_eq hq.calls) b
      rw [hvalue]
      refine Seen.load (hseen hq) ?_ ?_ pool'
      · have hheld := (le_grand x.held b).trans_lt hfit
        have hdrift := (le_grand drift b).trans_lt hd.bound
        rw [Pi.add_apply]
        omega
      · have hlen := congrArg List.length hall
        rw [List.length_append, List.length_cons] at hlen
        have hten : usageLoads.length = 10 := rfl
        omega
  · cases hs

/-- A pass that is over leaves its accumulators in the counters, which count at least what is in
the maps. -/
theorem Ahead.of_done {s₀ : State} {p : Pass} {drift : Bucket → ℕ}
    (hd : Ahead drift { x with st := s₀ }) (hcalls : ∀ c ∈ x.calls, c = .done)
    (hfit : grand s₀.bytesIn < 2 ^ 58) (he : Pass.Enforces fromSlice s₀ x.st p)
    (hst : Pass.Stores s₀ x.st p) (hp : p.phase = .done) : ∃ drift', Ahead drift' x := by
  have hle := he.ledger.le
  have hpending : (x.calls.map Call.pending).sum = 0 := sum_done rfl hcalls
  refine ⟨fun b => if b = .manifestMemory then 0 else p.acc b - x.st.bytesIn b, rfl, ?_, ?_⟩
  · refine ((grand_mono fun b => ?_).trans he.ledger.bound).trans_lt hfit
    split
    · exact Nat.zero_le _
    · exact Nat.sub_le ..
  · rw [hpending, add_zero]
    funext b
    by_cases hb : b = .manifestMemory
    · -- no pass stores this counter
      subst hb
      have hstart : s₀.usage .manifestMemory = toUsage s₀.bytesIn .manifestMemory := by
        simpa [hpending, toUsage, hd.manifest] using congrFun hd.usage .manifestMemory
      have hman := hst.manifest
      rw [hstart, add_comm] at hman
      simpa [toUsage] using add_left_cancel hman
    · have hstored : Pass.stored p.phase b := by
        rw [hp]
        cases b <;> first | exact absurd rfl hb | decide
      rw [hst.stored b hstored]
      simp only [toUsage, Pi.add_apply, if_neg hb]
      rw [Nat.add_sub_cancel' (hle b)]

theorem Inv.evict {c : Choice} (h : Inv fromSlice checked x) (hcalls : ∀ c ∈ x.calls, c = .done)
    (hs : x.evict fromSlice c = some x') : Inv fromSlice checked x' := by
  unfold LoopSys.evict at hs
  split at hs
  · rename_i p hx
    unfold Inv at h
    rw [hx] at h
    obtain ⟨s₀, choices, drift, hr, hfit, hd⟩ := h
    split at hs
    · rename_i hp
      obtain rfl := Option.some.inj hs
      have hfit64 : grand s₀.bytesIn < 2 ^ 64 := hfit.trans (by decide)
      obtain ⟨he, hst⟩ := Pass.run_enforces hfit64 hr (by rw [hp]; rfl)
      have hd : Ahead drift { x with st := s₀ } := ⟨hd.manifest, hd.bound, hd.usage⟩
      obtain ⟨drift', hd'⟩ := hd.of_done hcalls hfit he hst hp
      exact ⟨⟨drift', hd'.manifest, hd'.bound, hd'.usage⟩, fun _ _ =>
        .of_met (he.small_met hfit64 hp) (he.memory_met hfit64 hp)⟩
    · split at hs
      · obtain rfl := Option.some.inj hs
        trivial
      · obtain ⟨r, hn, rfl⟩ := Option.map_eq_some_iff.mp hs
        refine ⟨s₀, choices ++ [c], drift, ?_, hfit, hd.manifest, hd.bound, hd.usage⟩
        rw [run_append, hr, Option.bind_some]
        exact run_cons.mpr ⟨_, Pass.step_eq_some.mpr ⟨r.1, r.2, hn, rfl⟩, rfl⟩
  · cases hs

theorem Inv.step_wakes {checked' : Prop} (h : Inv fromSlice checked x) (he : e.Wakes)
    (hs : x.step fromSlice e = some x') : Inv fromSlice checked' x' := by
  rcases he with rfl | rfl
  · simp only [LoopSys.step] at hs
    split at hs
    · rename_i hx
      split at hs
      · obtain rfl := Option.some.inj hs
        exact h.woken hx _ _
      · cases hs
    · cases hs
  · simp only [LoopSys.step] at hs
    split at hs
    · rename_i hx
      obtain rfl := Option.some.inj hs
      exact h.woken hx _ _
    · cases hs

theorem Inv.step (h : Inv fromSlice checked x) (hs : x.step fromSlice e = some x')
    (hapart : x.Apart e x') (hfit : x.Fits e x') : Inv fromSlice checked x' := by
  cases e with
  | tick now =>
    cases hs
    exact h.same hapart rfl rfl (.of_maps rfl rfl rfl rfl)
  | hit k =>
    cases hs
    rw [hit_phase x.st k hapart]
    exact h.same hapart (State.hit_usage ..) (State.bytesIn_hit ..) (.hit k)
  | start op =>
    cases hs
    exact h.start op
  | call i =>
    have hbefore (hq : x'.Quiet) : x.Quiet := hq.before hs nofun
    simp only [LoopSys.step] at hs
    cases hi : x.calls[i]? with
    | none => simp [hi] at hs
    | some c =>
      simp only [hi] at hs
      obtain rfl := Option.some.inj hs
      exact h.call hapart hi hbefore
  | notify =>
    simp only [LoopSys.step] at hs
    split at hs
    · cases hs
    · obtain rfl := Option.some.inj hs
      exact h.outer rfl (fun _ => ⟨rfl, rfl⟩) fun drift hd =>
        ⟨drift, ⟨hd.manifest, hd.bound, hd.usage⟩, fun hq => by cases hq.notified⟩
  | flush =>
    cases hs
    exact h.flush hapart.1 hapart.2
  | wake => exact h.step_wakes (.inl rfl) hs
  | backstop => exact h.step_wakes (.inr rfl) hs
  | load => exact h.load hfit hs
  | evict c => exact h.evict hapart hs
  | cooled =>
    simp only [LoopSys.step] at hs
    split at hs
    · rename_i hx
      obtain rfl := Option.some.inj hs
      unfold Inv at h ⊢
      rw [hx] at h
      obtain ⟨⟨drift, hd⟩, hkept⟩ := h
      exact ⟨⟨drift, hd.manifest, hd.bound, hd.usage⟩, fun hc hq =>
        hkept hc ⟨hq.calls, hq.returning, hq.notified⟩⟩
    · cases hs
  | cancel =>
    simp only [LoopSys.step] at hs
    split at hs
    · cases hs
      trivial
    · cases hs
      trivial
    · cases hs

theorem Inv.mono {checked' : Prop} (hc : checked' → checked) (h : Inv fromSlice checked x) :
    Inv fromSlice checked' x := by
  unfold Inv at h ⊢
  cases hx : x.phase with
  | waiting | cooldown =>
    rw [hx] at h
    exact ⟨h.1, fun hc' => h.2 (hc hc')⟩
  | _ =>
    rw [hx] at h
    exact h

theorem Inv.run {es : List LoopEvent} {t : LoopSys} (h : Inv fromSlice checked x)
    (hapart : Along (LoopSys.step fromSlice) Apart x es)
    (hfit : Along (LoopSys.step fromSlice) Fits x es)
    (hr : Machine.run (LoopSys.step fromSlice) x es = some t) :
    Inv fromSlice (checked ∨ ∃ e ∈ es, e.Wakes) t := by
  induction es generalizing x checked with
  | nil =>
    obtain rfl := Option.some.inj hr
    exact h.mono fun hc => hc.elim id fun ⟨_, he, _⟩ => by cases he
  | cons e es ih =>
    obtain ⟨m, hm, hr⟩ := run_cons.mp hr
    obtain ⟨hae, hapart⟩ := hapart m hm
    obtain ⟨hfe, hfit⟩ := hfit m hm
    by_cases he : e.Wakes
    · have hm : Inv fromSlice True m := h.step_wakes he hm
      exact (ih hm hapart hfit hr).mono fun _ => .inl trivial
    · refine (ih (h.step hm hae hfe) hapart hfit hr).mono fun hc => hc.imp_right ?_
      rintro ⟨e', he', hw⟩
      rcases List.mem_cons.mp he' with rfl | he'
      · exact absurd hw he
      · exact ⟨e', he', hw⟩

theorem Inv.init {s : State} (hs : s.usage = s.recomputed) :
    Inv fromSlice False (LoopSys.init s) := by
  refine ⟨⟨0, rfl, by decide, ?_⟩, False.elim⟩
  show s.usage + 0 = toUsage (s.bytesIn + 0)
  rw [add_zero, add_zero, hs, recomputed_eq]

/-- A step after which the system is not quiet is followed by the loop taking its permit, if the
system is quiet in the end. -/
theorem wake_mem_of_busy {s : LoopSys} {pre post : List LoopEvent} {t : LoopSys}
    (hr : Machine.run (LoopSys.step fromSlice) s (pre ++ e :: post) = some t) (hq : t.Quiet)
    (hbusy : ∀ m n, LoopSys.step fromSlice m e = some n → ¬ n.Quiet) : .wake ∈ post := by
  rw [run_append] at hr
  obtain ⟨m, -, hr⟩ := Option.bind_eq_some_iff.mp hr
  obtain ⟨n, hn, hr⟩ := run_cons.mp hr
  by_contra hno
  refine run_invariant_of_mem (E := fun e => e ≠ .wake) (I := fun x => ¬ x.Quiet)
    (fun x e x' hx he hstep hx' => hx (hx'.before hstep he)) (hbusy m n hn) (fun e he => ?_) hr hq
  rintro rfl
  exact hno he

end LoopSys

/-- The loop misses nothing. When it waits without a permit and no insert is under way, it was woken
after every insert began and after every notification; and once it has looked, the memory limits
are kept or a pass has left nothing that it could take, whatever went on while it read the
counters. -/
theorem evict_loop_keeps_memory_limits (fromSlice : Bytes → Option Json) (s : State)
    (hs : s.usage = s.recomputed) {es : List LoopEvent} {t : LoopSys}
    (hr : run (LoopSys.step fromSlice) (.init s) es = some t) (hq : t.Quiet) :
    (∀ pre op post, es = pre ++ .start op :: post → op.notifies → .wake ∈ post) ∧
    (∀ pre post, es = pre ++ .notify :: post → .wake ∈ post) ∧
    (Along (LoopSys.step fromSlice) LoopSys.Apart (.init s) es →
      Along (LoopSys.step fromSlice) LoopSys.Fits (.init s) es → (∃ e ∈ es, e.Wakes) →
      t.phase = .waiting → t.st.MemoryKept fromSlice) := by
  refine ⟨fun pre op post hes hop => ?_, fun pre post hes => ?_, fun hapart hfit hw hwait => ?_⟩
  · subst hes
    refine LoopSys.wake_mem_of_busy hr hq fun m n hn hquiet => ?_
    cases hn
    have hop' := hquiet.calls (.start op) (by simp)
    rw [Call.inserting, hop] at hop'
    cases hop'
  · subst hes
    refine LoopSys.wake_mem_of_busy hr hq fun m n hn hquiet => ?_
    simp only [LoopSys.step] at hn
    split at hn
    · cases hn
    · obtain rfl := Option.some.inj hn
      cases hquiet.notified
  · have hinv := (LoopSys.Inv.init hs).run hapart hfit hr
    unfold LoopSys.Inv at hinv
    rw [hwait] at hinv
    exact hinv.2 (.inr hw) hq

instance (x : LoopSys) (e : LoopEvent) (x' : LoopSys) : Decidable (x.Apart e x') :=
  match e with
  | .evict _ => inferInstanceAs (Decidable (∀ c ∈ x.calls, c = .done))
  | .flush => inferInstanceAs (Decidable (x.passing = false ∧ ∀ c ∈ x.calls, c = .done))
  | .tick _ | .hit _ | .call _ => inferInstanceAs (Decidable (x.passing = false))
  | .start _ | .notify | .wake | .backstop | .load | .cooled | .cancel => isTrue trivial

instance (x : LoopSys) (e : LoopEvent) (x' : LoopSys) : Decidable (x.Fits e x') :=
  inferInstanceAs (Decidable (_ < _))

/-- A SET of more than there is memory for, and a pass that spills it. -/
def spillingLoop : List LoopEvent :=
  [.start (.insertRedis [107] (List.replicate 1025 97)), .call 0, .call 0, .call 0, .call 0,
    .notify, .wake] ++ List.replicate 11 .load ++ List.replicate 18 (.evict {}) ++ [.cooled]

theorem evict_loop_keeps_memory_limits_spilling :
    ∃ t, run (LoopSys.step imageJson) (.init (State.new ⟨1000, none, 10000⟩ 1)) spillingLoop =
        some t ∧ t.st.metrics.evictionRuns = 1 ∧ t.st.MemoryKept imageJson := by
  have hrun : ((run (LoopSys.step imageJson) (.init (State.new ⟨1000, none, 10000⟩ 1))
      spillingLoop).map fun t => (t.waits, t.calls, t.returning, t.notified,
        t.st.metrics.evictionRuns)) = some (true, [.done], 0, false, 1) := by decide +kernel
  obtain ⟨t, hr, hend⟩ := Option.map_eq_some_iff.mp hrun
  simp only [Prod.mk.injEq] at hend
  obtain ⟨hwait, hcalls, hret, hnot, hruns⟩ := hend
  have hq : t.Quiet := by
    refine ⟨fun c hc => ?_, hret, hnot⟩
    rw [hcalls, List.mem_singleton] at hc
    rw [hc, Call.inserting]
  have hwake : .wake ∈ spillingLoop := by
    simp only [spillingLoop, List.mem_append, List.mem_cons, true_or, or_true]
  exact ⟨t, hr, hruns, (evict_loop_keeps_memory_limits imageJson _ rfl hr hq).2.2
    (by decide +kernel) (by decide +kernel) ⟨.wake, hwake, .inl rfl⟩ (LoopSys.waits_iff.mp hwait)⟩

end Dockfoxprox
