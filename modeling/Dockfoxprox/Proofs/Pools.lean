import Dockfoxprox.Proofs.Accumulators
import Dockfoxprox.Proofs.Queues

/-! The three budgets of a pass. An arm of the loop is closed once its budget is met or its
heap is empty. The small and the large one stay closed, because the loop fills neither heap
and takes bytes out of memory only. -/

namespace Dockfoxprox

open MapSum

/-- The bytes a budget counts. -/
def Pool.usage (pool : Pool) (f : Bucket → ℕ) : ℕ :=
  match pool with
  | .smallMemory => f .smallBlobMemory + f .smallRedisMemory + f .manifestMemory
  | .largeMemory => f .largeBlobMemory + f .largeRedisMemory + f .manifestMemory +
      f .smallBlobMemory + f .smallRedisMemory
  | .disk => f .blobDisk + f .redisDisk

def Pool.limit (pool : Pool) (c : Config) : ℕ :=
  match pool with
  | .smallMemory => c.smallMemoryLimit
  | .largeMemory => c.memoryLimit
  | .disk => c.diskLimit

theorem Pool.usage_mono (pool : Pool) {f g : Bucket → ℕ} (h : ∀ b, f b ≤ g b) :
    pool.usage f ≤ pool.usage g := by
  have h1 := h .manifestMemory
  have h2 := h .smallBlobMemory
  have h3 := h .largeBlobMemory
  have h4 := h .smallRedisMemory
  have h5 := h .largeRedisMemory
  have h6 := h .blobDisk
  have h7 := h .redisDisk
  cases pool <;> simp only [usage] <;> omega

theorem Pool.usage_le_grand (pool : Pool) (f : Bucket → ℕ) : pool.usage f ≤ grand f := by
  cases pool <;> simp only [usage, grand] <;> omega

/-- A manifest or a Redis entry. -/
inductive Item where
  | manifest (digest : Digest)
  | redis (key : Bytes)
deriving DecidableEq

namespace State

/-- A manifest, or a small Redis entry in memory. -/
def InSmallPool (s : State) : Item → Prop
  | .manifest d => ∃ m, s.manifests.lookup d = some m
  | .redis key => ∃ value id t, s.redisEntries.lookup key = some (.inMemory value id t) ∧
      value.length ≤ memoryTierThreshold

def InLargePool (s : State) : Item → Prop
  | .manifest _ => False
  | .redis key => ∃ value id t, s.redisEntries.lookup key = some (.inMemory value id t) ∧
      memoryTierThreshold < value.length

def OnDisk (s : State) : Item → Prop
  | .manifest _ => False
  | .redis key => ∃ size id t, s.redisEntries.lookup key = some (.onDisk size id t)

/-- A manifest that references a blob on disk. -/
def NeedsDisk (fromSlice : Bytes → Option Json) (s : State) : Item → Prop
  | .manifest d => ∃ m, s.manifests.lookup d = some m ∧
      ∃ r ∈ referencedDigests fromSlice m.content, ∃ id size mt t,
        s.blobs.lookup r = some (.onDisk id size mt t)
  | .redis _ => False

end State

def State.accessTime (s : State) : Item → Option ℕ
  | .manifest d => (s.manifests.lookup d).map Manifest.lastUsed
  | .redis key => (s.redisEntries.lookup key).map RedisEntry.lastAccessed

def Candidate.item : Candidate → Item
  | .manifest _ d => .manifest d
  | .redis key _ _ => .redis key

namespace Pass

/-- The arm of a budget has nothing to do. -/
def Closed (p : Pass) (c : Config) (pool : Pool) : Prop :=
  pool.usage p.acc % 2 ^ 64 ≤ target (pool.limit c) ∨ p.heap pool = []

variable {fromSlice : Bytes → Option Json} {s s' s₀ : State} {p p' : Pass} {c : Choice} {a : Act}
  {pool : Pool} {config : Config}

instance : Decidable (p.Closed config pool) :=
  inferInstanceAs (Decidable (_ ≤ _ ∨ p.heap pool = []))

/-- The loop takes the first arm that is not closed. -/
theorem arm_eq : p.arm config =
    if ¬ p.Closed config .smallMemory then some .smallMemory
    else if ¬ p.Closed config .largeMemory then some .largeMemory
    else if ¬ p.Closed config .disk then some .disk else none := by
  unfold arm
  simp only [Closed, Pool.usage, Pool.limit, not_or, not_le, gt_iff_lt, ne_eq]

theorem arm_none (h : p.arm config = none) (pool : Pool) : p.Closed config pool := by
  rw [arm_eq] at h
  split at h
  · cases h
  · split at h
    · cases h
    · split at h
      · cases h
      · rename_i hsmall hlarge hdisk
        cases pool with
        | smallMemory => exact not_not.mp hsmall
        | largeMemory => exact not_not.mp hlarge
        | disk => exact not_not.mp hdisk

theorem arm_open (h : p.arm config = some pool) : ¬ p.Closed config pool := by
  rw [arm_eq] at h
  split at h
  · cases h
    exact ‹_›
  · split at h
    · cases h
      exact ‹_›
    · split at h
      · cases h
        exact ‹_›
      · cases h

theorem arm_small_closed (h : p.arm config = some pool) (hne : pool ≠ .smallMemory) :
    p.Closed config .smallMemory := by
  rw [arm_eq] at h
  split at h
  · cases h
    exact absurd rfl hne
  · exact not_not.mp ‹_›

theorem arm_large_closed (h : p.arm config = some .disk) : p.Closed config .largeMemory := by
  rw [arm_eq] at h
  split at h
  · cases h
  · split at h
    · cases h
    · exact not_not.mp ‹_›

/-- The bytes in memory only become less. -/
theorem Step.acc_le (hs : Step fromSlice s p c a p') (hscan : p.phase.scanning = false) {b : Bucket}
    (hb : b ≠ .blobDisk) (hr : b ≠ .redisDisk) : p'.acc b ≤ p.acc b := by
  have hcredit (q : Pass) (b' : Bucket) (n : ℕ) : (q.credit b' n).acc b ≤ q.acc b := by
    by_cases h : b = b'
    · subst h; simp
    · simp [h]
  cases hs with
  | scanBlobs hp => rw [hp] at hscan; cases hscan
  | scanManifests hp => rw [hp] at hscan; cases hscan
  | scanRedis hp => rw [hp] at hscan; cases hscan
  | dropRedis => exact hcredit ..
  | dropManifest => exact hcredit ..
  | spillInsert hp =>
    simp only [goto_acc, debit_acc, Function.update_of_ne hb]
    exact hcredit ..
  | redisInsert hp =>
    simp only [goto_acc, push_acc, debit_acc, Function.update_of_ne hr]
    exact hcredit ..
  | @cascadeDrop old r todo bb blob => exact hcredit ..
  | _ => exact Nat.le_refl _

theorem Step.usage_le (hs : Step fromSlice s p c a p') (hscan : p.phase.scanning = false)
    (hpool : pool ≠ .disk) : pool.usage p'.acc ≤ pool.usage p.acc := by
  have hle : ∀ b, b ≠ .blobDisk → b ≠ .redisDisk → p'.acc b ≤ p.acc b := fun _ => hs.acc_le hscan
  have h1 := hle .manifestMemory (by decide) (by decide)
  have h2 := hle .smallBlobMemory (by decide) (by decide)
  have h3 := hle .largeBlobMemory (by decide) (by decide)
  have h4 := hle .smallRedisMemory (by decide) (by decide)
  have h5 := hle .largeRedisMemory (by decide) (by decide)
  cases pool with
  | disk => exact absurd rfl hpool
  | _ => simp only [Pool.usage]; omega

/-- The memory budgets of a pass count no more than what there was when it began. -/
theorem usage_of_run {choices : List Choice}
    (hr : Machine.run (Pass.step fromSlice) (s₀, .start) choices = some (s', p'))
    (hend : p'.phase.scanning = false) (hpool : pool ≠ .disk) :
    pool.usage p'.acc ≤ pool.usage s₀.bytesIn := by
  obtain ⟨_, _, _, _, rest, -, hr⟩ := run_scanned hr hend
  have hstart : pool.usage (scanned fromSlice s₀).acc ≤ pool.usage s₀.bytesIn :=
    pool.usage_mono fun b => (scanned_acc s₀ b).trans_le (Nat.mod_le _ _)
  exact (run_keeps (I := fun _ p => p.phase.scanning = false ∧
    pool.usage p.acc ≤ pool.usage s₀.bytesIn) (fun _ _ _ _ _ hi hs =>
      ⟨hs.scanning hi.1, (hs.usage_le hi.1 hpool).trans hi.2⟩) ⟨rfl, hstart⟩ hr).2

/-- Only the disk heap gets new candidates. -/
theorem Turn.heap_sub (h : Turn s p a p') (hpool : pool ≠ .disk) {x : Candidate}
    (hx : x ∈ p'.heap pool) : x ∈ p.heap pool := by
  cases h with
  | quiet _ _ hh => rwa [hh] at hx
  | stale _ _ hpop => exact mem_popped hpop hx
  | drop _ _ _ hpop _ hh => rw [hh] at hx; exact mem_popped hpop hx
  | start _ _ hpop _ hh => rw [hh] at hx; exact mem_popped hpop hx
  | finish _ _ _ hh =>
    rw [hh] at hx
    exact (mem_push hx).resolve_left fun h => hpool h.1

/-- A memory arm that is closed stays closed. -/
theorem Closed.step (h : p.Closed config pool) (hs : Step fromSlice s p c a p') (ht : Turn s p a p')
    (hscan : p.phase.scanning = false) (hpool : pool ≠ .disk)
    (hfit : pool.usage p.acc < 2 ^ 64) : p'.Closed config pool := by
  have hle := hs.usage_le hscan hpool
  rcases h with h | h
  · rw [Nat.mod_eq_of_lt hfit] at h
    exact .inl ((Nat.mod_le _ _).trans (hle.trans h))
  · refine .inr (List.eq_nil_iff_forall_not_mem.mpr fun x hx => ?_)
    have hx' := ht.heap_sub hpool hx
    rw [h] at hx'
    cases hx'

/-- What the maps have of the small pool, of the large one and of the disk makes candidates. -/
theorem wanted_small {blobs : DashMap Digest Blob} {y : Item} (h : s.InSmallPool y) :
    ∃ x, x.item = y ∧ Wanted fromSlice blobs s .smallMemory x := by
  cases y with
  | manifest d =>
    obtain ⟨m, hm⟩ := h
    exact ⟨.manifest m.lastUsed d, rfl, .inr ⟨d, m, hm, by simp [manifestCandidate]⟩⟩
  | redis key =>
    obtain ⟨value, id, t, he, hl⟩ := h
    refine ⟨.redis key t value.length, rfl, .inl ⟨key, _, he, ?_⟩⟩
    simp [redisCandidate, redisPool, redisValueBucket, not_lt.mpr hl, RedisEntry.lastAccessed]

theorem wanted_large {blobs : DashMap Digest Blob} {y : Item} (h : s.InLargePool y) :
    ∃ key t size, y = .redis key ∧ s.accessTime y = some t ∧
      Wanted fromSlice blobs s .largeMemory (.redis key t size) := by
  cases y with
  | manifest d => exact h.elim
  | redis key =>
    obtain ⟨value, id, t, he, hl⟩ := h
    refine ⟨key, t, value.length, rfl, by simp [State.accessTime, he, RedisEntry.lastAccessed],
      .inl ⟨key, _, he, ?_⟩⟩
    simp [redisCandidate, redisPool, redisValueBucket, hl, RedisEntry.lastAccessed]

theorem wanted_disk {blobs : DashMap Digest Blob} {y : Item} (h : s.OnDisk y) :
    ∃ x, x.item = y ∧ Wanted fromSlice blobs s .disk x := by
  cases y with
  | manifest d => exact h.elim
  | redis key =>
    obtain ⟨size, id, t, he⟩ := h
    refine ⟨.redis key t size, rfl, .inl ⟨key, _, he, ?_⟩⟩
    simp [redisCandidate, redisPool, redisValueBucket, RedisEntry.lastAccessed]

/-- What the maps have for a heap is in it, but for manifests that the large heap let go. -/
theorem Alone.mem_heap (h : Alone fromSlice s₀ s p) (hidle : ∀ x, ¬ p.phase.Handles x)
    {y : Candidate} (hw : Wanted fromSlice s₀.blobs s pool y)
    (hpool : pool ≠ .largeMemory ∨ ∃ key t size, y = .redis key t size) : y ∈ p.heap pool := by
  rcases h.queued pool y hw with hy | ⟨rfl, -, hy⟩
  · exact hy
  · obtain ⟨key, t, size, rfl⟩ := hpool.resolve_left fun hne => hne rfl
    -- a large entry in memory is no candidate of the disk heap
    rcases hw with ⟨key', e, he, hc⟩ | ⟨d, m, hm, hc⟩
    · obtain ⟨hpe, hx⟩ := redisCandidate_key hc
      cases hx
      have hd := h.agrees.candidates _ _ _ _ (hy.resolve_left (hidle _)) e he
      cases e with
      | inMemory value id u => exact hd.elim
      | onDisk n id u => cases hpe
    · cases manifestCandidate_digest hc

end Pass

end Dockfoxprox
