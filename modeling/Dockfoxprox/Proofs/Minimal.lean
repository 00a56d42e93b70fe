import Dockfoxprox.Proofs.Collection
import Dockfoxprox.Proofs.Pools

/-! When the loop evicts though the budget is met. Its accumulators are the bytes in the
maps and the keys of the Redis entries it has dropped, which it never takes out of them. As
long as no such key had any bytes, an iteration is for a budget that is exceeded. -/

namespace Dockfoxprox

open MapSum Machine

def State.keyBytes (s : State) : ℕ := total (fun key _ => key.length) s.redisEntries

namespace Pass

instance (s : State) (pool : Pool) (x : Candidate) : Decidable (Stale s pool x) :=
  match x with
  | .manifest _ d => inferInstanceAs (Decidable (s.manifests.lookup d = none))
  | .redis key _ _ => inferInstanceAs (Decidable (if pool = .largeMemory then
      s.spillFetch key = none else s.redisEntries.lookup key = none))

/-- The budget for which an iteration drops or spills an item. -/
def evictsFor (s : State) (p : Pass) (c : Choice) : Option Pool :=
  match p.phase with
  | .loop => (p.arm s.config).bind fun pool => (popOldest (p.heap pool) c.pick).bind fun r =>
      if Stale s pool r.1 then none else some pool
  | _ => none

/-- The budget for which a step evicts is exceeded by what is in the maps. -/
def Minimal (x : State × Pass) (c : Choice) (_ : State × Pass) : Prop :=
  ∀ pool ∈ evictsFor x.1 x.2 c, target (pool.limit x.1.config) < pool.usage x.1.bytesIn

/-- Where the step evicts for one of the memory budgets, the pass has dropped no Redis entry
yet but one of the empty key. -/
def KeysKept (s₀ : State) (x : State × Pass) (c : Choice) (_ : State × Pass) : Prop :=
  ∀ pool ∈ evictsFor x.1 x.2 c, pool ≠ .disk →
    ∀ key ∈ s₀.redisEntries.keys, key ≠ [] → key ∈ x.1.redisEntries.keys

instance (x : State × Pass) (c : Choice) (x' : State × Pass) : Decidable (Minimal x c x') :=
  inferInstanceAs (Decidable (∀ pool ∈ evictsFor x.1 x.2 c,
    target (pool.limit x.1.config) < pool.usage x.1.bytesIn))

instance (s₀ : State) (x : State × Pass) (c : Choice) (x' : State × Pass) :
    Decidable (KeysKept s₀ x c x') :=
  inferInstanceAs (Decidable (∀ pool ∈ evictsFor x.1 x.2 c, pool ≠ .disk →
    ∀ key ∈ s₀.redisEntries.keys, key ≠ [] → key ∈ x.1.redisEntries.keys))

variable {fromSlice : Bytes → Option Json} {s s' s₀ : State} {p p' : Pass} {c : Choice} {a : Act}

/-- From `s` to `s'` a Redis entry goes whose key has `n` bytes, or none that has any. -/
structure KeyGone (s s' : State) (n : ℕ) : Prop where
  bytes : s.keyBytes = s'.keyBytes + n
  key : n ≠ 0 → ∃ key ≠ [], (s.redisEntries.lookup key).isSome ∧ s'.redisEntries.lookup key = none

/-- What a step of the loop misses is the key it drops. -/
theorem keyBytes_step (h : Agrees s p) (hs : Step fromSlice s p c a p') :
    ∃ n, KeyGone s (a.apply s) n ∧
      (p.phase.looping → missed s p a = charge (.smallRedisMemory, n)) := by
  have hkeep (hr : a.onRedis s.redisEntries = s.redisEntries)
      (hm : p.phase.looping → missed s p a = 0) : ∃ n, KeyGone s (a.apply s) n ∧
        (p.phase.looping → missed s p a = charge (.smallRedisMemory, n)) :=
    ⟨0, ⟨by rw [State.keyBytes, State.keyBytes, Act.apply_redisEntries, hr]; rfl, absurd rfl⟩,
      fun hl => (hm hl).trans (Pi.single_zero _).symm⟩
  have hinert (ha : a.inert) : ∃ n, KeyGone s (a.apply s) n ∧
      (p.phase.looping → missed s p a = charge (.smallRedisMemory, n)) :=
    hkeep (Act.onRedis_inert ha _) fun _ => by cases a <;> first | rfl | cases ha
  cases hs with
  | @dropRedis hp pool b key t size rest e hb ha hpop he =>
    refine ⟨key.length, ⟨?_, fun hn => ⟨key, List.ne_nil_of_length_pos (Nat.pos_of_ne_zero hn),
      by rw [he]; rfl, ?_⟩⟩, fun _ => rfl⟩
    · rw [State.keyBytes, total_eq_erase _ _ key, share, he, Option.elim_some, add_comm,
        State.keyBytes, Act.apply_redisEntries]
      rfl
    · rw [Act.apply_redisEntries]
      exact AList.lookup_erase ..
  | @redisInsert key size t value id hp =>
    have hholds := h.holds
    rw [hp] at hholds
    obtain ⟨⟨u, he⟩, -⟩ := hholds
    refine ⟨0, ⟨?_, absurd rfl⟩, fun _ => (Pi.single_zero _).symm⟩
    have hins := total_insert_add_share (fun (key : Bytes) (_ : RedisEntry) => key.length)
      s.redisEntries key (.onDisk size id t)
    rw [share, he, Option.elim_some] at hins
    rw [State.keyBytes, State.keyBytes, Act.apply_redisEntries, add_zero]
    exact (Nat.add_right_cancel hins).symm
  | cascadeDrop hp => exact hkeep rfl fun _ => by simp [missed, hp, sweeping]
  | sweepDrop hp => exact hkeep rfl fun hl => by rw [hp] at hl; cases hl
  | writeFailed => exact hinert (Act.inert_leftover ..)
  | cascadeUnlink => exact hinert (Act.inert_unlink ..)
  | sweepUnlink => exact hinert (Act.inert_unlink ..)
  | _ => exact hkeep rfl fun _ => rfl

section
variable (s₀ : State)

/-- How many bytes of keys the pass has dropped, as a charge. -/
def keysDropped (s : State) : Bucket → ℕ := charge (.smallRedisMemory, s₀.keyBytes - s.keyBytes)

/-- The accumulators of the loop count the bytes in the maps and the dropped keys at most. -/
structure Under (s : State) (p : Pass) : Prop where
  keys : s.keyBytes ≤ s₀.keyBytes
  acc : p.phase.looping → ∀ b, p.acc b ≤ s.bytesIn b + keysDropped s₀ s b

/-- All bytes of keys are still there, or a Redis entry with a key of some bytes has gone. -/
def KeysLeft (s : State) : Prop :=
  s.keyBytes = s₀.keyBytes ∨ ∃ key ≠ [],
    (s₀.redisEntries.lookup key).isSome ∧ s.redisEntries.lookup key = none

end

theorem keysDropped_step {n : ℕ} (hle : s.keyBytes ≤ s₀.keyBytes)
    (hk : s.keyBytes = s'.keyBytes + n) (b : Bucket) :
    keysDropped s₀ s' b = keysDropped s₀ s b + charge (.smallRedisMemory, n) b := by
  have hn : s₀.keyBytes - s'.keyBytes = s₀.keyBytes - s.keyBytes + n := by omega
  rw [keysDropped, hn, charge_add]
  rfl

theorem credit_apply (p : Pass) (b b' : Bucket) (n : ℕ) :
    (p.credit b n).acc b' = p.acc b' - charge (b, n) b' := by
  by_cases h : b' = b
  · subst h; simp [charge]
  · simp [charge, h]

theorem debit_apply_le (p : Pass) (b b' : Bucket) (n : ℕ) :
    (p.debit b n).acc b' ≤ p.acc b' + charge (b, n) b' := by
  by_cases h : b' = b
  · subst h; simp [charge]
  · simp [charge, h]

theorem Under.step (h : Under s₀ s p) (hag : Agrees s p) (hs : Step fromSlice s p c a p')
    (hscan : p.phase.scanning = false) : Under s₀ (a.apply s) p' := by
  obtain ⟨n, ⟨hk, -⟩, hm⟩ := keyBytes_step hag hs
  refine ⟨le_trans (by omega) h.keys, fun hl b => ?_⟩
  have hl' := hs.looping hl hscan
  have hacc := h.acc hl' b
  have hkeys := keysDropped_step h.keys hk b
  cases hs.booked hag with
  | same heq hB hsp =>
    have hBb := congrFun hB b
    rw [hm hl'] at hBb
    simp only [Pi.add_apply] at hBb
    rw [heq]
    omega
  | @credit b₁ n₁ hB heq hb hsp =>
    have hBb := congrFun hB b
    rw [hm hl'] at hBb
    simp only [Pi.add_apply] at hBb
    rw [heq, credit_apply]
    omega
  | @move b₁ b₂ n₁ hbb hB hm₀ heq hb hsp =>
    have hBb := congrFun hB b
    have hn : charge (.smallRedisMemory, n) b = 0 := by rw [← hm hl', hm₀]; rfl
    have hone : charge (b₁, n₁) b = 0 ∨ charge (b₂, n₁) b = 0 := by
      by_cases hb₁ : b = b₁
      · subst hb₁
        exact .inr (Pi.single_eq_of_ne hbb _)
      · exact .inl (Pi.single_eq_of_ne hb₁ _)
    have hle := debit_apply_le (p.credit b₁ n₁) b₂ b n₁
    rw [credit_apply] at hle
    simp only [Pi.add_apply] at hBb
    rw [heq]
    omega

theorem KeysLeft.step (h : KeysLeft s₀ s) (hal : Alone fromSlice s₀ s p)
    (hs : Step fromSlice s p c a p') : KeysLeft s₀ (a.apply s) := by
  have hk := hal.keeps_step hs
  rcases h with h | ⟨key, hne, hin, hgone⟩
  · obtain ⟨n, hn, -⟩ := keyBytes_step hal.agrees hs
    by_cases h0 : n = 0
    · exact .inl (by have hb := hn.bytes; omega)
    · obtain ⟨key, hne, hin, hgone⟩ := hn.key h0
      obtain ⟨e, he⟩ := Option.isSome_iff_exists.mp hin
      obtain ⟨e₀, he₀, -⟩ := hal.keeps.redis key e he
      exact .inr ⟨key, hne, by rw [he₀]; rfl, hgone⟩
  · refine .inr ⟨key, hne, hin, ?_⟩
    cases he : (a.apply s).redisEntries.lookup key with
    | none => rfl
    | some e' =>
      obtain ⟨e, he, -⟩ := hk.redis key e' he
      rw [hgone] at he
      cases he

theorem of_evictsFor {pool : Pool} (h : pool ∈ evictsFor s p c) :
    p.phase = .loop ∧ p.arm s.config = some pool := by
  unfold evictsFor at h
  split at h
  · rename_i hp
    obtain ⟨pool', ha, h⟩ := Option.bind_eq_some_iff.mp h
    obtain ⟨r, -, h⟩ := Option.bind_eq_some_iff.mp h
    split at h
    · cases h
    · cases h
      exact ⟨hp, ha⟩
  · cases h

theorem evictsFor_scanning (h : p.phase.scanning) : evictsFor s p c = none := by
  unfold evictsFor
  split
  · rename_i hp
    rw [hp] at h
    cases h
  · rfl

/-- No budget counts a key that the pass has dropped, -/
theorem usage_keysDropped (hk : s.keyBytes = s₀.keyBytes) (pool : Pool) :
    pool.usage (fun b => s.bytesIn b + keysDropped s₀ s b) = pool.usage s.bytesIn := by
  have hz : keysDropped s₀ s = 0 := by
    rw [keysDropped, hk, Nat.sub_self]
    exact Pi.single_zero _
  rw [hz]
  rfl

/-- and the disk budget counts none at all. -/
theorem usage_disk_keysDropped :
    Pool.disk.usage (fun b => s.bytesIn b + keysDropped s₀ s b) = Pool.disk.usage s.bytesIn := by
  simp [Pool.usage, keysDropped, charge]

theorem Under.minimal (h : Under s₀ s p) (hl : KeysLeft s₀ s) {x' : State × Pass}
    (hc : KeysKept s₀ (s, p) c x') : Minimal (s, p) c x' := by
  intro pool hpool
  obtain ⟨hp, ha⟩ := of_evictsFor hpool
  have hle := pool.usage_mono (h.acc (by rw [hp]; rfl))
  have hsame : pool.usage (fun b => s.bytesIn b + keysDropped s₀ s b) = pool.usage s.bytesIn := by
    by_cases hdisk : pool = .disk
    · rw [hdisk]
      exact usage_disk_keysDropped
    · refine usage_keysDropped (hl.resolve_right ?_) pool
      rintro ⟨key, hne, hin, hgone⟩
      have hmem := hc pool hpool hdisk key (AList.mem_keys.mp (AList.lookup_isSome.mp hin)) hne
      have hsome := AList.lookup_isSome.mpr (AList.mem_keys.mpr hmem)
      rw [hgone] at hsome
      cases hsome
  have hopen : target (pool.limit s.config) < pool.usage p.acc := by
    have hnot := arm_open ha
    rw [Closed, not_or, not_le] at hnot
    exact hnot.1.trans_le (Nat.mod_le _ _)
  rw [hsame] at hle
  exact hopen.trans_le hle

theorem Under.start (s : State) : Under s (Act.countRun.apply s) (scanned fromSlice s) := by
  refine ⟨Nat.le_refl _, fun _ b => ?_⟩
  exact (scanned_acc s b).trans_le ((Nat.mod_le _ _).trans (Nat.le_add_right _ _))

/-- Every arm is closed, or the loop is over. -/
def Idle (s : State) (p : Pass) : Prop :=
  p.phase.looping → p.phase = .loop ∧ ∀ pool, p.Closed s.config pool

theorem Idle.next (h : Idle s p) (hscan : p.phase.scanning = false)
    (hn : next fromSlice s p c = some (a, p')) : Idle (a.apply s) p' := by
  intro hl
  obtain ⟨hp, hclosed⟩ := h ((step_of_next hn).looping hl hscan)
  have harm : p.arm s.config = none := by
    cases ha : p.arm s.config with
    | none => rfl
    | some pool => exact absurd (hclosed pool) (arm_open ha)
  simp only [Pass.next, hp, harm, Option.some.injEq, Prod.mk.injEq] at hn
  rw [← hn.2] at hl
  cases hl

end Pass

/-- In a pass that runs alone an iteration evicts for a budget that what is in the maps exceeds,
if none evicts for a memory budget once an entry with a key of some bytes has been dropped. With
all budgets met at its start the pass evicts nothing. -/
theorem evict_minimal_of_keysKept (fromSlice : Bytes → Option Json) (s : State)
    (choices : List Choice) :
    (Along (Pass.step fromSlice) (Pass.KeysKept s) (s, .start) choices →
      Along (Pass.step fromSlice) Pass.Minimal (s, .start) choices) ∧
    ((∀ pool : Pool, pool.usage s.bytesIn ≤ Pass.target (pool.limit s.config)) →
      Along (Pass.step fromSlice) (fun x c _ => Pass.evictsFor x.1 x.2 c = none) (s, .start)
        choices) := by
  have hnone {x : State × Pass} {c : Choice} (hx : x.2.phase.scanning) (pool : Pool) :
      pool ∉ Pass.evictsFor x.1 x.2 c := by
    rw [Pass.evictsFor_scanning hx]
    nofun
  rw [Pass.along_scanned fun x c x' hx pool hp => absurd hp (hnone hx pool),
    Pass.along_scanned fun x c x' hx pool hp => absurd hp (hnone hx pool),
    Pass.along_scanned fun x c x' hx => Pass.evictsFor_scanning hx]
  refine ⟨fun hkept => ?_, fun hmet => ?_⟩
  · refine along_of_invariant (I := fun x => Pass.Alone fromSlice s x.1 x.2 ∧
      x.2.phase.scanning = false ∧ Pass.Under s x.1 x.2 ∧ Pass.KeysLeft s x.1)
      (fun x c x' hi hc hs => ?_) ⟨.start s, rfl, .start s, .inl rfl⟩ hkept
    obtain ⟨a, q, hn, rfl⟩ := Pass.step_eq_some.mp hs
    have hst := Pass.step_of_next hn
    obtain ⟨hal, hscan, hunder, hleft⟩ := hi
    exact ⟨⟨hal.step hst, hst.scanning hscan, hunder.step hal.agrees hst hscan,
      hleft.step hal hst⟩, hunder.minimal hleft hc⟩
  · have hclosed : ∀ pool, (Pass.scanned fromSlice s).Closed s.config pool := by
      intro pool
      have hle : pool.usage (Pass.scanned fromSlice s).acc ≤ pool.usage s.bytesIn :=
        pool.usage_mono fun b => (Pass.scanned_acc s b).trans_le (Nat.mod_le _ _)
      exact .inl ((Nat.mod_le _ _).trans (hle.trans (hmet pool)))
    refine along_of_invariant (C := fun _ _ _ => True) (I := fun x => Pass.Idle x.1 x.2 ∧
      x.2.phase.scanning = false) (fun x c x' hi _ hs => ?_) ⟨fun _ => ⟨rfl, hclosed⟩, rfl⟩
      (along_true _ _)
    obtain ⟨a, q, hn, rfl⟩ := Pass.step_eq_some.mp hs
    refine ⟨⟨hi.1.next hi.2 hn, (Pass.step_of_next hn).scanning hi.2⟩, ?_⟩
    by_contra hev
    obtain ⟨pool, hpool⟩ := Option.ne_none_iff_exists'.mp hev
    obtain ⟨hp, ha⟩ := Pass.of_evictsFor hpool
    exact Pass.arm_open ha ((hi.1 (by rw [hp]; rfl)).2 pool)

/-- Two Redis entries with keys of ten bytes and values of one. -/
def longKeys (smallLimit : ℕ) : State :=
  ((State.new ⟨1000, some smallLimit, 1000⟩ 1).insertRedis (List.replicate 10 97) [1]).insertRedis
    (List.replicate 10 98) [2]

/-- Dropping one entry meets a target of 21 bytes. -/
theorem evict_minimal_of_keysKept_longKeys :
    ((run (Pass.step imageJson) (longKeys 28, .start) (List.replicate 15 {})).map
      fun x => (x.2.phase, x.1.redisEntries.keys.length)) = some (.done, 1) ∧
    Along (Pass.step imageJson) Pass.Minimal (longKeys 28, .start) (List.replicate 15 {}) :=
  ⟨by decide +kernel, (evict_minimal_of_keysKept imageJson (longKeys 28) _).1 (by decide +kernel)⟩

/-- Dropping one entry meets a target of 12 bytes, and the pass drops both. -/
theorem evicts_with_budget_met :
    ((run (Pass.step imageJson) (longKeys 16, .start) (List.replicate 16 {})).map
      fun x => (x.2.phase, x.1.redisEntries.keys.length)) = some (.done, 0) ∧
    ¬ Along (Pass.step imageJson) Pass.Minimal (longKeys 16, .start) (List.replicate 16 {}) := by
  constructor
  · decide +kernel
  · decide +kernel

end Dockfoxprox
