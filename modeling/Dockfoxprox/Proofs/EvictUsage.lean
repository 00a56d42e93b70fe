import Dockfoxprox.Proofs.Accumulators
import Dockfoxprox.Proofs.Calls

/-! Usage accounting of a pass that runs alone. The pass stores six of its accumulators
into the counters at its end, with the bytes it missed; and a Redis spill moves bytes
between two buckets without the counters, which only the final stores make up for. -/

namespace Dockfoxprox

open MapSum Machine

namespace Pass

variable {fromSlice : Bytes → Option Json} {s₀ s s' : State} {p p' : Pass} {c : Choice} {a : Act}

/-- What `n` bytes of Redis spills leave wrong in the counters. -/
def skew (n : ℕ) : Usage :=
  toUsage (charge (.largeRedisMemory, n)) - toUsage (charge (.redisDisk, n))

theorem skew_add (m n : ℕ) : skew (m + n) = skew m + skew n := by
  simp only [skew, charge_add, toUsage_add]
  abel

@[simp] theorem skew_zero : skew 0 = 0 := by
  simp [skew, charge]

/-- Every act but a final store moves the counters with the bytes, up to a Redis spill. -/
theorem Step.usage_balance (h : Agrees s p) (hs : Step fromSlice s p c a p')
    (hst : ∀ b n, a ≠ .store b n) :
    (a.apply s).usage + toUsage s.bytesIn =
      s.usage + toUsage (a.apply s).bytesIn + skew a.spilled := by
  have hinert (ha : a.inert) (hsp : a.spilled = 0) : (a.apply s).usage + toUsage s.bytesIn =
      s.usage + toUsage (a.apply s).bytesIn + skew a.spilled := by
    rw [Act.usage_inert s ha, Act.bytesIn_inert ha, hsp, skew_zero, add_zero]
  have hop (op : Op) (hu : (a.apply s).usage = (op.apply s).usage)
      (hB : (a.apply s).bytesIn = (op.apply s).bytesIn) (hsp : a.spilled = 0) :
      (a.apply s).usage + toUsage s.bytesIn =
        s.usage + toUsage (a.apply s).bytesIn + skew a.spilled := by
    rw [hu, hB, hsp, skew_zero, add_zero]
    exact Op.apply_balance s op
  cases a with
  | markEvicted d =>
    have hu : ((Act.markEvicted d).apply s).usage = s.usage := by
      simp only [Act.apply]
      split <;> rfl
    have hsp : (Act.markEvicted d).spilled = 0 := rfl
    rw [Act.bytesIn_markEvicted, hu, hsp, skew_zero, add_zero]
  | moveBlob d b => exact hop (.insertBlob d b) rfl rfl rfl
  | dropRedis key => exact hop (.removeRedis key) rfl rfl rfl
  | dropManifest d => exact hop (.removeManifest d) rfl rfl rfl
  | dropBlob d => exact hop (.removeBlob d) rfl rfl rfl
  | moveRedis key size t id =>
    obtain ⟨value, hp⟩ := hs.moveRedis_inv rfl
    have hholds := h.holds
    rw [hp] at hholds
    obtain ⟨⟨t', hl⟩, rfl, hlarge⟩ := hholds
    have hbucket : redisValueBucket (.inMemory value id t') = (.largeRedisMemory, value.length) := by
      simp [redisValueBucket, hlarge]
    have hB : toUsage (((Act.moveRedis key value.length t id).apply s).bytesIn + _) = toUsage _ :=
      congrArg toUsage (Act.bytesIn_moveRedis hl)
    rw [hbucket, toUsage_add, toUsage_add] at hB
    have hu : ((Act.moveRedis key value.length t id).apply s).usage = s.usage := rfl
    rw [hu, eq_sub_of_add_eq hB, Act.spilled, skew]
    abel
  | store b n => exact absurd rfl (hst b n)
  | _ => exact hinert rfl rfl

/-- The counters whose final store has run. -/
def stored : Phase → Bucket → Bool
  | .store left, b => b ∈ finalStores ∧ b ∉ left
  | .done, b => b ∈ finalStores
  | _, _ => false

/-- A step either stores a counter, ends the stores, or happens before them. -/
theorem Step.stores (hs : Step fromSlice s p c a p') :
    (∃ b rest, p.phase = .store (b :: rest) ∧ a = .store b (p.acc b) ∧
      p' = p.goto (.store rest)) ∨
    (p.phase = .store [] ∧ a = .idle ∧ p' = p.goto .done) ∨
    ((∀ b, stored p.phase b = false) ∧ (∀ b, stored p'.phase b = false) ∧
      (∀ left, p'.phase = .store left → left = finalStores) ∧ ∀ b n, a ≠ .store b n) := by
  have hni {a : Act} (ha : a.inert) (b : Bucket) (n : ℕ) : a ≠ .store b n := by
    rintro rfl
    cases ha
  cases hs with
  | store hp => exact .inl ⟨_, _, hp, rfl, rfl⟩
  | storeEnd hp => exact .inr (.inl ⟨hp, rfl, rfl⟩)
  | publish hp =>
    refine .inr (.inr ⟨fun b => by rw [hp]; rfl, fun b => ?_, fun l hl => ?_, fun _ _ => nofun⟩)
    · simp [stored]
    · cases hl
      rfl
  | writeFailed hp hw =>
    refine .inr (.inr ⟨fun b => ?_, fun b => rfl, fun l hl => ?_, hni (Act.inert_leftover ..)⟩)
    · rcases hp with ⟨_, _, _, hp, -⟩ | ⟨_, _, _, _, hp⟩ <;> rw [hp] <;> rfl
    · cases hl
  | cascadeUnlink hp =>
    exact .inr (.inr ⟨fun b => by rw [hp]; rfl, fun b => rfl, fun _ hl => (by cases hl),
      hni (Act.inert_unlink ..)⟩)
  | sweepUnlink hp =>
    exact .inr (.inr ⟨fun b => by rw [hp]; rfl, fun b => rfl, fun _ hl => (by cases hl),
      hni (Act.inert_unlink ..)⟩)
  | @cascadeDrop old r todo bb blob hp hb hr ht hl =>
    refine .inr (.inr ⟨fun b => by rw [hp]; rfl, fun b => ?_, fun l hl => ?_, fun _ _ => nofun⟩)
    · cases blob <;> rfl
    · cases blob <;> cases hl
  | @sweepDrop todo r bb blob hp hd hb hr ht hl =>
    refine .inr (.inr ⟨fun b => by rw [hp]; rfl, fun b => ?_, fun l hl => ?_, fun _ _ => nofun⟩)
    · cases blob <;> rfl
    · cases blob <;> cases hl
  | stale hp ha hpop hst =>
    refine .inr (.inr ⟨fun b => by rw [hp]; rfl, fun b => ?_, fun l hl => ?_, fun _ _ => nofun⟩)
    · rw [popped_phase, hp]; rfl
    · rw [popped_phase, hp] at hl; cases hl
  | dropRedis hp hb ha hpop he =>
    refine .inr (.inr ⟨fun b => by rw [hp]; rfl, fun b => ?_, fun l hl => ?_, fun _ _ => nofun⟩)
    · rw [credit_phase, popped_phase, hp]; rfl
    · rw [credit_phase, popped_phase, hp] at hl; cases hl
  | _ hp =>
    exact .inr (.inr ⟨fun b => by rw [hp]; rfl, fun b => rfl, fun _ hl => (by cases hl),
      fun _ _ => nofun⟩)

/-- The bytes of Redis values the pass has spilled so far. -/
def spillDebt (s₀ : State) (p : Pass) : ℕ :=
  s₀.bytesIn .largeRedisMemory - p.acc .largeRedisMemory

structure Books (s₀ s : State) (p : Pass) : Prop where
  agrees : Agrees s p
  le : s.bytesIn ≤ p.acc
  bound : grand p.acc ≤ grand s₀.bytesIn
  manifest : p.acc .manifestMemory = s.bytesIn .manifestMemory
  large : p.acc .largeRedisMemory ≤ s₀.bytesIn .largeRedisMemory
  left : ∀ l, p.phase = .store l → l <:+ finalStores
  usage : ∀ b, s.usage b = if stored p.phase b then (p.acc b : BitVec 64)
    else (toUsage s.bytesIn + skew (spillDebt s₀ p)) b

theorem missed_manifest (s : State) (p : Pass) (a : Act) : missed s p a .manifestMemory = 0 := by
  cases a with
  | dropRedis key => simp [missed, charge]
  | dropBlob d =>
    simp only [missed, ite_apply]
    split
    · unfold share
      cases s.blobs.lookup d with
      | none => rfl
      | some b =>
        cases b with
        | onDisk id size mt t => simp [blobCharge, blobBucket, charge]
        | inMemory id content mt t =>
          simp only [Option.elim_some, blobCharge, blobBucket]
          split <;> simp [charge]
    · rfl
  | _ => rfl

/-- The error of the accumulators grows by what a step misses. -/
theorem Books.error (h : Books s₀ s p) (ha : Accounted s p a p') :
    grand p'.acc - grand (a.apply s).bytesIn =
      grand p.acc - grand s.bytesIn + grand (missed s p a) := by
  have hb := congrArg grand ha.balance
  rw [grand_add, grand_add, grand_add] at hb
  have hle : grand s.bytesIn ≤ grand p.acc := grand_mono h.le
  omega

theorem Books.debt (h : Books s₀ s p) (ha : Accounted s p a p') :
    spillDebt s₀ p' = spillDebt s₀ p + a.spilled := by
  have h1 := h.large
  have h2 := ha.large
  unfold spillDebt
  omega

theorem Books.step (hfit : grand s₀.bytesIn < 2 ^ 64) (h : Books s₀ s p)
    (hs : Step fromSlice s p c a p') : Books s₀ (a.apply s) p' := by
  have ha := hs.accounted h.agrees h.le (lt_of_le_of_lt h.bound hfit)
  have hlarge := ha.large
  have hdebt := h.debt ha
  refine ⟨h.agrees.step hs, fun b => ?_, ha.shrink.trans h.bound, ?_, ?_, fun l hl => ?_,
    fun b => ?_⟩
  · have hb := congrFun ha.balance b
    have hle : s.bytesIn b ≤ p.acc b := h.le b
    simp only [Pi.add_apply] at hb
    show (a.apply s).bytesIn b ≤ p'.acc b
    omega
  · have hb := congrFun ha.balance .manifestMemory
    have hm := h.manifest
    simp only [Pi.add_apply, missed_manifest] at hb
    omega
  · have := h.large
    omega
  · rcases hs.stores with ⟨b, rest, hp, -, rfl⟩ | ⟨-, -, rfl⟩ | ⟨-, -, hl', -⟩
    · cases hl
      exact (List.suffix_cons b l).trans (h.left _ hp)
    · cases hl
    · rw [hl' l hl]
  · rcases hs.stores with ⟨b', rest, hp, rfl, rfl⟩ | ⟨hp, rfl, rfl⟩ | ⟨hn, hn', -, hst⟩
    · have hsub := h.left _ hp
      have hnodup : (b' :: rest).Nodup := hsub.sublist.nodup (by decide)
      have hb' : b' ∈ finalStores := hsub.subset (by simp)
      have hu := h.usage b
      simp only [hp, stored, List.mem_cons, not_or] at hu
      simp only [Act.apply, goto_phase, goto_acc, stored]
      by_cases hb : b = b'
      · subst hb
        simp [hb', (List.nodup_cons.mp hnodup).1]
      · rw [Function.update_of_ne hb, hu]
        simp only [hb, not_false_eq_true, true_and]
        rfl
    · have hu := h.usage b
      simp only [hp, stored, List.not_mem_nil, not_false_eq_true, and_true] at hu
      exact hu
    · have hub := hs.usage_balance h.agrees hst
      have hu : s.usage = toUsage s.bytesIn + skew (spillDebt s₀ p) := by
        funext b
        rw [h.usage b, hn b]
        rfl
      have hu' : (a.apply s).usage = toUsage (a.apply s).bytesIn + skew (spillDebt s₀ p') := by
        rw [hdebt, skew_add, eq_sub_of_add_eq hub, hu]
        abel
      rw [hn' b, hu']
      rfl

theorem Scanned.acc_eq (hs : Scanned fromSlice s p) (hfit : grand s.bytesIn < 2 ^ 64) :
    p.acc = s.bytesIn := by
  funext b
  rw [hs.acc b]
  exact Nat.mod_eq_of_lt (lt_of_le_of_lt (le_grand s.bytesIn b) hfit)

theorem Scanned.books (hs : Scanned fromSlice s p) (husage : s.usage = s.recomputed)
    (hfit : grand s.bytesIn < 2 ^ 64) : Books s (Act.countRun.apply s) p := by
  have hacc := hs.acc_eq hfit
  refine ⟨hs.agrees.frame rfl rfl rfl rfl hs.agrees.holds, fun b => (congrFun hacc b).ge,
    le_of_eq (congrArg grand hacc), congrFun hacc _, (congrFun hacc _).le, fun l hl => ?_,
    fun b => ?_⟩
  · rw [hs.phase] at hl
    cases hl
  · have hdebt : spillDebt s p = 0 := by
      unfold spillDebt
      rw [hacc, Nat.sub_self]
    have hu : s.usage = toUsage s.bytesIn := husage.trans (recomputed_eq s)
    rw [hs.phase, hdebt, skew_zero, add_zero]
    exact congrFun hu b

/-! ### What a returned pass leaves in the counters -/

theorem natCast_inj {m n : ℕ} (hm : m < 2 ^ 64) (hn : n < 2 ^ 64) :
    (m : BitVec 64) = (n : BitVec 64) ↔ m = n := by
  constructor
  · intro h
    have h' := congrArg BitVec.toNat h
    simp only [BitVec.natCast_eq_ofNat, BitVec.toNat_ofNat] at h'
    omega
  · rintro rfl
    rfl

/-- After the final stores the counters are exact if and only if the accumulators are. -/
theorem Books.usage_done (h : Books s₀ s p) (hfit : grand s₀.bytesIn < 2 ^ 64)
    (hd : p.phase = .done) :
    s.usage = s.recomputed ↔ grand p.acc - grand s.bytesIn = 0 := by
  have hle : ∀ b, s.bytesIn b ≤ p.acc b := h.le
  have hacc (b : Bucket) : p.acc b < 2 ^ 64 :=
    lt_of_le_of_lt ((le_grand _ b).trans h.bound) hfit
  have hmem (b : Bucket) (hb : b ≠ .manifestMemory) : b ∈ finalStores := by
    cases b <;> first | exact absurd rfl hb | decide
  have hiff : s.usage = s.recomputed ↔ p.acc = s.bytesIn := by
    rw [recomputed_eq]
    constructor
    · intro heq
      funext b
      by_cases hb : b = .manifestMemory
      · rw [hb]
        exact h.manifest
      · have hu := h.usage b
        simp only [hd, stored, hmem b hb, decide_true, if_true] at hu
        rw [heq] at hu
        exact ((natCast_inj (lt_of_le_of_lt (hle b) (hacc b)) (hacc b)).mp hu).symm
    · intro heq
      funext b
      rw [h.usage b, hd]
      by_cases hb : b = .manifestMemory
      · subst hb
        have hsk : skew (spillDebt s₀ p) .manifestMemory = 0 := by
          simp [skew, toUsage, charge]
        simp [stored, finalStores, hsk]
      · simp only [stored, hmem b hb, decide_true, if_true, heq]
        rfl
  rw [hiff]
  constructor
  · intro heq
    rw [heq, Nat.sub_self]
  · intro hz
    exact (eq_of_grand_le hle (Nat.sub_eq_zero_iff_le.mp hz)).symm

/-- A pass that failed leaves the counters as its Redis spills have skewed them. -/
theorem Books.usage_failed (h : Books s₀ s p) (hfit : grand s₀.bytesIn < 2 ^ 64)
    (hd : p.phase = .failed) : s.usage = s.recomputed ↔ spillDebt s₀ p = 0 := by
  have hu : s.usage = toUsage s.bytesIn + skew (spillDebt s₀ p) := by
    funext b
    rw [h.usage b, hd]
    rfl
  rw [recomputed_eq, hu, add_eq_left]
  constructor
  · intro hz
    have hL := congrFun hz .largeRedisMemory
    have hlt : spillDebt s₀ p < 2 ^ 64 := by
      have := le_grand s₀.bytesIn .largeRedisMemory
      unfold spillDebt
      omega
    refine (natCast_inj hlt (by decide)).mp ?_
    simpa [skew, toUsage, charge] using hL
  · intro hz
    rw [hz, skew_zero]

/-- The step drops no Redis entry with a key and sweeps no blob with bytes. -/
def DropCredited (s : State) (p : Pass) : Act → Prop
  | .dropRedis key => key = []
  | .dropBlob d => sweeping p.phase → ∀ b ∈ s.blobs.lookup d, (blobBucket b).2 = 0
  | _ => True

instance (s : State) (p : Pass) (a : Act) : Decidable (DropCredited s p a) :=
  match a with
  | .dropRedis key => inferInstanceAs (Decidable (key = []))
  | .dropBlob d => inferInstanceAs
      (Decidable (sweeping p.phase → ∀ b ∈ s.blobs.lookup d, (blobBucket b).2 = 0))
  | .idle | .countRun | .markEvicted _ | .writeFile _ _ | .moveBlob _ _ | .moveRedis _ _ _ _
  | .dropManifest _ | .retainTags _ | .removeFile _ | .publish _ _ _ | .store _ _ => isTrue trivial

/-- The step is not the insert of a Redis spill. -/
def NoRedisSpill (_ : State) (_ : Pass) : Act → Prop
  | .moveRedis _ _ _ _ => False
  | _ => True

/-- A Redis spill moves at least one byte. -/
theorem spilled_eq_zero (h : Agrees s p) (hs : Step fromSlice s p c a p') :
    a.spilled = 0 ↔ NoRedisSpill s p a := by
  cases a with
  | moveRedis key size t id =>
    obtain ⟨value, hp⟩ := hs.moveRedis_inv rfl
    have hholds := h.holds
    rw [hp] at hholds
    obtain ⟨-, -, hlarge⟩ := hholds
    simp only [Act.spilled, NoRedisSpill, iff_false]
    omega
  | _ => simp [Act.spilled, NoRedisSpill]

theorem grand_missed {s : State} {p : Pass} {a : Act} :
    grand (missed s p a) = 0 ↔ DropCredited s p a := by
  cases a with
  | dropRedis key => simp [missed, DropCredited]
  | dropBlob d =>
    simp only [missed, DropCredited]
    split
    · rename_i hsw
      unfold share
      cases s.blobs.lookup d with
      | none => simp [hsw, grand]
      | some b => simp [hsw, blobCharge]
    · rename_i hsw
      simp [hsw, grand]
  | _ => simp [missed, DropCredited, grand]

theorem Books.error_step (hfit : grand s₀.bytesIn < 2 ^ 64) {x x' : State × Pass}
    (h : Books s₀ x.1 x.2) (hs : Pass.step fromSlice x c = some x') :
    Books s₀ x'.1 x'.2 ∧
      grand x.2.acc - grand x.1.bytesIn ≤ grand x'.2.acc - grand x'.1.bytesIn ∧
      (grand x'.2.acc - grand x'.1.bytesIn = grand x.2.acc - grand x.1.bytesIn ↔
        OnAct fromSlice DropCredited x c x') := by
  obtain ⟨a, q, hn, rfl⟩ := step_eq_some.mp hs
  have hst := step_of_next hn
  have herr := h.error (hst.accounted h.agrees h.le (lt_of_le_of_lt h.bound hfit))
  refine ⟨h.step hfit hst, by simp only [herr]; omega, ?_⟩
  rw [onAct_iff hn, ← grand_missed]
  simp only [herr]
  omega

theorem Books.debt_step (hfit : grand s₀.bytesIn < 2 ^ 64) {x x' : State × Pass}
    (h : Books s₀ x.1 x.2) (hs : Pass.step fromSlice x c = some x') :
    Books s₀ x'.1 x'.2 ∧ spillDebt s₀ x.2 ≤ spillDebt s₀ x'.2 ∧
      (spillDebt s₀ x'.2 = spillDebt s₀ x.2 ↔ OnAct fromSlice NoRedisSpill x c x') := by
  obtain ⟨a, q, hn, rfl⟩ := step_eq_some.mp hs
  have hst := step_of_next hn
  have hdebt := h.debt (hst.accounted h.agrees h.le (lt_of_le_of_lt h.bound hfit))
  refine ⟨h.step hfit hst, by simp only [hdebt]; omega, ?_⟩
  rw [onAct_iff hn, ← spilled_eq_zero h.agrees hst]
  simp only [hdebt]
  omega

end Pass

/-- The counters after a pass that ran alone are what `recompute_usage` counts if and only
if, when it returned Ok, it dropped no Redis entry with a key and swept no blob with bytes,
and, when it returned Err, it had spilled no Redis value. -/
theorem evict_usage_exact_iff (fromSlice : Bytes → Option Json) (s : State)
    (husage : s.usage = s.recomputed) (hfit : grand s.bytesIn < 2 ^ 64) (choices : List Choice)
    (s' : State) (p' : Pass)
    (hr : run (Pass.step fromSlice) (s, .start) choices = some (s', p')) :
    (p'.phase = .done → (s'.usage = s'.recomputed ↔
      Along (Pass.step fromSlice) (Pass.OnAct fromSlice Pass.DropCredited) (s, .start) choices)) ∧
    (p'.phase = .failed → (s'.usage = s'.recomputed ↔
      Along (Pass.step fromSlice) (Pass.OnAct fromSlice Pass.NoRedisSpill) (s, .start) choices)) := by
  have hsc : Pass.Scanned fromSlice s _ := Pass.scanned_spec s
  have h0 := hsc.books husage hfit
  have hacc := hsc.acc_eq hfit
  constructor
  · intro hd
    obtain ⟨_, _, _, _, rest, rfl, hrun⟩ := Pass.run_start hr (.inl hd)
    have hb := Pass.run_keeps (I := Pass.Books s) (fun _ _ _ _ _ hi hs => hi.step hfit hs) h0 hrun
    have hiff := (along_iff_measure (I := fun x => Pass.Books s x.1 x.2)
      (fun _ c _ hi hs => Pass.Books.error_step (c := c) hfit hi hs) h0 hrun).2
    have hz : grand (Pass.scanned fromSlice s).acc - grand (Act.countRun.apply s).bytesIn = 0 := by
      rw [hacc]
      exact Nat.sub_self _
    rw [hb.usage_done hfit hd, Pass.along_start (fun _ _ => trivial) (fun _ _ => trivial), ← hiff,
      hz]
  · intro hd
    obtain ⟨_, _, _, _, rest, rfl, hrun⟩ := Pass.run_start hr (.inr hd)
    have hb := Pass.run_keeps (I := Pass.Books s) (fun _ _ _ _ _ hi hs => hi.step hfit hs) h0 hrun
    have hiff := (along_iff_measure (I := fun x => Pass.Books s x.1 x.2)
      (fun _ c _ hi hs => Pass.Books.debt_step (c := c) hfit hi hs) h0 hrun).2
    have hz : Pass.spillDebt s (Pass.scanned fromSlice s) = 0 := by
      unfold Pass.spillDebt
      rw [hacc, Nat.sub_self]
    rw [hb.usage_failed hfit hd, Pass.along_start (fun _ _ => trivial) (fun _ _ => trivial),
      ← hiff, hz]

/-- A proxy that holds one small Redis entry. -/
def oneKey (config : Config) : State := (State.new config 0).insertRedis [107] [97]

theorem oneKey_usage (config : Config) : (oneKey config).usage = (oneKey config).recomputed := by
  funext b
  cases b <;> rfl

/-- A proxy with a Redis entry that is spilled when memory is short, and one under the empty key
that is dropped. -/
def tightKeys : State :=
  ((State.new ⟨1000, some 0, 10000⟩ 0).insertRedis [107] (List.replicate 1025 97)).insertRedis []
    [98]

/-- The pass drops the one and spills the other, and stores exact counters. -/
theorem evict_usage_exact_iff_tight :
    ∃ s' p', run (Pass.step fun _ => none) (tightKeys, .start) (List.replicate 18 {}) =
        some (s', p') ∧ p'.phase = .done ∧ s'.redisEntries.lookup [] = none ∧
      s'.redisEntries.lookup [107] = some (.onDisk 1025 0 0) ∧ s'.usage = s'.recomputed := by
  have hend : ((run (Pass.step fun _ => none) (tightKeys, .start)
      (List.replicate 18 {})).map fun x => (x.2.phase, x.1.redisEntries.lookup [],
        x.1.redisEntries.lookup [107])) = some (.done, none, some (.onDisk 1025 0 0)) := by
    decide +kernel
  obtain ⟨⟨s', p'⟩, hr, hp⟩ := Option.map_eq_some_iff.mp hend
  simp only [Prod.mk.injEq] at hp
  obtain ⟨hp, hdropped, hspilled⟩ := hp
  have husage : tightKeys.usage = tightKeys.recomputed := by
    funext b
    cases b <;> decide +kernel
  have h := evict_usage_exact_iff (fun _ => none) tightKeys husage (by decide +kernel)
    (List.replicate 18 {}) s' p' hr
  exact ⟨s', p', hr, hp, hdropped, hspilled, (h.1 hp).mpr (by decide +kernel)⟩

/-- Over its limits the pass drops the entry, and the counter of the small pool keeps the
byte of its key. -/
theorem evict_keeps_dropped_key :
    (oneKey ⟨0, none, 0⟩).usage = (oneKey ⟨0, none, 0⟩).recomputed ∧
    ∃ s' p', run (Pass.step fun _ => none) (oneKey ⟨0, none, 0⟩, .start)
      (List.replicate 15 {}) = some (s', p') ∧ p'.phase = .done ∧
      s'.usage .smallRedisMemory = 1 ∧ s'.recomputed .smallRedisMemory = 0 := by
  refine ⟨oneKey_usage _, ?_⟩
  have hend : ((run (Pass.step fun _ => none) (oneKey ⟨0, none, 0⟩, .start)
      (List.replicate 15 {})).map fun x => (x.2.phase, x.1.usage .smallRedisMemory,
        x.1.recomputed .smallRedisMemory)) = some (.done, 1, 0) := by decide +kernel
  obtain ⟨⟨s', p'⟩, hr, hp⟩ := Option.map_eq_some_iff.mp hend
  simp only [Prod.mk.injEq] at hp
  exact ⟨s', p', hr, hp⟩

end Dockfoxprox
