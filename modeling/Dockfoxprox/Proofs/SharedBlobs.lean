import Dockfoxprox.Proofs.Pools
import Dockfoxprox.Proofs.References

/-! The reference counts of a pass are exact, so a blob that several manifests share leaves
memory only once all of them are flagged evicted. None of the counters a pass subtracts from
falls below what it subtracts. -/

namespace Dockfoxprox

open MapSum Machine

/-- One `saturating_sub`: of a counter, or of two times. -/
structure Subtraction where
  ofTimes : Bool
  minuend : ℕ
  subtrahend : ℕ
deriving DecidableEq

/-- The result is cut off at zero. -/
def Subtraction.Clamps (q : Subtraction) : Prop := q.minuend < q.subtrahend

instance (q : Subtraction) : Decidable q.Clamps := inferInstanceAs (Decidable (_ < _))

namespace Pass

/-- The drop of a candidate takes its bytes out of an accumulator. -/
def dropSubtractions (s : State) (p : Pass) : Pool → Candidate → List Subtraction
  | .largeMemory, _ => []
  | .smallMemory, .manifest _ d | .disk, .manifest _ d =>
    match (s.removeManifest d).1 with
    | none => []
    | some m => [⟨false, p.acc .manifestMemory, m.content.length⟩]
  | .smallMemory, .redis key _ size =>
    if (s.removeRedis key).1 then [⟨false, p.acc .smallRedisMemory, size⟩] else []
  | .disk, .redis key _ size =>
    if (s.removeRedis key).1 then [⟨false, p.acc .redisDisk, size⟩] else []

/-- A visit takes one unevicted reference away, unless the manifest was flagged before. -/
def visitSubtractions (p : Pass) (old : Bool) (r : Digest) : List Subtraction :=
  match p.blobs.lookup r with
  | none => []
  | some bb => if old then [] else [⟨false, bb.unevictedRefs, 1⟩]

/-- The cascade takes one reference away as well, and the bytes of a blob it removes. -/
def cascadeSubtractions (s : State) (p : Pass) (r : Digest) : List Subtraction :=
  match p.blobs.lookup r with
  | none => []
  | some bb =>
    ⟨false, bb.refs, 1⟩ :: if bb.refs - 1 ≠ 0 then [] else
      ⟨true, p.now, blobGraceSeconds⟩ ::
        if bb.lastAccessed > p.now - blobGraceSeconds then []
        else match (s.removeBlob r).1 with
          | none => []
          | some blob => [⟨false, p.acc (blobBucket blob).1, (blobBucket blob).2⟩]

def sweepSubtractions (p : Pass) (d : Digest) : List Subtraction :=
  match p.blobs.lookup d with
  | none => []
  | some bb => if bb.refs ≠ 0 then [] else [⟨true, p.now, bb.lastAccessed⟩]

/-- Every `saturating_sub` that a step of the pass calls. -/
def subtractions (s : State) (p : Pass) (c : Choice) : List Subtraction :=
  match p.phase with
  | .loop =>
    match p.arm s.config with
    | none => []
    | some pool =>
      match popOldest (p.heap pool) c.pick with
      | none => []
      | some (candidate, _) => p.dropSubtractions s pool candidate
  | .spillBlobs sp =>
    match sp.todo with
    | [] => []
    | r :: _ => p.visitSubtractions sp.old r
  | .spillInsert _ _ held => [⟨false, p.acc .largeBlobMemory, held.content.length⟩]
  | .redisInsert _ size _ _ _ => [⟨false, p.acc .largeRedisMemory, size⟩]
  | .cascade old todo =>
    match todo with
    | [] => []
    | r :: _ => p.visitSubtractions old r ++ p.cascadeSubtractions s r
  | .sweep todo =>
    match todo[c.pick]? with
    | none => []
    | some d => p.sweepSubtractions d
  | _ => []

/-- The clock is in its first hours, or a blob was used later than now. -/
def ClockBehind (s : State) : Prop :=
  s.now < blobGraceSeconds ∨ ∃ d b, s.blobs.lookup d = some b ∧ s.now < b.lastAccessed

/-- The table keeps the access times of the start, and the pass its time. -/
structure Clocked (s₀ : State) (p : Pass) : Prop where
  now : p.now = s₀.now
  times : ∀ d bb, p.blobs.lookup d = some bb →
    ∃ b, s₀.blobs.lookup d = some b ∧ b.lastAccessed = bb.lastAccessed

section
variable (fromSlice : Bytes → Option Json)

/-- What the pass has spilled or is spilling has no unevicted reference. -/
structure SpilledCold (s₀ s : State) (p : Pass) : Prop where
  spilled : ∀ d id content mt t, s₀.blobs.lookup d = some (.inMemory id content mt t) →
    ∀ id' size' mt' t', s.blobs.lookup d = some (.onDisk id' size' mt' t') →
      unevictedTo fromSlice s.manifests d = 0
  held : ∀ r held, p.phase.held = some (r, held) → unevictedTo fromSlice s.manifests r = 0

/-- What a pass on its own keeps of its counts while no counter overflows. -/
structure Counting (s₀ s : State) (p : Pass) : Prop where
  alone : Alone fromSlice s₀ s p
  ledger : Ledger s₀ s p
  counts : CountsAre fromSlice (· = ·) s p
  clocked : Clocked s₀ p
  cold : SpilledCold fromSlice s₀ s p

end

variable {fromSlice : Bytes → Option Json} {s s' s₀ : State} {p p' : Pass} {c : Choice} {a : Act}

theorem Clocked.step (h : Clocked s₀ p) (he : Effect fromSlice s p a p') : Clocked s₀ p' := by
  refine ⟨he.now.trans h.now, fun d bb' hb' => ?_⟩
  have hsame := he.same d
  rw [hb', Option.map_some] at hsame
  obtain ⟨bb, hb, heq⟩ := Option.map_eq_some_iff.mp hsame.symm
  obtain ⟨b, hb₀, ht⟩ := h.times d bb hb
  exact ⟨b, hb₀, ht.trans (Prod.mk.inj heq).2⟩

/-- A blob without unevicted references gets none. -/
theorem unevictedTo_keeps (hk : s.Keeps s') {d : Digest}
    (h : unevictedTo fromSlice s.manifests d = 0) : unevictedTo fromSlice s'.manifests d = 0 := by
  rw [unevictedTo_eq_zero] at h ⊢
  intro dm m' hm' hev
  obtain ⟨m, hm, heq, hmono⟩ := hk.manifests dm m' hm'
  have hold : m.evicted = false := by
    by_contra hne
    rw [hmono (by simpa using hne)] at hev
    cases hev
  rw [heq]
  exact h dm m hm hold

theorem SpilledCold.step (h : SpilledCold fromSlice s₀ s p) (hal : Alone fromSlice s₀ s p)
    (hc : CountsAre fromSlice (· = ·) (a.apply s) p') (hs : Step fromSlice s p c a p') :
    SpilledCold fromSlice s₀ (a.apply s) p' := by
  have hk := hal.keeps_step hs
  have heff := hs.effect hal.agrees.counted
  refine ⟨fun d id content mt t hb₀ id' size' mt' t' hb' => unevictedTo_keeps hk ?_,
    fun r held hh => ?_⟩
  · have hold (hb : s.blobs.lookup d = some (.onDisk id' size' mt' t')) :
        unevictedTo fromSlice s.manifests d = 0 := h.spilled d _ _ _ _ hb₀ _ _ _ _ hb
    rw [Act.apply_blobs] at hb'
    cases heff with
    | still ha _ => exact hold (by rwa [Act.onBlobs_keeps ha] at hb')
    | @moveBlob r held _ hh _ =>
      simp only [Act.onBlobs, lookup_insert_apply] at hb'
      split at hb'
      · rename_i hd
        subst hd
        exact h.held d held hh
      · exact hold hb'
    | cascadeDrop => exact hold (lookup_of_erase hb')
    | sweepDrop => exact hold (lookup_of_erase hb')
    | _ => exact hold hb'
  · cases hs with
    | @spillFetch sp r' rest bb id content mt t hp ht hb hu htier hl =>
      cases hh
      have heq := (hc (by simp) r _ (AList.lookup_insert _)).2
      rw [hu, unevictedLeft] at heq
      omega
    | spillWrite hp => exact unevictedTo_keeps hk (h.held r held (by rw [hp]; exact hh))
    | stale hp => rw [popped_phase, hp] at hh; cases hh
    | dropRedis hp => rw [credit_phase, popped_phase, hp] at hh; cases hh
    | @cascadeDrop old r todo bb blob => cases blob <;> cases hh
    | @sweepDrop todo r bb blob => cases blob <;> cases hh
    | _ => cases hh

theorem Counting.step (hfit : grand s₀.bytesIn < 2 ^ 64) (h : Counting fromSlice s₀ s p)
    (hs : Step fromSlice s p c a p') : Counting fromSlice s₀ (a.apply s) p' := by
  have hcounts := h.counts.step (fun u n k hu => by omega) h.alone.agrees hs
  exact ⟨h.alone.step hs, h.ledger.step hfit h.alone.agrees hs, hcounts,
    h.clocked.step (hs.effect h.alone.agrees.counted), h.cold.step h.alone hcounts hs⟩

theorem Counting.start (hfit : grand s.bytesIn < 2 ^ 64)
    (hrefs : ∀ d, (s.blobs.lookup d).isSome → refsTo fromSlice s.manifests d < 2 ^ 32) :
    Counting fromSlice s (Act.countRun.apply s) (scanned fromSlice s) := by
  refine ⟨.start s, .start hfit, .start s fun d hd => ?_, ⟨(scanned_spec s).now, fun d bb hb => ?_⟩,
    ⟨fun d _ _ _ _ hb₀ _ _ _ _ hb => ?_, nofun⟩⟩
  · have hlt := hrefs d hd
    exact ⟨Nat.mod_eq_of_lt hlt, Nat.mod_eq_of_lt ((unevictedTo_le _ d).trans_lt hlt)⟩
  · rw [scanned_lookup, Option.map_eq_some_iff] at hb
    obtain ⟨b, hb₀, rfl⟩ := hb
    exact ⟨b, hb₀, rfl⟩
  · rw [show (Act.countRun.apply s).blobs = s.blobs from rfl, hb₀] at hb
    cases hb

/-! ### Nothing is cut off -/

theorem Counting.not_clamps_drop (h : Counting fromSlice s₀ s p) {pool : Pool} {x : Candidate}
    {rest : List Candidate} {i : ℕ} (hpop : popOldest (p.heap pool) i = some (x, rest))
    {q : Subtraction} (hq : q ∈ p.dropSubtractions s pool x) : ¬ q.Clamps := by
  have hmanifest {d : Digest} (hq : q ∈ (match (s.removeManifest d).1 with
      | none => []
      | some m => [⟨false, p.acc .manifestMemory, m.content.length⟩] : List Subtraction)) :
      ¬ q.Clamps := by
    rw [removeManifest_fst] at hq
    cases hm : s.manifests.lookup d with
    | none => rw [hm] at hq; cases hq
    | some m =>
      rw [hm] at hq
      obtain rfl := List.mem_singleton.mp hq
      exact not_lt.mpr ((Act.manifest_le hm).trans (h.ledger.le _))
  have hredis {key : Bytes} {t size : ℕ} {b : Bucket} (hx : x = .redis key t size)
      (hb : DropsFrom pool b)
      (hq : q ∈ if (s.removeRedis key).1 then [(⟨false, p.acc b, size⟩ : Subtraction)] else []) :
      ¬ q.Clamps := by
    split at hq
    · rename_i he
      rw [removeRedis_fst] at he
      obtain ⟨e, he⟩ := Option.isSome_iff_exists.mp he
      obtain rfl := List.mem_singleton.mp hq
      have hdesc := h.alone.agrees.candidates _ _ _ _ (hx ▸ (popOldest_mem hpop).1) e he
      have hle := Act.redis_le he
      rw [bucket_of_describes hb hdesc] at hle
      exact not_lt.mpr (hle.trans (h.ledger.le _))
    · cases hq
  cases pool with
  | smallMemory =>
    cases x with
    | manifest t d => exact hmanifest hq
    | redis key t size => exact hredis rfl (.inl ⟨rfl, rfl⟩) hq
  | largeMemory => cases hq
  | disk =>
    cases x with
    | manifest t d => exact hmanifest hq
    | redis key t size => exact hredis rfl (.inr ⟨rfl, rfl⟩) hq

theorem Counting.not_clamps_visit (h : Counting fromSlice s₀ s p) (hf : p.phase ≠ .failed)
    {old : Bool} {r : Digest}
    (hp : old = false → 0 < p.phase.pendingUnevicted fromSlice r) {q : Subtraction}
    (hq : q ∈ p.visitSubtractions old r) : ¬ q.Clamps := by
  unfold visitSubtractions at hq
  split at hq
  · cases hq
  · rename_i bb hb
    cases old with
    | true => cases hq
    | false =>
      obtain rfl := List.mem_singleton.mp hq
      have heq := (h.counts hf r bb hb).2
      have hpos := hp rfl
      rw [unevictedLeft] at heq
      exact not_lt.mpr (by dsimp only; omega)

theorem Counting.clamps_cascade (h : Counting fromSlice s₀ s p) {old : Bool} {r : Digest}
    {todo : List Digest} (hp : p.phase = .cascade old (r :: todo)) {q : Subtraction}
    (hq : q ∈ p.cascadeSubtractions s r) (hc : q.Clamps) : q.ofTimes = true ∧ ClockBehind s₀ := by
  unfold cascadeSubtractions at hq
  split at hq
  · cases hq
  · rename_i bb hb
    rcases List.mem_cons.mp hq with rfl | hq
    · have heq := (h.counts (by simp [hp]) r bb hb).1
      rw [refsLeft, hp, Phase.pending, List.count_cons_self] at heq
      simp only [Subtraction.Clamps] at hc
      omega
    · split at hq
      · cases hq
      · rcases List.mem_cons.mp hq with rfl | hq
        · exact ⟨rfl, .inl (h.clocked.now ▸ hc)⟩
        · split at hq
          · cases hq
          · rw [removeBlob_fst] at hq
            split at hq
            · cases hq
            · rename_i blob hl
              obtain rfl := List.mem_singleton.mp hq
              exact absurd hc (not_lt.mpr ((Act.blob_le hl).trans (h.ledger.le _)))

/-- Only a time falls below what the pass subtracts from it, and only by the clock. -/
theorem Counting.clamps (h : Counting fromSlice s₀ s p) {q : Subtraction}
    (hq : q ∈ subtractions s p c) (hc : q.Clamps) : q.ofTimes = true ∧ ClockBehind s₀ := by
  have hholds := h.alone.agrees.holds
  unfold subtractions at hq
  split at hq
  · split at hq
    · cases hq
    · split at hq
      · cases hq
      · exact absurd hc (h.not_clamps_drop ‹_› hq)
  · rename_i sp hp
    split at hq
    · cases hq
    · rename_i r rest ht
      refine absurd hc (h.not_clamps_visit (by simp [hp]) (fun hold => ?_) hq)
      rw [hp, Phase.pendingUnevicted, hold, ht]
      exact List.count_pos_iff.mpr List.mem_cons_self
  · rename_i sp r held hp
    rw [hp] at hholds
    obtain ⟨hl, hlarge⟩ := hholds
    obtain rfl := List.mem_singleton.mp hq
    have hle := Act.blob_le hl
    rw [blobBucket, if_pos hlarge] at hle
    exact absurd hc (not_lt.mpr (hle.trans (h.ledger.le _)))
  · rename_i key size t value id hp
    rw [hp] at hholds
    obtain ⟨⟨u, hl⟩, rfl, hlarge⟩ := hholds
    obtain rfl := List.mem_singleton.mp hq
    have hle := Act.redis_le hl
    rw [redisValueBucket, if_pos hlarge] at hle
    exact absurd hc (not_lt.mpr (hle.trans (h.ledger.le _)))
  · rename_i old todo hp
    split at hq
    · cases hq
    · rename_i r todo
      rcases List.mem_append.mp hq with hq | hq
      · refine absurd hc (h.not_clamps_visit (by simp [hp]) (fun hold => ?_) hq)
        rw [hp, Phase.pendingUnevicted, hold]
        exact List.count_pos_iff.mpr List.mem_cons_self
      · exact h.clamps_cascade hp hq hc
  · split at hq
    · cases hq
    · unfold sweepSubtractions at hq
      split at hq
      · cases hq
      · rename_i bb hb
        split at hq
        · cases hq
        · obtain rfl := List.mem_singleton.mp hq
          obtain ⟨b, hb₀, ht⟩ := h.clocked.times _ bb hb
          have hlt : p.now < bb.lastAccessed := hc
          rw [h.clocked.now, ← ht] at hlt
          exact ⟨rfl, .inr ⟨_, b, hb₀, hlt⟩⟩
  · cases hq

section
variable (fromSlice)

/-- What holds at a step of a pass that began in `s₀`: the counts are those of the manifests in
the map, but for the references the drop or the spill under way has yet to visit; only the
clock makes a subtraction clamp; and the large arm drops no manifest. -/
structure CountsHold (s₀ : State) (x : State × Pass) (c : Choice) (_ : State × Pass) : Prop where
  atLoop : x.2.phase = .loop → ∀ d bb, x.2.blobs.lookup d = some bb →
    bb.refs = refsTo fromSlice x.1.manifests d ∧
      bb.unevictedRefs = unevictedTo fromSlice x.1.manifests d
  inLoop : x.2.phase.looping → ∀ d bb, x.2.blobs.lookup d = some bb →
    bb.refs = refsLeft fromSlice x.1 x.2 d ∧ bb.unevictedRefs = unevictedLeft fromSlice x.1 x.2 d
  clamps : ∀ q ∈ subtractions x.1 x.2 c, q.Clamps → q.ofTimes = true ∧ ClockBehind s₀
  largeArm : ∀ a p', next fromSlice x.1 x.2 c = some (a, p') → ∀ d, a = .dropManifest d →
    x.2.phase = .loop ∧ x.2.arm x.1.config ≠ some .largeMemory

end

theorem Counting.holds (h : Counting fromSlice s₀ s p) {x' : State × Pass} :
    CountsHold fromSlice s₀ (s, p) c x' := by
  refine ⟨fun hp d bb hb => ?_, fun hl => ?_, fun q hq hc => h.clamps hq hc, fun a p' hn d ha => ?_⟩
  · have heq := h.counts (by dsimp only at hp; rw [hp]; nofun) d bb hb
    simp only at hp
    rwa [refsLeft, unevictedLeft, hp] at heq
  · exact h.counts fun hf => by dsimp only at hl; rw [hf] at hl; cases hl
  · have hni : ¬ a.inert := by rw [ha]; exact Bool.false_ne_true
    cases step_of_next hn with
    | dropManifest hp hl harm => exact ⟨hp, fun h => hl (Option.some.inj (harm.symm.trans h))⟩
    | writeFailed => exact absurd (Act.inert_leftover ..) hni
    | cascadeUnlink | sweepUnlink => exact absurd (Act.inert_unlink ..) hni
    | _ => cases ha

theorem CountsHold.of_scanning {x x' : State × Pass} (h : x.2.phase.scanning) :
    CountsHold fromSlice s₀ x c x' := by
  have hphase : x.2.phase.looping = false ∧ subtractions x.1 x.2 c = [] ∧
      ∀ a p', next fromSlice x.1 x.2 c = some (a, p') → a = .idle ∨ a = .countRun := by
    unfold subtractions next
    cases hp : x.2.phase <;> rw [hp] at h <;> cases h <;>
      refine ⟨rfl, rfl, fun a p' hn => ?_⟩ <;> cases hn <;> first | exact .inl rfl | exact .inr rfl
  obtain ⟨hl, hsub, hact⟩ := hphase
  refine ⟨fun hp => ?_, fun hl' => ?_, fun q hq => ?_, fun a p' hn d ha => ?_⟩
  · rw [hp] at hl; cases hl
  · rw [hl] at hl'; cases hl'
  · rw [hsub] at hq; cases hq
  · rcases hact a p' hn with rfl | rfl <;> cases ha

end Pass

/-- In a pass that runs alone, with fewer than 2^32 references to a blob and byte totals that
fit in 64 bits, the counts are exact and no counter clamps. A blob that has gone to disk is
large, and every manifest left that references it is flagged evicted. -/
theorem shared_blob_counts_exact (fromSlice : Bytes → Option Json) (s : State)
    (hrefs : ∀ d, (s.blobs.lookup d).isSome → refsTo fromSlice s.manifests d < 2 ^ 32)
    (hfit : grand s.bytesIn < 2 ^ 64) (choices : List Choice) :
    Along (Pass.step fromSlice) (Pass.CountsHold fromSlice s) (s, .start) choices ∧
    ∀ s' p', run (Pass.step fromSlice) (s, .start) choices = some (s', p') →
      p'.phase.scanning = false → ∀ d id content mt t,
        s.blobs.lookup d = some (.inMemory id content mt t) → ∀ id' size' mt' t',
          s'.blobs.lookup d = some (.onDisk id' size' mt' t') →
            memoryTierThreshold < content.length ∧ ∀ dm m, s'.manifests.lookup dm = some m →
              d ∈ referencedDigests fromSlice m.content → m.evicted = true := by
  have hstart : Pass.Counting fromSlice s (Act.countRun.apply s) (Pass.scanned fromSlice s) :=
    .start hfit hrefs
  constructor
  · rw [Pass.along_scanned fun x c x' hx => Pass.CountsHold.of_scanning hx]
    refine along_of_invariant (C := fun _ _ _ => True)
      (I := fun x => Pass.Counting fromSlice s x.1 x.2) (fun x c x' hi _ hs => ?_) hstart
      (along_true _ _)
    obtain ⟨a, q, hn, rfl⟩ := Pass.step_eq_some.mp hs
    exact ⟨hi.step hfit (Pass.step_of_next hn), hi.holds⟩
  · intro s' p' hr hend d id content mt t hb₀ id' size' mt' t' hb
    obtain ⟨_, _, _, _, rest, -, hrest⟩ := Pass.run_scanned hr hend
    have h : Pass.Counting fromSlice s s' p' :=
      Pass.run_keeps (fun _ _ _ _ _ hi hs => hi.step hfit hs) hstart hrest
    constructor
    · obtain ⟨b, hb', hbec⟩ := h.alone.keeps.blobs d _ hb
      obtain rfl : .inMemory id content mt t = b := Option.some.inj (hb₀.symm.trans hb')
      rcases hbec with heq | ⟨_, _, _, _, heq, hlen, -⟩
      · cases heq
      · cases heq
        exact hlen
    · intro dm m hm hd
      have hzero := unevictedTo_eq_zero.mp (h.cold.spilled d _ _ _ _ hb₀ _ _ _ _ hb) dm m hm
      by_contra hev
      exact hzero (by simpa using hev) hd

/-- A blob that two manifests share goes to disk when both have been popped. -/
theorem shared_blob_counts_exact_layer :
    ∃ s' p', run (Pass.step imageJson) (sharedLayer false 2000, .start) (List.replicate 23 {}) =
        some (s', p') ∧ p'.phase = .done ∧
      s'.blobs.lookup layer = some (.onDisk 0 1025 "" 5) ∧
      memoryTierThreshold < 1025 ∧ ∀ dm m, s'.manifests.lookup dm = some m →
        layer ∈ referencedDigests imageJson m.content → m.evicted = true := by
  have hrun : ((run (Pass.step imageJson) (sharedLayer false 2000, .start)
      (List.replicate 23 {})).map fun x => (x.2.phase, x.1.blobs.lookup layer)) =
      some (.done, some (.onDisk 0 1025 "" 5)) := by decide +kernel
  obtain ⟨⟨s', p'⟩, hr, hend⟩ := Option.map_eq_some_iff.mp hrun
  obtain ⟨hd, hb⟩ := Prod.mk.inj hend
  have hrefs : ∀ d ∈ (sharedLayer false 2000).blobs.keys,
      refsTo imageJson (sharedLayer false 2000).manifests d < 2 ^ 32 := by decide +kernel
  have h := (shared_blob_counts_exact imageJson (sharedLayer false 2000)
    (fun d hd => hrefs d (AList.mem_keys.mp (AList.lookup_isSome.mp hd))) (by decide +kernel) _).2
      s' p' hr (by rw [show p'.phase = .done from hd]; rfl) layer 0 (List.replicate 1025 97) "" 5
      (by decide +kernel) 0 1025 "" 5 hb
  exact ⟨s', p', hr, hd, hb, by rw [List.length_replicate] at h; exact h⟩

/-! A clock that was set back, sizes that overflow the disk accumulator, and a manifest that
names one blob 2^32 times. -/

def futureBlob : State :=
  (State.new ⟨0, none, 0⟩ 3).insertBlob orphan (.inMemory 0 [1] "" 5)

def hugeBlobs : State :=
  (((State.new ⟨0, none, 0⟩ 100000).insertBlob layer (.onDisk 0 (2 ^ 63) "" 5)).insertBlob orphan
    (.onDisk 1 (2 ^ 63) "" 5)).insertManifest image ⟨imageBody, "", 3, false⟩

/-- A JSON array of that many references to the layer. -/
def wideBody (n : ℕ) : Bytes :=
  utf8 "[" ++ (List.replicate n (imageBody ++ utf8 ",")).flatten ++ utf8 "0]"

def wideJson (n : ℕ) (content : Bytes) : Option Json :=
  if content = wideBody n then
    some (.array (List.replicate n (.object [("digest", .string layerText)]) ++ [.number]))
  else none

def wideState (n : ℕ) : State :=
  ((State.new ⟨0, none, 0⟩ 100000).insertBlob layer (.inMemory 0 [1, 2] "" 5)).insertManifest image
    ⟨wideBody n, "", 3, false⟩

theorem wide_references (n : ℕ) :
    referencedDigests (wideJson n) (wideBody n) = List.replicate n layer := by
  have hitem : walk (.object [("digest", .string layerText)]) = [layer] := by decide +kernel
  have hitems : walkItems (List.replicate n (.object [("digest", .string layerText)]) ++ [.number]) =
      List.replicate n layer := by
    induction n with
    | zero => rfl
    | succ n ih =>
      rw [List.replicate_succ, List.cons_append, walkItems, hitem, ih]
      rfl
  rw [referencedDigests, wideJson, if_pos rfl]
  exact hitems

theorem wide_refsTo (n : ℕ) : refsTo (wideJson n) (wideState n).manifests layer = n := by
  have hms : (wideState n).manifests = AList.insert image ⟨wideBody n, "", 3, false⟩ ∅ := rfl
  rw [hms, refsTo, total_insert, manifestRefs, wide_references, List.count_replicate_self]
  rfl

/-- The count at the start of the loop is the number of references as a `u32` holds it. -/
theorem wide_count (n : ℕ) :
    ∃ s p bb, run (Pass.step (wideJson n)) (wideState n, .start) (List.replicate 4 {}) =
        some (s, p) ∧ p.phase = .loop ∧ p.blobs.lookup layer = some bb ∧ bb.refs = n % 2 ^ 32 ∧
      refsTo (wideJson n) s.manifests layer = n := by
  refine ⟨Act.countRun.apply (wideState n), Pass.scanned (wideJson n) (wideState n),
    ⟨.smallMem, n % 2 ^ 32, unevictedTo (wideJson n) (wideState n).manifests layer % 2 ^ 32, 5⟩,
    rfl, rfl, ?_, rfl, wide_refsTo n⟩
  rw [Pass.scanned_lookup, wide_refsTo]
  rfl

/-- In the first run a time clamps, in the second the disk accumulator does, and in the third
the loop begins with a count of zero. -/
theorem shared_blob_counts_fail :
    ¬ Along (Pass.step imageJson) (fun x c _ => ∀ q ∈ Pass.subtractions x.1 x.2 c, ¬ q.Clamps)
      (futureBlob, .start) (List.replicate 6 {}) ∧
    ¬ Along (Pass.step imageJson) (fun x c _ => ∀ q ∈ Pass.subtractions x.1 x.2 c, q.Clamps →
      q.ofTimes = true) (hugeBlobs, .start) (List.replicate 8 {}) ∧
    ∃ s p bb, run (Pass.step (wideJson (2 ^ 32))) (wideState (2 ^ 32), .start)
        (List.replicate 4 {}) = some (s, p) ∧ p.phase = .loop ∧
      p.blobs.lookup layer = some bb ∧ bb.refs = 0 ∧
        refsTo (wideJson (2 ^ 32)) s.manifests layer = 2 ^ 32 := by
  refine ⟨by decide +kernel, by decide +kernel, ?_⟩
  obtain ⟨s, p, bb, hr, hp, hb, hrefs, hto⟩ := wide_count (2 ^ 32)
  exact ⟨s, p, bb, hr, hp, hb, hrefs.trans (Nat.mod_self _), hto⟩

end Dockfoxprox
