import Dockfoxprox.Proofs.Pools
import Dockfoxprox.Proofs.References
import Dockfoxprox.Proofs.Termination

/-! The memory budgets. The large heap is not touched before the small budget is settled, and
from then on no manifest goes without the pass having tried to spill its blobs. So a large
blob in memory that a manifest references has one in the large heap, or a spill is about to
come to it. -/

namespace Dockfoxprox

open MapSum Machine

/-- The heap of the manifests that reference a blob of a tier. -/
def BlobTier.pool : BlobTier → Pool
  | .smallMem => .smallMemory
  | .largeMem => .largeMemory
  | .disk => .disk

/-- The references a spill has yet to visit, and the one it is at. -/
def Phase.toSpill : Phase → List Digest
  | .spillBlobs sp => sp.todo
  | .spillWrite sp r _ | .spillInsert sp r _ => r :: sp.todo
  | _ => []

/-- The small budget is met, or nothing is left in its pool. -/
def State.SmallBudgetMet (s : State) : Prop :=
  Pool.smallMemory.usage s.bytesIn ≤ Pass.target s.config.smallMemoryLimit ∨ ∀ x, ¬ s.InSmallPool x

/-- The memory budget is met, or no large Redis entry is left in memory, and no large blob
there that a manifest references. -/
def State.MemoryBudgetMet (fromSlice : Bytes → Option Json) (s : State) : Prop :=
  Pool.largeMemory.usage s.bytesIn ≤ Pass.target s.config.memoryLimit ∨
    (∀ x, ¬ s.InLargePool x) ∧ ∀ d id content mt t,
      s.blobs.lookup d = some (.inMemory id content mt t) → memoryTierThreshold < content.length →
        ∀ dm m, s.manifests.lookup dm = some m → d ∉ referencedDigests fromSlice m.content

namespace Pass

variable {fromSlice : Bytes → Option Json} {s s' s₀ : State} {p p' : Pass} {c : Choice} {a : Act}
  {pool : Pool} {x : Candidate} {rest : List Candidate} {i : ℕ}

/-- A manifest makes a candidate for the heap of every blob it references. -/
theorem Alone.wanted (h : Alone fromSlice s₀ s p) {d dm : Digest} {bb : BlobBk} {m : Manifest}
    (hm : s.manifests.lookup dm = some m) (hd : d ∈ referencedDigests fromSlice m.content)
    (hb : p.blobs.lookup d = some bb) :
    Wanted fromSlice s₀.blobs s bb.tier.pool (.manifest m.lastUsed dm) := by
  have htier := h.tiers d
  rw [hb, Option.map_some] at htier
  have htouch : m.touches fromSlice s₀.blobs bb.tier := by
    rw [Manifest.touches, List.any_eq_true]
    exact ⟨d, hd, by rw [← htier]; exact decide_eq_true rfl⟩
  refine .inr ⟨dm, m, hm, ?_⟩
  unfold manifestCandidate
  cases ht : bb.tier with
  | smallMem => rfl
  | largeMem => rw [ht] at htouch; exact if_pos htouch
  | disk => rw [ht] at htouch; exact if_pos htouch

section
variable (fromSlice)

/-- The large heap still has everything it is for, and nothing is being spilled. -/
def Fresh (blobs : DashMap Digest Blob) (s : State) (p : Pass) : Prop :=
  (∀ x, Wanted fromSlice blobs s .largeMemory x → x ∈ p.heap .largeMemory) ∧
    ∀ x, ¬ p.phase.Handles x

/-- The pass is going to try a spill of a blob. -/
def Owed (s : State) (p : Pass) (d : Digest) : Prop :=
  d ∈ p.phase.toSpill ∨ ∃ dm m, s.manifests.lookup dm = some m ∧
    d ∈ referencedDigests fromSlice m.content ∧ .manifest m.lastUsed dm ∈ p.heap .largeMemory

/-- A large blob that is in memory and has a reference. -/
def Spillable (s : State) (p : Pass) (d : Digest) : Prop :=
  (∃ bb, p.blobs.lookup d = some bb ∧ bb.tier = .largeMem) ∧
    (∃ id content mt t, s.blobs.lookup d = some (.inMemory id content mt t)) ∧
      ∃ dm m, s.manifests.lookup dm = some m ∧ d ∈ referencedDigests fromSlice m.content

def SpillsLeft (s : State) (p : Pass) : Prop :=
  ∀ d, Spillable fromSlice s p d → Owed fromSlice s p d

end

/-- Until the small budget is settled the large heap keeps all it is for. -/
theorem Fresh.turn {blobs : DashMap Digest Blob} (h : Fresh fromSlice blobs s p) (ht : Turn s p a p')
    (ha : p.phase = .loop → p.arm s.config ≠ some .largeMemory) :
    Fresh fromSlice blobs (a.apply s) p' := by
  obtain ⟨hheap, hidle⟩ := h
  cases ht with
  | quiet hm hr hh hj hj' =>
    refine ⟨fun x hw => ?_, fun x hx => ?_⟩
    · unfold Wanted at hw
      rw [Act.apply_manifests, Act.apply_redisEntries, hm, hr] at hw
      rw [hh]
      exact hheap x hw
    · rcases hj' x hx with hx | ⟨-, y, hy⟩
      · exact hidle x hx
      · exact hidle y hy
  | stale hp harm hpop hs =>
    refine ⟨fun x hw => mem_popped_of_ne hpop (hheap x hw) fun hl => ?_, fun x hx => ?_⟩
    · exact absurd (hl ▸ harm) (ha hp)
    · rw [popped_phase, hp] at hx
      exact hx
  | drop hp harm hl hpop hx hh hj =>
    refine ⟨fun y hw => ?_, hj⟩
    rw [hh]
    exact mem_popped_of_ne hpop (hheap y (hw.act (.inl rfl))) fun heq => absurd heq.symm hl
  | start hp harm => exact absurd harm (ha hp)
  | finish hj => exact absurd ((hj _).mpr rfl) (hidle _)

theorem Spillable.old (h : Alone fromSlice s₀ s p) (hs : Step fromSlice s p c a p') {d : Digest}
    (hd : Spillable fromSlice (a.apply s) p' d) : Spillable fromSlice s p d := by
  obtain ⟨⟨bb', hb', ht⟩, ⟨id, content, mt, t, hmem⟩, dm, m', hm', hr⟩ := hd
  have hk := h.keeps_step hs
  have htier := (h.step hs).tiers d
  rw [← h.tiers d, hb', Option.map_some, ht] at htier
  obtain ⟨bb, hb, htb⟩ := Option.map_eq_some_iff.mp htier.symm
  obtain ⟨m, hm, heq, -⟩ := hk.manifests dm m' hm'
  obtain ⟨b, hb₀, hbec⟩ := hk.blobs d _ hmem
  rcases hbec with rfl | ⟨_, _, _, _, -, -, hdisk⟩
  · rw [heq] at hr
    exact ⟨⟨bb, hb, htb⟩, ⟨id, content, mt, t, hb₀⟩, dm, m, hm, hr⟩
  · cases hdisk

/-- A step that drops no manifest and takes none from the large heap. -/
theorem Owed.frame {d : Digest} (h : Owed fromSlice s p d)
    (hm : a.onManifests s.manifests = s.manifests)
    (hh : ∀ t dm, .manifest t dm ∈ p.heap .largeMemory → .manifest t dm ∈ p'.heap .largeMemory)
    (hv : d ∈ p.phase.toSpill → d ∈ p'.phase.toSpill) : Owed fromSlice (a.apply s) p' d := by
  rcases h with h | ⟨dm, m, hl, hd, hx⟩
  · exact .inl (hv h)
  · exact .inr ⟨dm, m, by rwa [Act.apply_manifests, hm], hd, hh _ _ hx⟩

/-- A large blob with an unevicted reference has its manifest in the large heap. -/
theorem exists_of_unevicted (h : Alone fromSlice s₀ s p) {d : Digest} {bb : BlobBk}
    (hb : p.blobs.lookup d = some bb) (ht : bb.tier = .largeMem)
    (hu : unevictedTo fromSlice s.manifests d ≠ 0) :
    ∃ dm m, s.manifests.lookup dm = some m ∧ d ∈ referencedDigests fromSlice m.content ∧
      .manifest m.lastUsed dm ∈ p.heap .largeMemory := by
  rw [Ne, unevictedTo_eq_zero] at hu
  push Not at hu
  obtain ⟨dm, m, hm, hev, hd⟩ := hu
  have hw := h.wanted hm hd hb
  rw [ht] at hw
  rcases h.queued _ _ hw with hx | ⟨-, hflag, -⟩
  · exact ⟨dm, m, hm, hd, hx⟩
  · rw [hflag m hm] at hev
    cases hev

/-- A candidate that is gone is no manifest. -/
theorem Owed.stale {d : Digest} {pool : Pool} {cand : Candidate} {rest : List Candidate}
    (h : Owed fromSlice s p d) (hpop : popOldest (p.heap pool) c.pick = some (cand, rest))
    (hs : Stale s pool cand) : Owed fromSlice s (p.popped pool rest) d := by
  rcases h with hv | ⟨dm, m, hm, hr, hx⟩
  · exact .inl hv
  · refine .inr ⟨dm, m, hm, hr, mem_popped_of_ne hpop hx fun _ => ?_⟩
    rintro rfl
    rw [Stale, hm] at hs
    cases hs

/-- A manifest is dropped from another pool. The large heap then has all that it is for, or nothing
at all. -/
theorem Owed.dropManifest {d dm : Digest} {m : Manifest} {pool : Pool} {t : ℕ}
    {rest : List Candidate} (h : Owed fromSlice s p d) (hal : Alone fromSlice s₀ s p)
    (hold : Spillable fromSlice s p d) (hp : p.phase = .loop) (hl : pool ≠ .largeMemory)
    (hpop : popOldest (p.heap pool) c.pick = some (.manifest t dm, rest))
    (href : ∃ dm' m', (s.manifests.erase dm).lookup dm' = some m' ∧
      d ∈ referencedDigests fromSlice m'.content)
    (hheap : Fresh fromSlice s₀.blobs s p ∨ p.heap .largeMemory = []) :
    Owed fromSlice ((Act.dropManifest dm).apply s)
      (((p.popped pool rest).credit .manifestMemory m.content.length).goto (.retainTags dm m)) d := by
  rcases hheap with hfresh | hempty
  · obtain ⟨⟨bb, hb, ht⟩, -⟩ := hold
    obtain ⟨dm', m', hm', hr⟩ := href
    have hw := hal.wanted (lookup_of_erase hm') hr hb
    rw [ht] at hw
    refine .inr ⟨dm', m', by rwa [Act.apply_manifests], hr, ?_⟩
    exact mem_popped_of_ne hpop (hfresh.1 _ hw) fun heq => absurd heq.symm hl
  · rcases h with hv | ⟨_, _, -, -, hx⟩
    · rw [hp] at hv
      cases hv
    · rw [hempty] at hx
      cases hx

/-- A manifest is popped to be spilled, with all that it references. -/
theorem Owed.spillManifest {d dm : Digest} {m : Manifest} {t : ℕ} {rest : List Candidate}
    (h : Owed fromSlice s p d) (hp : p.phase = .loop)
    (hpop : popOldest (p.heap .largeMemory) c.pick = some (.manifest t dm, rest))
    (hm : s.manifests.lookup dm = some m) :
    Owed fromSlice ((Act.markEvicted dm).apply s) ((p.popped .largeMemory rest).goto
      (.spillBlobs ⟨dm, t, m.evicted, referencedDigests fromSlice m.content⟩)) d := by
  rcases h with hv | ⟨dm', m', hm', hr, hx⟩
  · rw [hp] at hv
    cases hv
  · by_cases hdm : dm' = dm
    · subst hdm
      obtain rfl : m = m' := Option.some.inj (hm.symm.trans hm')
      exact .inl hr
    · refine .inr ⟨dm', m', ?_, hr, mem_popped_of_ne hpop hx fun _ heq => ?_⟩
      · simp only [Act.apply_manifests, Act.onManifests, hm]
        rwa [AList.lookup_insert_ne hdm]
      · cases heq
        exact hdm rfl

/-- A blob stays in memory, as long as it has an unevicted reference left. -/
theorem Owed.spillKeep {d r : Digest} {sp : ManifestSpill} {rest : List Digest} {bb : BlobBk}
    (h : Owed fromSlice s p d) (hal : Alone fromSlice s₀ s p) (hold : Spillable fromSlice s p d)
    (hp : p.phase = .spillBlobs sp) (ht : sp.todo = r :: rest) (hb : p.blobs.lookup r = some bb)
    (hk : (bb.unevict sp.old).unevictedRefs = 0 → bb.tier = .largeMem →
      ∀ id content mt t, s.blobs.lookup r ≠ some (.inMemory id content mt t))
    (hc : CountsAre fromSlice (· ≤ ·) s
      ((p.setBk r (bb.unevict sp.old)).goto (.spillBlobs { sp with todo := rest }))) :
    Owed fromSlice s
      ((p.setBk r (bb.unevict sp.old)).goto (.spillBlobs { sp with todo := rest })) d := by
  by_cases hdr : d = r
  · subst hdr
    obtain ⟨⟨bb', hbb', htier⟩, ⟨id, content, mt, t, hmem⟩, -⟩ := hold
    obtain rfl : bb = bb' := Option.some.inj (hb.symm.trans hbb')
    have hne : (bb.unevict sp.old).unevictedRefs ≠ 0 := fun h0 => hk h0 htier id content mt t hmem
    have hle := (hc (fun hf => by cases hf) d _ (AList.lookup_insert _)).2
    by_cases hu : unevictedTo fromSlice s.manifests d = 0
    · refine .inl (List.count_pos_iff.mp ?_)
      have hleft : unevictedLeft fromSlice s ((p.setBk d (bb.unevict sp.old)).goto
          (.spillBlobs { sp with todo := rest })) d ≤ rest.count d := by
        simp only [unevictedLeft, goto_phase, Phase.pendingUnevicted, hu, zero_add]
        split
        · exact Nat.zero_le _
        · exact le_rfl
      exact lt_of_lt_of_le (Nat.pos_of_ne_zero hne) (hle.trans hleft)
    · exact .inr (exists_of_unevicted hal hb htier hu)
  · refine h.frame (a := .idle) rfl (fun _ _ hx => hx) fun hv => ?_
    rw [hp, Phase.toSpill, ht] at hv
    exact (List.mem_cons.mp hv).resolve_left hdr

/-- The step lemma of the spills that are left. -/
theorem SpillsLeft.step (h : SpillsLeft fromSlice s p) (hal : Alone fromSlice s₀ s p)
    (hc : CountsAre fromSlice (· ≤ ·) s p) (hf : p'.phase ≠ .failed)
    (hdrop : p.phase = .loop → p.arm s.config ≠ some .largeMemory →
      Fresh fromSlice s₀.blobs s p ∨ p.heap .largeMemory = [])
    (hs : Step fromSlice s p c a p') : SpillsLeft fromSlice (a.apply s) p' := by
  intro d hd
  have hold := hd.old hal hs
  have howed := h d hold
  have hc' := hc.step (fun _ _ _ => Nat.sub_le_iff_le_add.mpr) hal.agrees hs
  have hst := hal.agrees.counted
  have hholds := hal.agrees.holds
  cases hs with
  | begin hp => rw [hp] at hst; cases hst
  | scanBlobs hp => rw [hp] at hst; cases hst
  | scanManifests hp => rw [hp] at hst; cases hst
  | scanRedis hp => rw [hp] at hholds; exact hholds.elim
  | writeFailed => exact absurd rfl hf
  | stopLoop hp => exact howed.frame rfl (fun _ _ hx => hx) fun hv => by rwa [hp] at hv
  | stale hp ha hpop hs => exact howed.stale hpop hs
  | dropRedis hp hb ha hpop he =>
    refine howed.frame rfl (fun t dm hx => ?_) id
    exact mem_popped_of_ne hpop hx fun _ => by simp
  | dropManifest hp hl ha hpop hm =>
    obtain ⟨-, -, dm', m', hm', hr⟩ := hd
    rw [Act.apply_manifests] at hm'
    exact howed.dropManifest hal hold hp hl hpop ⟨dm', m', hm', hr⟩
      (hdrop hp fun harm => hl (Option.some.inj (ha.symm.trans harm)))
  | spillManifest hp ha hpop hm => exact howed.spillManifest hp hpop hm
  | fetchRedis hp ha hpop hfetch =>
    refine howed.frame rfl (fun t dm hx => ?_) fun hv => by rw [hp] at hv; cases hv
    exact mem_popped_of_ne hpop hx fun _ => by simp
  | @spillEnd sp hp ht =>
    refine howed.frame rfl (fun t dm hx => ?_) fun hv => ?_
    · rw [goto_heap]
      exact mem_push_disk hx
    · rw [hp, Phase.toSpill, ht] at hv
      cases hv
  | @spillMissing sp r rest hp ht hb =>
    refine howed.frame rfl (fun _ _ hx => hx) fun hv => ?_
    obtain ⟨⟨bb, hbb, -⟩, -⟩ := hold
    rw [hp, Phase.toSpill, ht] at hv
    refine (List.mem_cons.mp hv).resolve_left ?_
    rintro rfl
    rw [hb] at hbb
    cases hbb
  | spillKeep hp ht hb hk => exact howed.spillKeep hal hold hp ht hb hk hc'
  | @spillFetch sp r rest bb id content mt t hp ht hb hu htier hl =>
    exact howed.frame rfl (fun _ _ hx => hx) fun hv => by rwa [hp, Phase.toSpill, ht] at hv
  | spillWrite hp hw => exact howed.frame rfl (fun _ _ hx => hx) fun hv => by rwa [hp] at hv
  | @spillInsert sp r held hp =>
    refine howed.frame rfl (fun _ _ hx => hx) fun hv => ?_
    rw [hp] at hv
    refine (List.mem_cons.mp hv).resolve_left ?_
    rintro rfl
    obtain ⟨-, ⟨id, content, mt, t, hmem⟩, -⟩ := hd
    simp [Act.onBlobs] at hmem
  | redisInsert hp =>
    refine howed.frame rfl (fun t dm hx => ?_) fun hv => by rw [hp] at hv; cases hv
    rw [goto_heap]
    exact mem_push_disk hx
  | cascadeUnlink hp =>
    exact howed.frame (Act.onManifests_inert (Act.inert_unlink ..) _) (fun _ _ hx => hx) fun hv => by
      rw [hp] at hv; cases hv
  | sweepUnlink hp =>
    exact howed.frame (Act.onManifests_inert (Act.inert_unlink ..) _) (fun _ _ hx => hx) fun hv => by
      rw [hp] at hv; cases hv
  | _ hp => exact howed.frame rfl (fun _ _ hx => hx) fun hv => by rw [hp] at hv; cases hv

section
variable (fromSlice)

/-- The large budget is met, or the pass has tried every spill it could so far. -/
def SpillsTried (s₀ s : State) (p : Pass) : Prop :=
  p.phase ≠ .failed → Pool.largeMemory.usage p.acc ≤ target s.config.memoryLimit ∨
    SpillsLeft fromSlice s p ∧ (Fresh fromSlice s₀.blobs s p ∨ p.Closed s.config .smallMemory)

/-- Once the loop is over, every budget is met or its heap is empty. -/
def Stopped (s : State) (p : Pass) : Prop :=
  p.phase.looping = false → p.phase ≠ .failed → ∀ pool, p.Closed s.config pool

/-- What a pass on its own keeps to, when the bytes fit in its counters. -/
structure Enforces (s₀ s : State) (p : Pass) : Prop where
  alone : Alone fromSlice s₀ s p
  scanned : p.phase.scanning = false
  ledger : Ledger s₀ s p
  counts : CountsAre fromSlice (· ≤ ·) s p
  tried : SpillsTried fromSlice s₀ s p
  stopped : Stopped s p

end

theorem arm_large_closed_of_ne {config : Config} (h : p.Closed config .smallMemory)
    (ha : p.arm config ≠ some .largeMemory) : p.Closed config .largeMemory := by
  by_contra hl
  exact ha (by rw [arm_eq, if_neg (not_not.mpr h), if_pos hl])

theorem Stopped.step (h : Stopped s p) (hscan : p.phase.scanning = false)
    (hs : Step fromSlice s p c a p') : Stopped (a.apply s) p' := by
  intro hl hf pool
  rw [Act.apply_config]
  have hkeep (hold : p.phase.looping = false) : p.Closed s.config pool := h hold hs.not_failed pool
  cases hs with
  | stopLoop hp ha => exact arm_none ha pool
  | scanBlobs hp => rw [hp] at hscan; cases hscan
  | scanManifests hp => rw [hp] at hscan; cases hscan
  | begin hp => rw [hp] at hscan; cases hscan
  | writeFailed => exact absurd rfl hf
  | stale hp => rw [popped_phase, hp] at hl; cases hl
  | dropRedis hp => rw [credit_phase, popped_phase, hp] at hl; cases hl
  | @cascadeDrop old r todo bb blob => cases blob <;> cases hl
  | sweepEnd hp | sweepKeep hp | sweepDrop hp | sweepUnlink hp | publish hp | storeEnd hp
  | store hp => exact hkeep (by rw [hp]; rfl)
  | _ => cases hl

theorem SpillsTried.step (h : SpillsTried fromSlice s₀ s p) (hal : Alone fromSlice s₀ s p)
    (hscan : p.phase.scanning = false) (hc : CountsAre fromSlice (· ≤ ·) s p)
    (hfit : grand p.acc < 2 ^ 64) (hs : Step fromSlice s p c a p') :
    SpillsTried fromSlice s₀ (a.apply s) p' := by
  intro hf
  rw [Act.apply_config]
  have hle := hs.usage_le hscan (by decide : Pool.largeMemory ≠ .disk)
  have hturn := hs.turn hal.agrees
  have hsmall : Pool.smallMemory.usage p.acc < 2 ^ 64 := (Pool.usage_le_grand _ _).trans_lt hfit
  by_cases hu : Pool.largeMemory.usage p.acc ≤ target s.config.memoryLimit
  · exact .inl (hle.trans hu)
  · obtain ⟨hleft, hfresh⟩ := (h hs.not_failed).resolve_left hu
    refine .inr ⟨hleft.step hal hc hf (fun hp ha => hfresh.imp_right fun hclosed => ?_) hs, ?_⟩
    · rcases arm_large_closed_of_ne hclosed ha with hmet | hempty
      · rw [Nat.mod_eq_of_lt ((Pool.usage_le_grand _ _).trans_lt hfit)] at hmet
        exact absurd hmet hu
      · exact hempty
    · rcases hfresh with hfresh | hclosed
      · by_cases ha : p.phase = .loop ∧ p.arm s.config = some .largeMemory
        · have hclosed := arm_small_closed ha.2 (by decide)
          exact .inr (hclosed.step hs hturn hscan (by decide) hsmall)
        · exact .inl (hfresh.turn hturn fun hp harm => ha ⟨hp, harm⟩)
      · exact .inr (hclosed.step hs hturn hscan (by decide) hsmall)

theorem SpillsLeft.start (s : State) :
    SpillsLeft fromSlice (Act.countRun.apply s) (Pass.scanned fromSlice s) := by
  rintro d ⟨⟨bb, hb, ht⟩, -, dm, m, hm, hd⟩
  have hw := (Alone.start s).wanted hm hd hb
  rw [ht] at hw
  exact .inr ⟨dm, m, hm, hd, scanned_wanted.mpr hw⟩

theorem Enforces.start (hfit : grand s.bytesIn < 2 ^ 64) :
    Enforces fromSlice s (Act.countRun.apply s) (Pass.scanned fromSlice s) where
  alone := .start s
  scanned := rfl
  ledger := .start hfit
  counts := .start s fun _ _ => ⟨Nat.mod_le _ _, Nat.mod_le _ _⟩
  tried := fun _ => .inr ⟨.start s, .inl ⟨fun _ hw => scanned_wanted.mpr hw, fun _ hx => hx⟩⟩
  stopped := nofun

theorem Enforces.step (hfit : grand s₀.bytesIn < 2 ^ 64) (h : Enforces fromSlice s₀ s p)
    (hs : Step fromSlice s p c a p') : Enforces fromSlice s₀ (a.apply s) p' where
  alone := h.alone.step hs
  scanned := hs.scanning h.scanned
  ledger := h.ledger.step hfit h.alone.agrees hs
  counts := h.counts.step (fun _ _ _ => Nat.sub_le_iff_le_add.mpr) h.alone.agrees hs
  tried := h.tried.step h.alone h.scanned h.counts (h.ledger.bound.trans_lt hfit) hs
  stopped := h.stopped.step h.scanned hs

theorem Enforces.of_run (hfit : grand s₀.bytesIn < 2 ^ 64) {choices : List Choice}
    (hr : run (Pass.step fromSlice) (s₀, .start) choices = some (s', p'))
    (hend : p'.phase.scanning = false) : Enforces fromSlice s₀ s' p' := by
  obtain ⟨_, _, _, _, rest, -, hr⟩ := run_scanned hr hend
  exact run_keeps (fun _ _ _ _ _ hi hs => hi.step hfit hs) (.start hfit) hr

/-- What the loop leaves of a budget: it is met, or its heap is empty. -/
theorem Enforces.usage_le (hfit : grand s₀.bytesIn < 2 ^ 64) (h : Enforces fromSlice s₀ s p)
    (hl : p.phase.looping = false) (hf : p.phase ≠ .failed) (pool : Pool) :
    pool.usage s.bytesIn ≤ target (pool.limit s.config) ∨ p.heap pool = [] := by
  refine (h.stopped hl hf pool).imp_left fun hmet => ?_
  have hlt := (pool.usage_le_grand p.acc).trans_lt (h.ledger.bound.trans_lt hfit)
  rw [Nat.mod_eq_of_lt hlt] at hmet
  exact (pool.usage_mono h.ledger.le).trans hmet

theorem Enforces.small_met (hfit : grand s₀.bytesIn < 2 ^ 64) (h : Enforces fromSlice s₀ s p)
    (hd : p.phase = .done) : s.SmallBudgetMet := by
  have hidle : ∀ x, ¬ p.phase.Handles x := fun x hx => by rw [hd] at hx; exact hx
  refine (h.usage_le hfit (by rw [hd]; rfl) (by rw [hd]; nofun) .smallMemory).imp_right
    fun hempty x hx => ?_
  obtain ⟨y, -, hy⟩ := wanted_small hx
  have hmem := h.alone.mem_heap hidle hy (.inl (by decide))
  rw [hempty] at hmem
  cases hmem

theorem Enforces.memory_met (hfit : grand s₀.bytesIn < 2 ^ 64) (h : Enforces fromSlice s₀ s p)
    (hd : p.phase = .done) : s.MemoryBudgetMet fromSlice := by
  have hidle : ∀ x, ¬ p.phase.Handles x := fun x hx => by rw [hd] at hx; exact hx
  have hf : p.phase ≠ .failed := by rw [hd]; nofun
  rcases h.usage_le hfit (by rw [hd]; rfl) hf .largeMemory with hmet | hempty
  · exact .inl hmet
  · rcases h.tried hf with hmet | ⟨hleft, -⟩
    · exact .inl ((Pool.largeMemory.usage_mono h.ledger.le).trans hmet)
    · refine .inr ⟨fun x hx => ?_, fun d id content mt t hb hlen dm m hm hr => ?_⟩
      · obtain ⟨key, _, _, -, -, hy⟩ := wanted_large hx
        have hmem := h.alone.mem_heap hidle hy (.inr ⟨_, _, _, rfl⟩)
        rw [hempty] at hmem
        cases hmem
      · obtain ⟨b₀, hb₀, hbec⟩ := h.alone.keeps.blobs d _ hb
        obtain rfl : b₀ = .inMemory id content mt t := by
          rcases hbec with heq | ⟨_, _, _, _, -, -, hdisk⟩
          · exact heq.symm
          · cases hdisk
        have htier := h.alone.tiers d
        rw [tierIn, hb₀, Option.map_some, blobTier, if_pos hlen] at htier
        obtain ⟨bb, hbb, ht⟩ := Option.map_eq_some_iff.mp htier
        rcases hleft d ⟨⟨bb, hbb, ht⟩, ⟨id, content, mt, t, hb⟩, dm, m, hm, hr⟩ with
          hv | ⟨_, _, -, -, hx⟩
        · rw [hd] at hv
          cases hv
        · rw [hempty] at hx
          cases hx

end Pass

/-- A pass that runs alone and whose writes succeed ends, and leaves the memory budgets met
or nothing that it could take for them. -/
theorem evict_enforces_memory_budgets (fromSlice : Bytes → Option Json) (s : State)
    (hfit : grand s.bytesIn < 2 ^ 64) :
    (∃ n, ∀ choices s' p',
      run (Pass.step fromSlice) (s, .start) choices = some (s', p') → choices.length ≤ n) ∧
    ∀ choices s' p', (∀ c ∈ choices, c.write = .ok) →
      run (Pass.step fromSlice) (s, .start) choices = some (s', p') →
        (p'.phase ≠ .done → ∀ unlinked, ∃ pick,
          (Pass.step fromSlice (s', p') ⟨pick, .ok, unlinked⟩).isSome) ∧
        (p'.phase = .done → s'.config = s.config ∧ s'.SmallBudgetMet ∧
          s'.MemoryBudgetMet fromSlice) := by
  refine ⟨⟨_, fun _ _ _ hr => Pass.run_bounded hr⟩, fun choices s' p' hw hr => ⟨?_, ?_⟩⟩
  · intro hd unlinked
    obtain ⟨pick, hn⟩ := @Pass.exists_next fromSlice s' p' hd
      (Pass.not_failed_of_run (along_of_mem hw) hr) .ok unlinked
    exact ⟨pick, by rwa [Pass.step, Option.isSome_map]⟩
  · intro hd
    have he : Pass.Enforces fromSlice s s' p' := .of_run hfit hr (by rw [hd]; rfl)
    exact ⟨he.alone.keeps.config, he.small_met hfit hd, he.memory_met hfit hd⟩

/-- A large Redis entry, more than there is memory for. -/
def largeKey : State :=
  (State.new ⟨1000, none, 10000⟩ 1).insertRedis [107] (List.replicate 1025 97)

/-- The pass spills it. -/
theorem evict_enforces_memory_budgets_largeKey :
    ∃ s' p', run (Pass.step imageJson) (largeKey, .start) (List.replicate 17 {}) = some (s', p') ∧
      p'.phase = .done ∧ s'.redisEntries.lookup [107] = some (.onDisk 1025 0 1) ∧
        s'.SmallBudgetMet ∧ s'.MemoryBudgetMet imageJson := by
  have hrun : ((run (Pass.step imageJson) (largeKey, .start) (List.replicate 17 {})).map fun x =>
      (x.2.phase, x.1.redisEntries.lookup [107])) = some (.done, some (.onDisk 1025 0 1)) := by
    decide +kernel
  obtain ⟨⟨s', p'⟩, hr, hend⟩ := Option.map_eq_some_iff.mp hrun
  obtain ⟨hd, he⟩ := Prod.mk.inj hend
  have hmet := ((evict_enforces_memory_budgets imageJson largeKey (by decide +kernel)).2 _ s' p'
    (fun c hc => by rw [List.eq_of_mem_replicate hc]) hr).2 hd
  exact ⟨s', p', hr, hd, he, hmet.2⟩

end Dockfoxprox
