import Dockfoxprox.Proofs.Agreement
import Dockfoxprox.Proofs.Candidates
import Dockfoxprox.Proofs.Collection
import Dockfoxprox.Proofs.Queues

/-! The two reference counts of a tracked blob. A step takes from a count what it takes from
the references the manifests still have together with those that the work in progress has yet
to give up. -/

namespace Dockfoxprox

open MapSum

section
variable (fromSlice : Bytes → Option Json)

/-- The unevicted references that the work in progress has not given up yet. -/
def Phase.pendingUnevicted (d : Digest) : Phase → ℕ
  | .spillBlobs sp | .spillWrite sp _ _ | .spillInsert sp _ _ =>
    if sp.old then 0 else sp.todo.count d
  | .retainTags _ m => if m.evicted then 0 else manifestRefs fromSlice d m
  | .cascade old todo | .cascadeUnlink _ old todo => if old then 0 else todo.count d
  | _ => 0

namespace Pass

/-- The references a count of the pass is about, -/
def refsLeft (s : State) (p : Pass) (d : Digest) : ℕ :=
  refsTo fromSlice s.manifests d + p.phase.pending fromSlice d

/-- and the unevicted ones. -/
def unevictedLeft (s : State) (p : Pass) (d : Digest) : ℕ :=
  unevictedTo fromSlice s.manifests d + p.phase.pendingUnevicted fromSlice d

end Pass

end

variable {fromSlice : Bytes → Option Json}

theorem unevictedTo_dropManifest {ms : DashMap Digest Manifest} {dm : Digest} {m : Manifest}
    (h : ms.lookup dm = some m) (d : Digest) :
    unevictedTo fromSlice ms d =
      unevictedTo fromSlice (ms.erase dm) d + if m.evicted then 0 else manifestRefs fromSlice d m := by
  rw [unevictedTo, total_eq_erase _ _ dm, share, h, Option.elim_some, add_comm]
  rfl

/-- A manifest that is flagged has no unevicted reference any more. -/
theorem unevictedTo_markEvicted {ms : DashMap Digest Manifest} {dm : Digest} {m : Manifest}
    (h : ms.lookup dm = some m) (d : Digest) :
    unevictedTo fromSlice ms d = unevictedTo fromSlice ((Act.markEvicted dm).onManifests ms) d +
      if m.evicted then 0 else manifestRefs fromSlice d m := by
  rw [unevictedTo_dropManifest h d]
  simp only [Act.onManifests, h]
  rw [unevictedTo, unevictedTo, total_insert, if_pos rfl, zero_add]

theorem unevictedTo_le (ms : DashMap Digest Manifest) (d : Digest) :
    unevictedTo fromSlice ms d ≤ refsTo fromSlice ms d := by
  refine total_mono (fun _ m => ?_) ms
  split
  · exact Nat.zero_le _
  · exact Nat.le_refl _

theorem unevictedTo_eq_zero {ms : DashMap Digest Manifest} {d : Digest} :
    unevictedTo fromSlice ms d = 0 ↔ ∀ dm m, ms.lookup dm = some m → m.evicted = false →
      d ∉ referencedDigests fromSlice m.content := by
  unfold unevictedTo total
  rw [List.sum_eq_zero_iff_forall_eq_nat]
  simp only [List.mem_map, forall_exists_index, and_imp]
  constructor
  · intro h dm m hm hev
    have h0 := h _ ⟨dm, m⟩ (mem_entries.mpr hm) rfl
    rw [if_neg (by simp [hev])] at h0
    exact manifestRefs_eq_zero.mp h0
  · rintro h x ⟨dm, m⟩ he rfl
    split
    · rfl
    · rename_i hev
      exact manifestRefs_eq_zero.mpr (h dm m (mem_entries.mp he) (Bool.eq_false_iff.mpr hev))

theorem BlobBk.unevict_unevictedRefs (bb : BlobBk) (old : Bool) :
    (bb.unevict old).unevictedRefs = bb.unevictedRefs - if old then 0 else 1 := by
  cases old <;> rfl

theorem BlobBk.unref_unevictedRefs (bb : BlobBk) (old : Bool) :
    (bb.unref old).unevictedRefs = bb.unevictedRefs - if old then 0 else 1 := by
  cases old <;> rfl

/-- The references in a list still to visit, once the first of them is visited. -/
theorem count_visit (old : Bool) (r : Digest) (rest : List Digest) :
    (if old then 0 else (r :: rest).count r) =
      (if old then 0 else rest.count r) + if old then 0 else 1 := by
  cases old
  · exact List.count_cons_self
  · rfl

theorem count_visit_of_ne {d r : Digest} (hne : d ≠ r) (rest : List Digest) :
    (r :: rest).count d = rest.count d := List.count_cons_of_ne hne.symm

namespace Pass

variable {s s' : State} {p p' : Pass} {c : Choice} {a : Act}

section
variable (fromSlice)

/-- A step takes as much from the counts of a tracked blob as from what they count. -/
structure Counts (s : State) (p : Pass) (s' : State) (p' : Pass) (d : Digest) (bb bb' : BlobBk)
    (k j : ℕ) : Prop where
  refs : bb'.refs = bb.refs - k
  unevicted : bb'.unevictedRefs = bb.unevictedRefs - j
  refsKept : refsLeft fromSlice s p d = refsLeft fromSlice s' p' d + k
  unevictedKept : unevictedLeft fromSlice s p d = unevictedLeft fromSlice s' p' d + j

end

/-- The references a step leaves alone. -/
theorem Counts.none {d : Digest} {bb : BlobBk}
    (hr : refsLeft fromSlice s p d = refsLeft fromSlice s' p' d)
    (hu : unevictedLeft fromSlice s p d = unevictedLeft fromSlice s' p' d) :
    Counts fromSlice s p s' p' d bb bb 0 0 := ⟨rfl, rfl, hr, hu⟩

/-- A spill visits one reference. -/
theorem Counts.visit {q : Pass} {d r : Digest} {bb bb' : BlobBk} {old : Bool} {rest : List Digest}
    (hb : p.blobs.lookup r = some bb) (hm : q.blobs = p.blobs.insert r (bb.unevict old))
    (hr : q.phase.pending fromSlice d = p.phase.pending fromSlice d)
    (hp : p.phase.pendingUnevicted fromSlice d = if old then 0 else (r :: rest).count d)
    (hq : q.phase.pendingUnevicted fromSlice d = if old then 0 else rest.count d)
    (hb' : q.blobs.lookup d = some bb') :
    ∃ bb k j, p.blobs.lookup d = some bb ∧ Counts fromSlice s p s q d bb bb' k j := by
  by_cases hd : d = r
  · subst hd
    rw [hm, AList.lookup_insert, Option.some.injEq] at hb'
    subst hb'
    refine ⟨bb, 0, if old then 0 else 1, hb, by simp, bb.unevict_unevictedRefs old, ?_, ?_⟩
    · rw [refsLeft, refsLeft, hr, add_zero]
    · rw [unevictedLeft, unevictedLeft, hp, hq, count_visit, add_assoc]
  · rw [hm, AList.lookup_insert_ne hd] at hb'
    refine ⟨bb', 0, 0, hb', .none ?_ ?_⟩
    · rw [refsLeft, refsLeft, hr]
    · rw [unevictedLeft, unevictedLeft, hp, hq, count_visit_of_ne hd]

/-- The cascade visits one reference. -/
theorem Counts.cascade {q : Pass} {d r : Digest} {bb bb' : BlobBk} {old : Bool}
    {todo : List Digest}
    (hp : p.phase = .cascade old (r :: todo)) (hb : p.blobs.lookup r = some bb)
    (hm : q.blobs = p.blobs.insert r (bb.unref old))
    (ha : a.onManifests s.manifests = s.manifests)
    (hq : ∀ d, q.phase.pending fromSlice d = todo.count d ∧
      q.phase.pendingUnevicted fromSlice d = if old then 0 else todo.count d)
    (hb' : q.blobs.lookup d = some bb') :
    ∃ bb k j, p.blobs.lookup d = some bb ∧ Counts fromSlice s p (a.apply s) q d bb bb' k j := by
  by_cases hd : d = r
  · subst hd
    rw [hm, AList.lookup_insert, Option.some.injEq] at hb'
    subst hb'
    refine ⟨bb, 1, if old then 0 else 1, hb, bb.unref_refs old, bb.unref_unevictedRefs old, ?_, ?_⟩
    · rw [refsLeft, refsLeft, Act.apply_manifests, ha, (hq d).1, hp, Phase.pending,
        List.count_cons_self, add_assoc]
    · rw [unevictedLeft, unevictedLeft, Act.apply_manifests, ha, (hq d).2, hp,
        Phase.pendingUnevicted, count_visit, add_assoc]
  · rw [hm, AList.lookup_insert_ne hd] at hb'
    refine ⟨bb', 0, 0, hb', .none ?_ ?_⟩
    · rw [refsLeft, refsLeft, Act.apply_manifests, ha, (hq d).1, hp, Phase.pending,
        count_visit_of_ne hd]
    · rw [unevictedLeft, unevictedLeft, Act.apply_manifests, ha, (hq d).2, hp,
        Phase.pendingUnevicted, count_visit_of_ne hd]

theorem pendingUnevicted_spill {sp : ManifestSpill} {d r : Digest} {rest : List Digest}
    (hp : p.phase = .spillBlobs sp) (ht : sp.todo = r :: rest) :
    p.phase.pendingUnevicted fromSlice d = if sp.old then 0 else (r :: rest).count d := by
  rw [hp]
  simp only [Phase.pendingUnevicted, ht]

/-- The step lemma of the counts. -/
theorem Step.counts (h : Agrees s p) (hs : Step fromSlice s p c a p') (hf : p'.phase ≠ .failed)
    {d : Digest} {bb' : BlobBk} (hb' : p'.blobs.lookup d = some bb') :
    ∃ bb k j, p.blobs.lookup d = some bb ∧ Counts fromSlice s p (a.apply s) p' d bb bb' k j := by
  have hholds := h.holds
  -- a step that changes no count and no reference left
  have hsame {q : Pass} {a : Act} (hq : q.blobs.lookup d = some bb') (ht : q.blobs = p.blobs)
      (hm : a.onManifests s.manifests = s.manifests)
      (hr : q.phase.pending fromSlice d = p.phase.pending fromSlice d)
      (hu : q.phase.pendingUnevicted fromSlice d = p.phase.pendingUnevicted fromSlice d) :
      ∃ bb k j, p.blobs.lookup d = some bb ∧ Counts fromSlice s p (a.apply s) q d bb bb' k j := by
    refine ⟨bb', 0, 0, ht ▸ hq, .none ?_ ?_⟩
    · rw [refsLeft, refsLeft, Act.apply_manifests, hm, hr]
    · rw [unevictedLeft, unevictedLeft, Act.apply_manifests, hm, hu]
  cases hs with
  | begin hp => rw [hp] at hholds; exact hholds.elim
  | scanBlobs hp => rw [hp] at hholds; exact hholds.elim
  | scanManifests hp => rw [hp] at hholds; exact hholds.elim
  | scanRedis hp => rw [hp] at hholds; exact hholds.elim
  | writeFailed => exact absurd rfl hf
  | stale hp => exact hsame hb' rfl rfl rfl rfl
  | dropRedis hp => exact hsame hb' rfl rfl rfl rfl
  | @dropManifest hp pool t dm rest m hl ha hpop hm =>
    refine ⟨bb', 0, 0, hb', .none ?_ ?_⟩
    · rw [refsLeft, refsLeft, Act.apply_manifests, hp, refsTo_dropManifest hm]
      rfl
    · rw [unevictedLeft, unevictedLeft, Act.apply_manifests, hp, unevictedTo_dropManifest hm]
      rfl
  | @spillManifest hp t dm rest m ha hpop hm =>
    refine ⟨bb', 0, 0, hb', .none ?_ ?_⟩
    · rw [refsLeft, refsLeft, Act.apply_manifests, hp, refsTo_markEvicted]
      rfl
    · rw [unevictedLeft, unevictedLeft, Act.apply_manifests, hp, unevictedTo_markEvicted hm]
      rfl
  | @spillEnd sp hp ht =>
    refine hsame hb' rfl rfl (by rw [hp]; rfl) ?_
    rw [hp]
    simp only [goto_phase, Phase.pendingUnevicted, ht, List.count_nil, ite_self]
  | @spillMissing sp r rest hp ht hb =>
    have hne : d ≠ r := by rintro rfl; rw [goto_blobs, hb] at hb'; cases hb'
    refine hsame hb' rfl rfl (by rw [hp]; rfl) ?_
    rw [hp]
    simp only [goto_phase, Phase.pendingUnevicted, ht, count_visit_of_ne hne]
  | @spillKeep sp r rest bb hp ht hb hk =>
    exact Counts.visit hb rfl (by rw [hp]; rfl) (pendingUnevicted_spill hp ht) rfl hb'
  | @spillFetch sp r rest bb id content mt t hp ht hb hu htier hl =>
    exact Counts.visit hb rfl (by rw [hp]; rfl) (pendingUnevicted_spill hp ht) rfl hb'
  | spillWrite hp => exact hsame hb' rfl rfl (by rw [hp]; rfl) (by rw [hp]; rfl)
  | spillInsert hp => exact hsame hb' rfl rfl (by rw [hp]; rfl) (by rw [hp]; rfl)
  | @cascadeEnd old hp =>
    refine hsame hb' rfl rfl (by rw [hp]; rfl) ?_
    rw [hp]
    exact (ite_self 0).symm
  | @cascadeMissing old r todo hp hb =>
    have hne : d ≠ r := by rintro rfl; rw [goto_blobs, hb] at hb'; cases hb'
    refine hsame hb' rfl rfl ?_ ?_
    · rw [hp]
      exact (count_visit_of_ne hne todo).symm
    · rw [hp]
      simp only [goto_phase, Phase.pendingUnevicted, count_visit_of_ne hne]
  | @cascadeKeep old r todo bb hp hb hk => exact Counts.cascade hp hb rfl rfl (fun _ => ⟨rfl, rfl⟩) hb'
  | @cascadeDrop old r todo bb blob hp hb hr ht hl =>
    cases blob <;> exact Counts.cascade hp hb rfl rfl (fun _ => ⟨rfl, rfl⟩) hb'
  | cascadeUnlink hp =>
    exact hsame hb' rfl (Act.onManifests_inert (Act.inert_unlink ..) _) (by rw [hp]; rfl)
      (by rw [hp]; rfl)
  | sweepUnlink hp =>
    exact hsame hb' rfl (Act.onManifests_inert (Act.inert_unlink ..) _) (by rw [hp]; rfl)
      (by rw [hp]; rfl)
  | @sweepDrop todo r bb blob hp =>
    cases blob <;> exact hsame hb' rfl rfl (by rw [hp]; rfl) (by rw [hp]; rfl)
  | _ hp => exact hsame hb' rfl rfl (by rw [hp]; rfl) (by rw [hp]; rfl)

section
variable (fromSlice)

/-- Every count stands in the relation `R` to what it counts. A pass that failed has given
up its work. -/
def CountsAre (R : ℕ → ℕ → Prop) (s : State) (p : Pass) : Prop :=
  p.phase ≠ .failed → ∀ d bb, p.blobs.lookup d = some bb →
    R bb.refs (refsLeft fromSlice s p d) ∧ R bb.unevictedRefs (unevictedLeft fromSlice s p d)

end

variable {R : ℕ → ℕ → Prop}

theorem CountsAre.step (h : CountsAre fromSlice R s p) (hR : ∀ u n k, R u (n + k) → R (u - k) n)
    (hag : Agrees s p) (hs : Step fromSlice s p c a p') : CountsAre fromSlice R (a.apply s) p' := by
  intro hf d bb' hb'
  obtain ⟨bb, k, j, hb, hc⟩ := hs.counts hag hf hb'
  obtain ⟨hrefs, hunevicted⟩ := h hs.not_failed d bb hb
  rw [hc.refs, hc.unevicted]
  exact ⟨hR _ _ _ (hc.refsKept ▸ hrefs), hR _ _ _ (hc.unevictedKept ▸ hunevicted)⟩

theorem CountsAre.start (s : State) (hR : ∀ d, (s.blobs.lookup d).isSome →
    R (refsTo fromSlice s.manifests d % 2 ^ 32) (refsTo fromSlice s.manifests d) ∧
      R (unevictedTo fromSlice s.manifests d % 2 ^ 32) (unevictedTo fromSlice s.manifests d)) :
    CountsAre fromSlice R (Act.countRun.apply s) (scanned fromSlice s) := by
  intro _ d bb hd
  rw [scanned_lookup, Option.map_eq_some_iff] at hd
  obtain ⟨b, hb, rfl⟩ := hd
  exact hR d (by rw [hb]; rfl)

end Pass

def otherImage : Digest := ⟨List.replicate 32 8, rfl⟩

/-- Two manifests and a large blob in memory that both reference. -/
def sharedLayer (evicted : Bool) (diskLimit : ℕ) : State :=
  (((State.new ⟨1400, some 1000, diskLimit⟩ 100000).insertBlob layer
    (.inMemory 0 (List.replicate 1025 97) "" 5)).insertManifest image
      ⟨imageBody, "", 3, evicted⟩).insertManifest otherImage ⟨imageBody, "", 4, evicted⟩

end Dockfoxprox
