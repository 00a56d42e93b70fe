import Dockfoxprox.Proofs.Budgets
import Dockfoxprox.Proofs.Lru

/-! The disk budget. The disk heap gets the manifest whose spill moved a blob, and not the
other manifests that reference the blob. As long as these are in the disk heap already, the
heap has every manifest with a blob on disk. -/

namespace Dockfoxprox

open MapSum Machine

/-- The disk budget is met, or nothing is left that it could take. -/
def State.DiskBudgetMet (fromSlice : Bytes → Option Json) (s : State) : Prop :=
  Pool.disk.usage s.bytesIn ≤ Pass.target s.config.diskLimit ∨
    ∀ x, ¬ s.OnDisk x ∧ ¬ s.NeedsDisk fromSlice x

/-- The blob that the next step moves to disk, and the manifest it is spilled for. -/
def Phase.moves : Phase → Option (Digest × Digest)
  | .spillInsert sp r _ => some (r, sp.digest)
  | _ => none

namespace Pass

theorem blobTier_disk {b : Blob} :
    (blobTier b).1 = .disk ↔ ∃ id size mt t, b = .onDisk id size mt t := by
  cases b with
  | inMemory id content mt t =>
    simp only [blobTier]
    split <;> simp
  | onDisk id size mt t => exact ⟨fun _ => ⟨id, size, mt, t, rfl⟩, fun _ => rfl⟩

section
variable (fromSlice : Bytes → Option Json)

instance (s : State) (x : Item) : Decidable (s.NeedsDisk fromSlice x) :=
  match x with
  | .redis _ => inferInstanceAs (Decidable False)
  | .manifest d => decidable_of_iff (∃ m ∈ s.manifests.lookup d,
      ∃ r ∈ referencedDigests fromSlice m.content, ∃ b ∈ s.blobs.lookup r, (blobTier b).1 = .disk) <| by
    simp only [State.NeedsDisk, Option.mem_def]
    refine exists_congr fun m => and_congr_right fun _ => exists_congr fun r =>
      and_congr_right fun _ => ⟨fun ⟨b, hb, ht⟩ => ?_, fun ⟨id, size, mt, t, hb⟩ => ⟨_, hb, rfl⟩⟩
    obtain ⟨id, size, mt, t, rfl⟩ := blobTier_disk.mp ht
    exact ⟨id, size, mt, t, hb⟩

/-- Where the step moves a blob to disk, every stored manifest that references the blob is the
one being spilled or a candidate of the disk heap. -/
def SpillsTracked (x : State × Pass) (_ : Choice) (_ : State × Pass) : Prop :=
  ∀ q ∈ x.2.phase.moves, ∀ d ∈ x.1.manifests.keys, ∀ m ∈ x.1.manifests.lookup d,
    q.1 ∈ referencedDigests fromSlice m.content →
      d = q.2 ∨ ∃ y ∈ x.2.heap .disk, y.item = .manifest d

instance (x : State × Pass) (c : Choice) (x' : State × Pass) :
    Decidable (SpillsTracked fromSlice x c x') :=
  inferInstanceAs (Decidable (∀ q ∈ x.2.phase.moves, ∀ d ∈ x.1.manifests.keys,
    ∀ m ∈ x.1.manifests.lookup d, _ → _))

theorem spillsTracked_scanning {fromSlice : Bytes → Option Json} {x x' : State × Pass} {c : Choice}
    (h : x.2.phase.scanning) : SpillsTracked fromSlice x c x' := by
  intro q hq
  cases hp : x.2.phase <;> rw [hp] at h hq <;> first | (cases hq; done) | cases h

/-- A manifest that references a blob on disk is in the disk heap, or on its way there. -/
def DiskQueued (s : State) (p : Pass) : Prop :=
  ∀ d, s.NeedsDisk fromSlice (.manifest d) →
    (∃ y ∈ p.heap .disk, y.item = .manifest d) ∨ ∃ t, p.phase.Handles (.manifest t d)

end

variable {fromSlice : Bytes → Option Json} {s s' s₀ : State} {p p' : Pass} {c : Choice} {a : Act}

/-- A manifest gets a blob on disk only by the move of that blob. -/
theorem Step.needsDisk (hs : Step fromSlice s p c a p') (hal : Alone fromSlice s₀ s p) {d : Digest}
    (h : (a.apply s).NeedsDisk fromSlice (.manifest d)) :
    s.NeedsDisk fromSlice (.manifest d) ∨ ∃ m sp r held, s.manifests.lookup d = some m ∧
      p.phase = .spillInsert sp r held ∧ r ∈ referencedDigests fromSlice m.content := by
  obtain ⟨m', hm', r, hr, id, size, mt, t, hb⟩ := h
  obtain ⟨m, hm, heq, -⟩ := (hal.keeps_step hs).manifests d m' hm'
  have hr : r ∈ referencedDigests fromSlice m.content := by rwa [heq] at hr
  have hold (hb : s.blobs.lookup r = some (.onDisk id size mt t)) :
      s.NeedsDisk fromSlice (.manifest d) :=
    ⟨m, hm, r, hr, id, size, mt, t, hb⟩
  rw [Act.apply_blobs] at hb
  have hinert (ha : a.inert) : s.NeedsDisk fromSlice (.manifest d) :=
    hold (by rwa [Act.onBlobs_inert ha] at hb)
  cases hs with
  | @spillInsert sp r' held hp =>
    rw [Act.onBlobs, lookup_insert_apply] at hb
    split at hb
    · rename_i hrr
      subst hrr
      exact .inr ⟨m, sp, r, held, hm, hp, hr⟩
    · exact .inl (hold hb)
  | cascadeDrop => exact .inl (hold (lookup_of_erase hb))
  | sweepDrop => exact .inl (hold (lookup_of_erase hb))
  | writeFailed => exact .inl (hinert (Act.inert_leftover ..))
  | cascadeUnlink => exact .inl (hinert (Act.inert_unlink ..))
  | sweepUnlink => exact .inl (hinert (Act.inert_unlink ..))
  | _ => exact .inl (hold hb)

/-- What is tracked stays so while its manifest is in the maps. -/
theorem Turn.diskQueued (ht : Turn s p a p') (hf : p'.phase ≠ .failed) {d : Digest} {m : Manifest}
    (hm : (a.apply s).manifests.lookup d = some m)
    (h : (∃ y ∈ p.heap .disk, y.item = .manifest d) ∨ ∃ t, p.phase.Handles (.manifest t d)) :
    (∃ y ∈ p'.heap .disk, y.item = .manifest d) ∨ ∃ t, p'.phase.Handles (.manifest t d) := by
  cases ht with
  | quiet _ _ hh hj => exact h.imp (fun hy => by rwa [hh]) fun ⟨t, hx⟩ => ⟨t, hj _ hx⟩
  | @stale pool x rest i hp ha hpop hstale =>
    rcases h with ⟨y, hy, hd⟩ | ⟨t, hx⟩
    · refine .inl ⟨y, mem_popped_of_ne hpop hy fun _ hyx => ?_, hd⟩
      subst hyx
      cases y with
      | manifest t d' =>
        cases hd
        exact absurd (hm.symm.trans hstale) nofun
      | redis => cases hd
    · rw [hp] at hx
      exact hx.elim
  | @drop pool x rest i _ hp ha hl hpop hx hh hj =>
    rcases h with ⟨y, hy, hd⟩ | ⟨t, hx⟩
    · rw [hh]
      refine .inl ⟨y, mem_popped_of_ne hpop hy fun _ hyx => ?_, hd⟩
      subst hyx
      cases y with
      | manifest t d' =>
        cases hd
        simp [Candidate.dropAct, Act.onManifests] at hm
      | redis => cases hd
    · rw [hp] at hx
      exact hx.elim
  | start hp ha hpop hx hh hj =>
    rcases h with ⟨y, hy, hd⟩ | ⟨t, hx⟩
    · rw [hh]
      exact .inl ⟨y, mem_popped_of_ne hpop hy fun hpool => absurd hpool (by decide), hd⟩
    · rw [hp] at hx
      exact hx.elim
  | finish hj _ _ hh =>
    rw [hh]
    rcases h with ⟨y, hy, hd⟩ | ⟨t, hx⟩
    · exact .inl ⟨y, mem_push_disk hy, hd⟩
    · obtain rfl := (hj _).mp hx
      exact .inl ⟨.manifest t d, by simp, rfl⟩

/-- The step lemma of the disk heap. -/
theorem DiskQueued.step (h : DiskQueued fromSlice s p) (hal : Alone fromSlice s₀ s p)
    (hs : Step fromSlice s p c a p') (hf : p'.phase ≠ .failed)
    (hc : SpillsTracked fromSlice (s, p) c (a.apply s, p')) :
    DiskQueued fromSlice (a.apply s) p' := by
  intro d hd
  obtain ⟨m', hm', -⟩ := id hd
  refine (hs.turn hal.agrees).diskQueued hf hm' ?_
  rcases hs.needsDisk hal hd with hold | ⟨m, sp, r, held, hm, hp, hr⟩
  · exact h d hold
  · have hkey : d ∈ s.manifests.keys :=
      AList.mem_keys.mp (AList.lookup_isSome.mp (by rw [hm]; rfl))
    rcases hc (r, sp.digest) (by rw [hp]; rfl) d hkey m hm hr with rfl | hmem
    · exact .inr ⟨sp.lastAccesses, by rw [hp]; rfl⟩
    · exact .inl hmem

theorem DiskQueued.start (s : State) :
    DiskQueued fromSlice (Act.countRun.apply s) (scanned fromSlice s) := by
  intro d hd
  obtain ⟨m, hm, -⟩ := id hd
  have hkeeps : (Act.countRun.apply s).Keeps (Act.countRun.apply s) := .refl _
  obtain ⟨x, hx, hw⟩ := wanted_needsDisk hkeeps hd ⟨m, hm⟩
  exact .inl ⟨x, scanned_wanted.mpr hw, hx⟩

end Pass

/-- A pass that runs alone and returns Ok leaves the disk budget met, or nothing on disk that
it could take for it, if no spill moves a blob that a manifest outside the disk heap
references, apart from the manifest that is spilled. -/
theorem evict_enforces_disk_budget_of_tracked (fromSlice : Bytes → Option Json) (s : State)
    (hfit : grand s.bytesIn < 2 ^ 64) (choices : List Choice) (s' : State) (p' : Pass)
    (hr : run (Pass.step fromSlice) (s, .start) choices = some (s', p')) (hd : p'.phase = .done)
    (htracked : Along (Pass.step fromSlice) (Pass.SpillsTracked fromSlice) (s, .start) choices) :
    s'.DiskBudgetMet fromSlice := by
  obtain ⟨_, _, _, _, rest, rfl, hrest⟩ := Pass.run_start hr (.inl hd)
  rw [Pass.along_scanned fun _ _ _ => Pass.spillsTracked_scanning, List.drop_succ_cons,
    List.drop_succ_cons, List.drop_succ_cons, List.drop_succ_cons, List.drop_zero] at htracked
  have hend := run_invariant (I := fun x : State × Pass => Pass.Enforces fromSlice s x.1 x.2 ∧
    (x.2.phase ≠ .failed → Pass.DiskQueued fromSlice x.1 x.2)) (fun x c x' hi hc hs => by
      obtain ⟨a, q, hn, rfl⟩ := Pass.step_eq_some.mp hs
      have hst := Pass.step_of_next hn
      exact ⟨hi.1.step hfit hst, fun hf => (hi.2 hst.not_failed).step hi.1.alone hst hf hc⟩)
    ⟨.start hfit, fun _ => .start s⟩ htracked hrest
  obtain ⟨he, hq⟩ := hend
  have hf : p'.phase ≠ .failed := by rw [hd]; exact Phase.noConfusion
  have hidle (x : Candidate) : ¬ p'.phase.Handles x := by rw [hd]; exact id
  refine (he.usage_le hfit (by rw [hd]; rfl) hf .disk).imp_right fun hempty y => ⟨fun hy => ?_, ?_⟩
  · obtain ⟨x, -, hw⟩ := @Pass.wanted_disk fromSlice s' s.blobs y hy
    have hmem := he.alone.mem_heap hidle hw (.inl (by decide))
    rw [hempty] at hmem
    cases hmem
  · cases y with
    | redis key => exact id
    | manifest d =>
      intro hy
      rcases hq hf d hy with ⟨x, hx, -⟩ | ⟨t, hx⟩
      · rw [hempty] at hx
        cases hx
      · exact hidle _ hx

/-- The choices of a pass that finds the older manifest second in the disk heap. -/
def newerFirst : List Choice :=
  List.replicate 12 ({} : Choice) ++ { pick := 1 } :: List.replicate 19 ({} : Choice)

/-- Two manifests that no pass has flagged yet are both in the disk heap when the blob moves. -/
theorem evict_enforces_disk_budget_of_tracked_shared :
    ∃ s' p', run (Pass.step imageJson) (sharedLayer false 0, .start) newerFirst = some (s', p') ∧
      p'.phase = .done ∧ s'.DiskBudgetMet imageJson := by
  have hrun : ((run (Pass.step imageJson) (sharedLayer false 0, .start) newerFirst).map
      fun x => x.2.phase) = some .done := by decide +kernel
  obtain ⟨⟨s', p'⟩, hr, hd⟩ := Option.map_eq_some_iff.mp hrun
  exact ⟨s', p', hr, hd, evict_enforces_disk_budget_of_tracked imageJson (sharedLayer false 0)
    (by decide +kernel) newerFirst s' p' hr hd (by decide +kernel)⟩

/-- With both flagged before, the pass spills the blob for the older one and drops that one. The
other one keeps the blob on disk. -/
theorem disk_budget_missed :
    ∃ s' p', run (Pass.step imageJson) (sharedLayer true 0, .start) (List.replicate 24 {}) =
        some (s', p') ∧ p'.phase = .done ∧ ¬ s'.DiskBudgetMet imageJson := by
  have hrun : ((run (Pass.step imageJson) (sharedLayer true 0, .start) (List.replicate 24 {})).map
      fun x => (x.2.phase, Pool.disk.usage x.1.bytesIn, Pass.target x.1.config.diskLimit,
        decide (x.1.NeedsDisk imageJson (.manifest otherImage)))) =
      some (.done, 1025, 0, true) := by decide +kernel
  obtain ⟨⟨s', p'⟩, hr, hend⟩ := Option.map_eq_some_iff.mp hrun
  simp only [Prod.mk.injEq, decide_eq_true_eq] at hend
  obtain ⟨hd, husage, htarget, hneeds⟩ := hend
  refine ⟨s', p', hr, hd, ?_⟩
  rintro (hmet | hnone)
  · rw [husage, htarget] at hmet
    cases hmet
  · exact (hnone _).2 hneeds

end Dockfoxprox
