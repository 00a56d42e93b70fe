import Dockfoxprox.Proofs.Lockstep

/-! What a pass leaves does not depend on the order of the maps. Past its loop the sweep
visits the table in any order, but what it is going to leave is settled: the expired blobs
and their files go, and the counters become the accumulators. -/

namespace Dockfoxprox

open MapSum Machine

/-- The acts of a pass past its loop. -/
def Act.ending : Act → Bool
  | .idle | .dropBlob _ | .removeFile _ | .publish _ _ _ | .store _ _ => true
  | _ => false

/-- The states differ in their blobs, files, counters and metrics at most. -/
structure State.SameRest (s s' : State) : Prop where
  config : s'.config = s.config
  manifests : s'.manifests = s.manifests
  tags : s'.tags = s.tags
  redis : s'.redisEntries = s.redisEntries
  now : s'.now = s.now
  unlinks : s'.unlinks = s.unlinks

theorem State.SameRest.trans {s s' s'' : State} (h : s.SameRest s') (h' : s'.SameRest s'') :
    s.SameRest s'' :=
  ⟨h'.config.trans h.config, h'.manifests.trans h.manifests, h'.tags.trans h.tags,
    h'.redis.trans h.redis, h'.now.trans h.now, h'.unlinks.trans h.unlinks⟩

theorem Act.sameRest {a : Act} (ha : a.ending) (s : State) : s.SameRest (a.apply s) := by
  obtain ⟨hnow, -, hunlinks⟩ := a.apply_rest s
  refine ⟨a.apply_config s, ?_, ?_, ?_, hnow, hunlinks.trans ?_⟩
  · rw [a.apply_manifests]
    cases a <;> first | rfl | cases ha
  · rw [a.apply_tags]
    cases a <;> first | rfl | cases ha
  · rw [a.apply_redisEntries]
    cases a <;> first | rfl | cases ha
  · cases a <;> first | rfl | cases ha

def Phase.toStore : Phase → List Bucket
  | .store left => left
  | .done => []
  | _ => Pass.finalStores

namespace Pass

/-- The pass is past its loop, or leaves it with the next step. -/
def Ending (s : State) (p : Pass) : Prop :=
  p.phase.scanning = false ∧ (p.phase.looping → Stops (s, p))

def Unlinks (s : State) (p : Pass) (id : ℕ) : Prop :=
  p.phase.unlinks = some id ∨
    ∃ d size mt t, p.Expired d ∧ s.blobs.lookup d = some (.onDisk id size mt t)

instance (p : Pass) (d : Digest) : Decidable (p.Expired d) :=
  match h : p.blobs.lookup d with
  | none => isFalse fun ⟨bb, hb, _⟩ => by rw [h] at hb; cases hb
  | some bb => decidable_of_iff (bb.refs = 0 ∧ blobGraceSeconds ≤ p.now - bb.lastAccessed)
      ⟨fun he => ⟨bb, h, he⟩, fun ⟨bb', hb, he⟩ => by rw [h] at hb; cases hb; exact he⟩

structure Leaves (removed : ℕ → Bool) (s : State) (p : Pass) (s' : State) : Prop where
  rest : s.SameRest s'
  blobs : ∀ d, s'.blobs.lookup d = if p.Expired d then none else s.blobs.lookup d
  gone : ∀ id, removed id → p.Unlinks s id → s'.files.lookup id = none
  kept : ∀ id, ¬ (removed id ∧ p.Unlinks s id) → s'.files.lookup id = s.files.lookup id
  usage : ∀ b, s'.usage b = if b ∈ p.phase.toStore then (p.acc b : BitVec 64) else s.usage b

variable {fromSlice : Bytes → Option Json} {s s' s₁ s₂ s₁' s₂' : State} {p p' q : Pass} {c : Choice}
  {a : Act} {removed : ℕ → Bool}

theorem Step.ending (hs : Step fromSlice s p c a p') (h : Ending s p) :
    a.ending ∧ p'.phase.scanning = false ∧ p'.phase.looping = false := by
  refine ⟨?_, hs.scanning h.1, ?_⟩
  · by_cases hl : p.phase.looping
    · rw [(hs.of_arm_none (h.2 hl).1 (h.2 hl).2).1]
      rfl
    · have hscan := h.1
      cases hs with
      | sweepUnlink hp => unfold unlink; split <;> rfl
      | sweepEnd | sweepKeep | sweepDrop | publish | storeEnd | store => rfl
      | writeFailed hp =>
        rcases hp with ⟨_, _, _, hp, -⟩ | ⟨_, _, _, _, hp⟩ <;> exact absurd (by rw [hp]; rfl) hl
      | begin hp | scanBlobs hp | scanManifests hp | scanRedis hp => rw [hp] at hscan; cases hscan
      | _ hp => exact absurd (by rw [hp]; rfl) hl
  · by_contra hne
    have hl := hs.looping (by simpa using hne) h.1
    rw [(hs.of_arm_none (h.2 hl).1 (h.2 hl).2).2] at hne
    exact hne rfl

theorem expired_congr (ht : ∀ d, p'.blobs.lookup d = p.blobs.lookup d) (hn : p'.now = p.now)
    (d : Digest) : p'.Expired d ↔ p.Expired d := by
  simp only [Expired, ht, hn]

/-- A step that removes neither a blob nor a file. -/
theorem Leaves.still (h : Leaves removed (a.apply s) p' s') (ha : a.ending)
    (hb : a.onBlobs s.blobs = s.blobs) (hf : a.onFiles s.files = s.files)
    (ht : p'.blobs = p.blobs) (hn : p'.now = p.now) (hul : p'.phase.unlinks = p.phase.unlinks)
    (hu : ∀ b, (if b ∈ p'.phase.toStore then (p'.acc b : BitVec 64) else (a.apply s).usage b) =
      if b ∈ p.phase.toStore then (p.acc b : BitVec 64) else s.usage b) :
    Leaves removed s p s' := by
  have hexp := @expired_congr p p' (fun d => by rw [ht]) hn
  have hun (id : ℕ) : p'.Unlinks (a.apply s) id ↔ p.Unlinks s id := by
    simp only [Unlinks, hul, hexp, Act.apply_blobs, hb]
  have hfiles : (a.apply s).files = s.files := (a.apply_rest s).2.1.trans hf
  refine ⟨(Act.sameRest ha s).trans h.rest, fun d => ?_, fun id hr hid => ?_, fun id hid => ?_,
    fun b => (h.usage b).trans (hu b)⟩
  · rw [h.blobs, Act.apply_blobs, hb]
    simp only [hexp]
  · exact h.gone id hr ((hun id).mpr hid)
  · rw [h.kept id (by rwa [hun]), hfiles]

/-- The blobs are not charged to the manifests. -/
theorem removeBlob_manifestMemory (s : State) (d : Digest) :
    (s.removeBlob d).2.usage .manifestMemory = s.usage .manifestMemory := by
  have hz : toUsage (share (fun _ => blobCharge) s.blobs d) .manifestMemory = 0 := by
    unfold share
    cases s.blobs.lookup d with
    | none => rfl
    | some b =>
      cases b with
      | onDisk id size mt t => simp [toUsage, blobCharge, blobBucket, charge]
      | inMemory id content mt t =>
        simp only [Option.elim_some, blobCharge, blobBucket]
        split <;> simp [toUsage, charge]
  rw [removeBlob_usage, Pi.sub_apply, hz, sub_zero]

/-- The sweep of an expired blob, and of its file if it has one. -/
theorem Leaves.sweepDrop {d : Digest} {todo rest : List Digest} {blob : Blob}
    (h : Leaves removed ((Act.dropBlob d).apply s) (p.goto (afterSweep rest blob)) s')
    (hp : p.phase = .sweep todo) (he : p.Expired d) (hl : s.blobs.lookup d = some blob) :
    Leaves removed s p s' := by
  have hexp := @expired_congr p (p.goto (afterSweep rest blob)) (fun _ => rfl) rfl
  have hlook (d' : Digest) : ((Act.dropBlob d).apply s).blobs.lookup d' =
      if d' = d then none else s.blobs.lookup d' := by
    rw [Act.apply_blobs]
    exact lookup_erase_apply ..
  have hfiles : ((Act.dropBlob d).apply s).files = s.files := ((Act.dropBlob d).apply_rest s).2.1
  have hun (id : ℕ) : (p.goto (afterSweep rest blob)).Unlinks ((Act.dropBlob d).apply s) id ↔
      p.Unlinks s id := by
    have hphase : (p.goto (afterSweep rest blob)).phase.unlinks = some id ↔
        ∃ size mt t, blob = .onDisk id size mt t := by
      cases blob <;> simp [afterSweep, Phase.unlinks]
    simp only [Unlinks, hphase, hexp, hlook, hp]
    constructor
    · rintro (⟨size, mt, t, rfl⟩ | ⟨d', size, mt, t, he', hl'⟩)
      · exact .inr ⟨d, size, mt, t, he, hl⟩
      · split at hl'
        · cases hl'
        · exact .inr ⟨d', size, mt, t, he', hl'⟩
    · rintro (hnone | ⟨d', size, mt, t, he', hl'⟩)
      · cases hnone
      · by_cases hd : d' = d
        · subst hd
          rw [hl, Option.some.injEq] at hl'
          exact .inl ⟨size, mt, t, hl'⟩
        · exact .inr ⟨d', size, mt, t, he', by rw [if_neg hd, hl']⟩
  refine ⟨(Act.sameRest rfl s).trans h.rest, fun d' => ?_, fun id hr hid => ?_, fun id hid => ?_,
    fun b => ?_⟩
  · rw [h.blobs, hlook]
    simp only [hexp]
    by_cases hd : d' = d
    · rw [hd, if_pos he, if_pos he]
    · rw [if_neg hd]
  · exact h.gone id hr ((hun id).mpr hid)
  · rw [h.kept id (by rwa [hun]), hfiles]
  · have hstore : (p.goto (afterSweep rest blob)).phase.toStore = finalStores := by
      cases blob <;> rfl
    rw [h.usage, hstore, hp]
    split
    · rename_i hb
      exact (if_pos hb).symm
    · rename_i hb
      obtain rfl : b = .manifestMemory := by
        cases b <;> first | rfl | exact absurd (by decide) hb
      exact (removeBlob_manifestMemory s d).trans (if_neg hb).symm

/-- The removal of a file that the sweep left. -/
theorem Leaves.sweepUnlink {id : ℕ} {todo : List Digest}
    (h : Leaves removed ((unlink c id).apply s) (p.goto (.sweep todo)) s')
    (hp : p.phase = .sweepUnlink id todo) (hc : c.unlinked = removed id) :
    Leaves removed s p s' := by
  have hexp := @expired_congr p (p.goto (.sweep todo)) (fun _ => rfl) rfl
  have hending : (unlink c id).ending := by
    unfold unlink
    split <;> rfl
  have hinert := Act.inert_unlink c id
  have hblobs : ((unlink c id).apply s).blobs = s.blobs := by
    rw [Act.apply_blobs, Act.onBlobs_inert hinert]
  have hun (id' : ℕ) : p.Unlinks s id' ↔
      id' = id ∨ (p.goto (.sweep todo)).Unlinks ((unlink c id).apply s) id' := by
    simp only [Unlinks, hp, Phase.unlinks, goto_phase, hexp, hblobs, reduceCtorEq, false_or,
      Option.some.injEq, eq_comm (a := id)]
  have hfile (id' : ℕ) : ((unlink c id).apply s).files.lookup id' =
      if id' = id ∧ removed id then none else s.files.lookup id' := by
    rw [((unlink c id).apply_rest s).2.1, unlink, hc]
    cases removed id <;> simp [Act.onFiles, lookup_erase_apply]
  refine ⟨(Act.sameRest hending s).trans h.rest, fun d => ?_, fun id' hr hid => ?_,
    fun id' hid => ?_, fun b => ?_⟩
  · rw [h.blobs, hblobs]
    simp only [hexp]
  · by_cases hgo : (p.goto (.sweep todo)).Unlinks ((unlink c id).apply s) id'
    · exact h.gone id' hr hgo
    · obtain rfl := ((hun id').mp hid).resolve_right hgo
      rw [h.kept id' fun hk => hgo hk.2, hfile, if_pos ⟨rfl, hr⟩]
  · rw [hun] at hid
    rw [h.kept id' fun hk => hid ⟨hk.1, .inr hk.2⟩, hfile, if_neg]
    rintro ⟨rfl, hr⟩
    exact hid ⟨hr, .inl rfl⟩
  · rw [h.usage, hp, Act.usage_inert s hinert]
    rfl

/-- The step lemma: what a step past the loop leads to was settled before it. -/
theorem Leaves.of_step (hs : Step fromSlice s p c a p') (he : Ending s p)
    (hc : ∀ id ∈ p.phase.unlinks, c.unlinked = removed id)
    (h : Leaves removed (a.apply s) p' s') : Leaves removed s p s' := by
  have hending := (hs.ending he).1
  by_cases hl : p.phase.looping
  · obtain ⟨hp, ha⟩ := he.2 hl
    obtain ⟨rfl, rfl⟩ := hs.of_arm_none hp ha
    exact h.still hending rfl rfl rfl rfl (by rw [hp]; rfl) fun b => by rw [hp]; rfl
  · have hscan := he.1
    cases hs with
    | sweepEnd hp => exact h.still hending rfl rfl rfl rfl (by rw [hp]; rfl) fun b => by rw [hp]; rfl
    | sweepKeep hp => exact h.still hending rfl rfl rfl rfl (by rw [hp]; rfl) fun b => by rw [hp]; rfl
    | sweepDrop hp hd hb hr ht hl => exact h.sweepDrop hp ⟨_, hb, hr, ht⟩ hl
    | sweepUnlink hp => exact h.sweepUnlink hp (hc _ (by rw [hp]; rfl))
    | publish hp => exact h.still hending rfl rfl rfl rfl (by rw [hp]; rfl) fun b => by rw [hp]; rfl
    | storeEnd hp => exact h.still hending rfl rfl rfl rfl (by rw [hp]; rfl) fun b => by rw [hp]; rfl
    | @store b rest hp =>
      refine h.still hending rfl rfl rfl rfl (by rw [hp]; rfl) fun b' => ?_
      simp only [goto_phase, goto_acc, hp, Phase.toStore, List.mem_cons, Act.apply]
      by_cases hb : b' = b
      · subst hb
        rw [Function.update_self, ite_self, if_pos (Or.inl rfl)]
      · simp only [hb, false_or, Function.update_of_ne hb]
    | writeFailed hp =>
      rcases hp with ⟨_, _, _, hp, -⟩ | ⟨_, _, _, _, hp⟩ <;> exact absurd (by rw [hp]; rfl) hl
    | begin hp | scanBlobs hp | scanManifests hp | scanRedis hp => rw [hp] at hscan; cases hscan
    | _ hp => exact absurd (by rw [hp]; rfl) hl

/-- A pass that has returned leaves the state it is in. -/
theorem Leaves.of_done (hok : PhaseOk s p) (hd : p.phase = .done) : Leaves removed s p s := by
  simp only [PhaseOk, hd] at hok
  have hun (id : ℕ) : ¬ p.Unlinks s id := by
    simp only [Unlinks, hd]
    rintro (hnone | ⟨d, size, mt, t, he, hl⟩)
    · cases hnone
    · rw [hok d he] at hl
      cases hl
  refine ⟨⟨rfl, rfl, rfl, rfl, rfl, rfl⟩, fun d => ?_, fun id _ hid => absurd hid (hun id),
    fun _ _ => rfl, fun b => ?_⟩
  · split
    · exact hok d ‹_›
    · rfl
  · rw [hd]
    rfl

/-- The run lemma: a pass past its loop ends with what was settled. -/
theorem Leaves.of_run {choices : List Choice} (hok : PhaseOk s p) (he : Ending s p)
    (hc : Along (Pass.step fromSlice) (AsPlanned removed) (s, p) choices)
    (hr : Machine.run (Pass.step fromSlice) (s, p) choices = some (s', p'))
    (hd : p'.phase = .done) : Leaves removed s p s' := by
  induction choices generalizing s p with
  | nil =>
    cases hr
    exact .of_done hok hd
  | cons c cs ih =>
    obtain ⟨m, hm, hr⟩ := run_cons.mp hr
    obtain ⟨hplan, hc⟩ := hc m hm
    obtain ⟨a, q, hn, rfl⟩ := step_eq_some.mp hm
    have hst := step_of_next hn
    obtain ⟨-, hscan, hl⟩ := hst.ending he
    have hnext : Ending (a.apply s) q := ⟨hscan, fun hl' => absurd hl' (by simp [hl])⟩
    exact .of_step hst he hplan.unlinked (ih (hok.step hst) hnext hc hr)

/-- What twins on reordered states leave is the same in another order. -/
theorem Leaves.reordered {q : Pass} (h : s₁.Reordered s₂) (ht : p.Twin q)
    (h₁ : Leaves removed s₁ p s₁') (h₂ : Leaves removed s₂ q s₂') : s₁'.Reordered s₂' := by
  have hexp := expired_congr ht.blobs ht.now
  have hun (id : ℕ) : q.Unlinks s₂ id ↔ p.Unlinks s₁ id := by
    simp only [Unlinks, ht.phase, hexp, h.blobs]
  refine { config := ?_, manifests := fun d => ?_, blobs := fun d => ?_, redis := fun k => ?_,
           tags := fun t => ?_, files := fun id => ?_, usage := funext fun b => ?_, now := ?_,
           unlinks := ?_ }
  · rw [h₁.rest.config, h₂.rest.config, h.config]
  · rw [h₁.rest.manifests, h₂.rest.manifests, h.manifests]
  · rw [h₁.blobs, h₂.blobs, h.blobs]
    simp only [hexp]
  · rw [h₁.rest.redis, h₂.rest.redis, h.redis]
  · rw [h₁.rest.tags, h₂.rest.tags, h.tags]
  · by_cases hgo : removed id ∧ p.Unlinks s₁ id
    · rw [h₁.gone id hgo.1 hgo.2, h₂.gone id hgo.1 ((hun id).mpr hgo.2)]
    · rw [h₁.kept id hgo, h₂.kept id (by rwa [hun]), h.files]
  · rw [h₁.usage, h₂.usage, ht.phase, ht.acc, h.usage]
  · rw [h₁.rest.now, h₂.rest.now, h.now]
  · rw [h₁.rest.unlinks, h₂.rest.unlinks, h.unlinks]

theorem AsPlanned.of_mem {x : State × Pass} {choices : List Choice}
    (h : ∀ c ∈ choices, c.write = .ok ∧ ∀ id, c.unlinked = removed id) :
    Along (Pass.step fromSlice) (AsPlanned removed) x choices :=
  along_mono (fun _ c _ hc _ => ⟨(h c hc).1, fun id _ => (h c hc).2 id⟩) (along_true x choices)

end Pass

/-- Passes that run alone on reordered states with distinct access times, their writes
succeeding: each comes to an end, and both leave the same in maps of another order. -/
theorem evict_order_independent (fromSlice : Bytes → Option Json) (removed : ℕ → Bool)
    (s₁ s₂ : State) (hsame : s₁.Reordered s₂) (hdist : s₁.DistinctTimes) :
    (∃ n, ∀ choices s' p',
      run (Pass.step fromSlice) (s₂, .start) choices = some (s', p') → choices.length ≤ n) ∧
    ∀ choices₂ s₂' p₂',
      Along (Pass.step fromSlice) (Pass.AsPlanned removed) (s₂, .start) choices₂ →
      run (Pass.step fromSlice) (s₂, .start) choices₂ = some (s₂', p₂') →
        (p₂'.phase ≠ .done → ∀ unlinked, ∃ pick,
          (Pass.step fromSlice (s₂', p₂') ⟨pick, .ok, unlinked⟩).isSome) ∧
        (p₂'.phase = .done → ∀ choices₁ s₁' p₁',
          Along (Pass.step fromSlice) (Pass.AsPlanned removed) (s₁, .start) choices₁ →
          run (Pass.step fromSlice) (s₁, .start) choices₁ = some (s₁', p₁') →
            p₁'.phase = .done → s₁'.Reordered s₂') := by
  refine ⟨⟨_, fun _ _ _ hr => Pass.run_bounded hr⟩, fun choices₂ s₂' p₂' hc₂ hr₂ => ⟨?_, ?_⟩⟩
  · intro hd unlinked
    have hf : p₂'.phase ≠ .failed :=
      Pass.not_failed_of_run (along_mono (fun _ _ _ _ h => h.write) hc₂) hr₂
    obtain ⟨pick, hn⟩ := @Pass.exists_next fromSlice s₂' p₂' hd hf .ok unlinked
    exact ⟨pick, by rwa [Pass.step, Option.isSome_map]⟩
  · intro hd₂ choices₁ s₁' p₁' hc₁ hr₁ hd₁
    obtain ⟨_, _, _, _, rest₁, rfl, hr₁⟩ := Pass.run_start hr₁ (.inl hd₁)
    obtain ⟨_, _, _, _, rest₂, rfl, hr₂⟩ := Pass.run_start hr₂ (.inl hd₂)
    obtain ⟨y₁, y₂, _, _, hpair, hstop, hc₁, hc₂, hr₁, hr₂⟩ :=
      (@Pass.Paired.start fromSlice _ _ hsame).run hdist (Pass.along_loop hc₁)
        (Pass.along_loop hc₂) hr₁ hr₂ hd₁ hd₂
    have hok {y : State × Pass} (hp : y.2.phase = .loop) : Pass.PhaseOk y.1 y.2 := by
      simp only [Pass.PhaseOk, hp]
    have hphase₂ : y₂.2.phase = .loop := hpair.twin.phase.trans hstop.1
    have hstop₂ : Pass.Stops y₂ :=
      ⟨hphase₂, by rw [hpair.twin.arm, hpair.states.config]; exact hstop.2⟩
    have hl₁ : Pass.Leaves removed y₁.1 y₁.2 s₁' :=
      .of_run (hok hstop.1) ⟨by rw [hstop.1]; rfl, fun _ => hstop⟩ hc₁ hr₁ hd₁
    have hl₂ : Pass.Leaves removed y₂.1 y₂.2 s₂' :=
      .of_run (hok hphase₂) ⟨by rw [hphase₂]; rfl, fun _ => hstop₂⟩ hc₂ hr₂ hd₂
    exact hl₁.reordered hpair.states hpair.twin hl₂

/-- A large layer, an unused blob on disk and a manifest for each digest with its time. -/
def layersOf (images : List (Digest × ℕ)) : State :=
  images.foldl (fun s im => s.insertManifest im.1 ⟨imageBody, "", im.2, true⟩)
    ((((State.new ⟨1400, some 1000, 0⟩ 100000).insertBlob layer
      (.inMemory 0 (List.replicate 1025 97) "" 5)).insertBlob orphan (.onDisk 1 10 "" 7)).writeFile
        1 [0])

def otherPicks : List Choice :=
  (List.replicate 4 0 ++ 1 :: List.replicate 9 0 ++ 1 :: List.replicate 11 0).map fun pick =>
    ⟨pick, .ok, true⟩

/-- Two manifests in either order. The second pass pops and sweeps other positions. -/
theorem evict_order_independent_layers :
    ∃ s₁ p₁ s₂ p₂,
      run (Pass.step imageJson) (layersOf [(image, 3), (otherImage, 4)], .start)
        (List.replicate 26 {}) = some (s₁, p₁) ∧
      run (Pass.step imageJson) (layersOf [(otherImage, 4), (image, 3)], .start)
        otherPicks = some (s₂, p₂) ∧
      p₁.phase = .done ∧ p₂.phase = .done ∧ s₁.Reordered s₂ := by
  have hsame : (layersOf [(image, 3), (otherImage, 4)]).Reordered
      (layersOf [(otherImage, 4), (image, 3)]) := by
    refine { config := rfl, manifests := fun d => ?_, blobs := fun _ => rfl, redis := fun _ => rfl,
             tags := fun _ => rfl, files := fun _ => rfl, usage := ?_, now := rfl, unlinks := rfl }
    · show AList.lookup d (AList.insert image _ (AList.insert otherImage _ ∅)) =
        AList.lookup d (AList.insert otherImage _ (AList.insert image _ ∅))
      have hne : image ≠ otherImage := by decide
      simp only [lookup_insert_apply]
      by_cases hd : d = image
      · rw [if_pos hd, if_neg (hd ▸ hne), if_pos hd]
      · rw [if_neg hd, if_neg hd]
    · funext b
      cases b <;> decide +kernel
  have hdist : (layersOf [(image, 3), (otherImage, 4)]).DistinctTimes := by
    have htime (x : Item) (t : ℕ)
        (h : (layersOf [(image, 3), (otherImage, 4)]).accessTime x = some t) :
        x = .manifest image ∧ t = 3 ∨ x = .manifest otherImage ∧ t = 4 := by
      cases x with
      | redis key => cases h
      | manifest d =>
        obtain ⟨m, hm, rfl⟩ := Option.map_eq_some_iff.mp h
        change AList.lookup d (AList.insert otherImage _ (AList.insert image _ ∅)) = _ at hm
        simp only [lookup_insert_apply] at hm
        split at hm
        · rename_i hd
          cases hm
          exact .inr ⟨by rw [hd], rfl⟩
        · split at hm
          · rename_i hd
            cases hm
            exact .inl ⟨by rw [hd], rfl⟩
          · cases hm
    intro x y t hx hy
    rcases htime x t hx with ⟨rfl, ht⟩ | ⟨rfl, ht⟩ <;>
      rcases htime y t hy with ⟨rfl, ht'⟩ | ⟨rfl, ht'⟩ <;> first | rfl | omega
  have h₁ : ((run (Pass.step imageJson) (layersOf [(image, 3), (otherImage, 4)], .start)
      (List.replicate 26 {})).map fun x => x.2.phase) = some .done := by decide +kernel
  have h₂ : ((run (Pass.step imageJson) (layersOf [(otherImage, 4), (image, 3)], .start)
      otherPicks).map fun x => x.2.phase) = some .done := by decide +kernel
  obtain ⟨⟨s₁, p₁⟩, hr₁, hd₁⟩ := Option.map_eq_some_iff.mp h₁
  obtain ⟨⟨s₂, p₂⟩, hr₂, hd₂⟩ := Option.map_eq_some_iff.mp h₂
  refine ⟨s₁, p₁, s₂, p₂, hr₁, hr₂, hd₁, hd₂, ?_⟩
  refine ((evict_order_independent imageJson (fun _ => true) _ _ hsame hdist).2 _ s₂ p₂
    (Pass.AsPlanned.of_mem fun c hc => ?_) hr₂).2 hd₂ _ s₁ p₁
      (Pass.AsPlanned.of_mem fun c hc => ?_) hr₁ hd₁
  · obtain ⟨pick, -, rfl⟩ := List.mem_map.mp hc
    exact ⟨rfl, fun _ => rfl⟩
  · rw [List.eq_of_mem_replicate hc]
    exact ⟨rfl, fun _ => rfl⟩

end Dockfoxprox
