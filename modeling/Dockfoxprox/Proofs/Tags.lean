import Dockfoxprox.Model.Tags
import Dockfoxprox.Proofs.Eviction
import Dockfoxprox.Proofs.Manifests

/-! Which manifests the tags point at while requests store manifests and passes remove
them. -/

namespace Dockfoxprox

open MapSum

def Act.onTags (a : Act) (tags : DashMap (String × String) Digest) :
    DashMap (String × String) Digest :=
  match a with
  | .retainTags d => retain (fun _ d' => d' ≠ d) tags
  | _ => tags

theorem Act.apply_tags (a : Act) (s : State) : (a.apply s).tags = a.onTags s.tags := by
  cases a with
  | markEvicted d =>
    simp only [apply, onTags]
    cases s.manifests.lookup d <;> rfl
  | moveBlob d b =>
    obtain ⟨u, h⟩ := insertBlob_eq s d b
    simp only [apply, onTags, h]
  | dropRedis key =>
    obtain ⟨u, h⟩ := s.removeRedis_eq key
    simp only [apply, onTags, h]
  | dropManifest d =>
    obtain ⟨u, h⟩ := removeManifest_eq s d
    simp only [apply, onTags, h]
  | dropBlob d =>
    obtain ⟨u, h⟩ := removeBlob_eq s d
    simp only [apply, onTags, h]
  | _ => rfl

def State.Stored (s : State) (d : Digest) : Prop := (s.manifests.lookup d).isSome

/-- Only the removal of its manifest takes a stored digest away. -/
theorem Act.stored {a : Act} {s : State} {d : Digest} (h : s.Stored d) (hd : a ≠ .dropManifest d) :
    (a.apply s).Stored d := by
  unfold State.Stored at *
  rw [Act.apply_manifests]
  cases a with
  | markEvicted d' =>
    simp only [onManifests]
    split
    · rw [lookup_insert_apply]
      split
      · rfl
      · exact h
    · exact h
  | dropManifest d' =>
    have hne : d ≠ d' := fun he => hd (he ▸ rfl)
    simpa [onManifests, lookup_erase_apply, hne] using h
  | _ => exact h

/-- The digest whose manifest the pass has removed and whose tags it has not. -/
def Phase.untagging : Phase → Option Digest
  | .retainTags d _ => some d
  | _ => none

namespace Pass

variable {fromSlice : Bytes → Option Json} {s : State} {p p' : Pass} {c : Choice} {a : Act}

/-- What a step of the pass does to the manifests and the tags: it removes the tags on a
manifest that is gone, it removes a manifest and goes on to its tags, or neither. -/
inductive TagStep (p : Pass) (a : Act) (p' : Pass) : Prop
  | retain {d : Digest} (hp : p.phase.untagging = some d) (ha : a = .retainTags d)
      (hp' : p'.phase.untagging = none)
  | drop {d : Digest} (hp : p.phase.untagging = none) (ha : a = .dropManifest d)
      (hp' : p'.phase.untagging = some d)
  | other (hp : p.phase.untagging = none) (ht : ∀ tags, a.onTags tags = tags)
      (hd : ∀ d, a ≠ .dropManifest d) (hp' : p'.phase.untagging = none)

theorem Step.tagStep (hs : Step fromSlice s p c a p') : TagStep p a p' := by
  have hunlink (id : ℕ) : (∀ tags, (unlink c id).onTags tags = tags) ∧
      ∀ d, unlink c id ≠ .dropManifest d := by
    unfold unlink
    split <;> exact ⟨fun _ => rfl, nofun⟩
  cases hs with
  | retainTags hp => exact .retain (by rw [hp]; rfl) rfl rfl
  | dropManifest hp hl ha hpop hm => exact .drop (by rw [hp]; rfl) rfl rfl
  | writeFailed hp hw =>
    rename_i id leftover
    refine .other ?_ ?_ ?_ rfl
    · rcases hp with ⟨sp, r, held, hp, -⟩ | ⟨key, size, t, value, hp⟩ <;> rw [hp] <;> rfl
    · cases leftover <;> exact fun _ => rfl
    · cases leftover <;> exact nofun
  | cascadeUnlink hp => exact .other (by rw [hp]; rfl) (hunlink _).1 (hunlink _).2 rfl
  | sweepUnlink hp => exact .other (by rw [hp]; rfl) (hunlink _).1 (hunlink _).2 rfl
  | stale hp ha hpop hs =>
    exact .other (by rw [hp]; rfl) (fun _ => rfl) nofun (by rw [popped_phase, hp]; rfl)
  | dropRedis hp hb ha hpop he =>
    exact .other (by rw [hp]; rfl) (fun _ => rfl) nofun (by rw [credit_phase, popped_phase, hp]; rfl)
  | @cascadeDrop old r todo bb blob hp hb hr ht hl =>
    exact .other (by rw [hp]; rfl) (fun _ => rfl) nofun (by cases blob <;> rfl)
  | @sweepDrop todo d bb blob hp hd hb hr ht hl =>
    exact .other (by rw [hp]; rfl) (fun _ => rfl) nofun (by cases blob <;> rfl)
  | _ hp => exact .other (by rw [hp]; rfl) (fun _ => rfl) nofun rfl

end Pass

/-- The tags and the requests that are about to tag point at stored manifests, apart from
the tags the pass is about to remove. -/
structure TagSys.Wf (x : TagSys) : Prop where
  tags : ∀ ref d, x.st.tags.lookup ref = some d →
    x.st.Stored d ∨ x.pass.phase.untagging = some d
  reqs : ∀ q ∈ x.reqs, ∀ d, q.tagging = some d → x.st.Stored d

/-- What a step of a request does to the manifests and the tags. -/
inductive TagEffect (s : State) (q : ManifestReq) (s' : State) (q' : ManifestReq) : Prop
  | reads (hm : s'.manifests = s.manifests) (ht : s'.tags = s.tags) (hq : q'.tagging = none)
  | stores (d : Digest) (m : Manifest) (hm : s'.manifests = s.manifests.insert d m)
      (ht : s'.tags = s.tags) (hq : ∀ d', q'.tagging = some d' → d' = d)
  | tags (ref : String × String) (d : Digest) (hm : s'.manifests = s.manifests)
      (ht : s'.tags = s.tags.insert ref d) (hd : q.tagging = some d)
      (hq : ∀ d', q'.tagging = some d' → d' = d)

section
variable (crates : Crates) (s : State)

theorem tagging_resolveReference (r : Request) : (s.resolveReference r).tagging = none := by
  unfold State.resolveReference
  split
  · rfl
  · split
    · split <;> rfl
    · rfl

theorem tagging_startManifest (r : Request) : (s.startManifest r).tagging = none := by
  unfold State.startManifest
  split
  · exact tagging_resolveReference s r
  · exact tagging_resolveReference s r
  · split <;> rfl
  · rfl

theorem tagging_resolveTag (r : Request) (answer : Answer) :
    (State.resolveTag crates r answer).tagging = none := by
  unfold State.resolveTag
  split
  · rfl
  · split
    · rfl
    · split <;> rfl

theorem lookupManifest_effect (r : Request) (d : Digest) :
    TagEffect s (.lookup r d) (s.lookupManifest r d).1 (s.lookupManifest r d).2 := by
  unfold State.lookupManifest
  split
  · exact .stores d _ rfl rfl nofun
  · split <;> exact .reads rfl rfl rfl

theorem fetchManifest_effect (r : Request) (d : Digest) (answer : Answer) :
    TagEffect s (.fetch r d) (s.fetchManifest crates r d answer).1
      (s.fetchManifest crates r d answer).2 := by
  cases answer with
  | error e => exact .reads rfl rfl rfl
  | ok resp =>
    simp only [State.fetchManifest]
    split
    · exact .reads rfl rfl rfl
    · split
      · exact .reads rfl rfl rfl
      · exact .stores d _ rfl rfl nofun

theorem putInsert_effect (r : Request) (body : Bytes) :
    TagEffect s (.putInsert r body) (s.putInsert crates r body).1 (s.putInsert crates r body).2 := by
  refine .stores (crates.sha256 body) _ rfl rfl fun d' hd => ?_
  simp only [State.putInsert] at hd
  split at hd <;> exact (Option.some.inj hd).symm

theorem manifestStep_effect (inp : ManifestInput) (q : ManifestReq) :
    TagEffect s q (s.manifestStep crates inp q).1 (s.manifestStep crates inp q).2 := by
  cases q with
  | start r => exact .reads rfl rfl (tagging_startManifest s r)
  | resolve r => exact .reads rfl rfl (tagging_resolveTag crates r inp.answer)
  | lookup r d => exact lookupManifest_effect s r d
  | fetch r d => exact fetchManifest_effect crates s r d inp.answer
  | putBody r =>
    refine .reads rfl rfl ?_
    simp only [State.manifestStep, State.putBody]
    split <;> rfl
  | putInsert r body => exact putInsert_effect crates s r body
  | putTag r d => exact .tags (r.name, r.tail) d rfl rfl rfl fun d' hd => (Option.some.inj hd).symm
  | putDigest r d => exact .tags (r.name, d.toText) d rfl rfl rfl nofun
  | done reply => exact .reads rfl rfl rfl

end

theorem TagEffect.stored {s s' : State} {q q' : ManifestReq} (h : TagEffect s q s' q') {d : Digest}
    (hd : s.Stored d) : s'.Stored d := by
  unfold State.Stored at *
  cases h with
  | reads hm ht hq => rwa [hm]
  | stores d' m hm ht hq =>
    rw [hm, lookup_insert_apply]
    split
    · rfl
    · exact hd
  | tags ref d' hm ht hd' hq => rwa [hm]

/-- A request moves: the tags still point at stored manifests. -/
theorem TagSys.Wf.move {x : TagSys} {i : ℕ} {q q' : ManifestReq} {s' : State} (h : x.Wf)
    (hi : x.reqs[i]? = some q) (he : TagEffect x.st q s' q') :
    TagSys.Wf { x with st := s', reqs := x.reqs.set i q' } := by
  have hq := h.reqs q (List.mem_of_getElem? hi)
  have hst : ∀ {d}, x.st.Stored d → s'.Stored d := he.stored
  constructor
  · intro ref d hl
    have hold (hl : x.st.tags.lookup ref = some d) :
        s'.Stored d ∨ x.pass.phase.untagging = some d :=
      (h.tags ref d hl).imp_left hst
    cases he with
    | reads hm ht hq' => exact hold (ht ▸ hl)
    | stores d' m hm ht hq' => exact hold (ht ▸ hl)
    | tags ref' d' hm ht hd' hq' =>
      have hl' : (x.st.tags.insert ref' d').lookup ref = some d := ht ▸ hl
      rw [lookup_insert_apply] at hl'
      split at hl'
      · cases hl'
        exact .inl (hst (hq _ hd'))
      · exact hold hl'
  · refine Machine.forall_mem_set (fun y hy d hd => hst (h.reqs y hy d hd)) fun d hd => ?_
    cases he with
    | reads hm ht hq' => rw [hq'] at hd; cases hd
    | stores d' m hm ht hq' =>
      obtain rfl := hq' d hd
      simp [State.Stored, hm]
    | tags ref d' hm ht hd' hq' =>
      obtain rfl := hq' d hd
      exact hst (hq _ hd')

section
variable (crates : Crates) (fromSlice : Bytes → Option Json)

def Act.dropped : Act → Option Digest
  | .dropManifest d => some d
  | _ => none

/-- The pass does not remove a manifest that a request has stored and not yet tagged. -/
def TagSys.Calm (x : TagSys) (e : TagEvent) (_ : TagSys) : Prop :=
  match e with
  | .evict c => ∀ r ∈ Pass.next fromSlice x.st x.pass c, ∀ d ∈ r.1.dropped,
      ∀ q ∈ x.reqs, q.tagging ≠ some d
  | _ => True

instance (x : TagSys) (e : TagEvent) (x' : TagSys) : Decidable (x.Calm fromSlice e x') :=
  match e with
  | .evict c => inferInstanceAs (Decidable (∀ r ∈ Pass.next fromSlice x.st x.pass c,
      ∀ d ∈ r.1.dropped, ∀ q ∈ x.reqs, q.tagging ≠ some d))
  | .tick _ | .request _ | .step _ _ | .nextPass => isTrue trivial

variable {crates fromSlice}

/-- The pass moves. -/
theorem TagSys.Wf.evict {x : TagSys} {c : Choice} {a : Act} {p' : Pass} (h : x.Wf)
    (hn : Pass.next fromSlice x.st x.pass c = some (a, p'))
    (hc : ∀ d, a = .dropManifest d → ∀ q ∈ x.reqs, q.tagging ≠ some d) :
    TagSys.Wf { x with st := a.apply x.st, pass := p' } := by
  have hst {d : Digest} (hd : x.st.Stored d) (hne : a ≠ .dropManifest d) : (a.apply x.st).Stored d :=
    Act.stored hd hne
  cases (Pass.step_of_next hn).tagStep with
  | @retain d hp ha hp' =>
    subst ha
    constructor
    · intro ref d' hl
      rw [Act.apply_tags] at hl
      obtain ⟨hl, hne⟩ := lookup_of_retain hl
      rcases h.tags ref d' hl with hs | hu
      · exact .inl (hst hs nofun)
      · rw [hp] at hu
        cases hu
        simp at hne
    · exact fun q hq d' hd => hst (h.reqs q hq d' hd) nofun
  | @drop d hp ha hp' =>
    subst ha
    constructor
    · intro ref d' hl
      rw [Act.apply_tags] at hl
      rcases h.tags ref d' hl with hs | hu
      · by_cases hd : d' = d
        · exact .inr (hd ▸ hp')
        · exact .inl (hst hs fun he => hd (Act.dropManifest.inj he).symm)
      · rw [hp] at hu
        cases hu
    · exact fun q hq d' hd => hst (h.reqs q hq d' hd) fun he =>
        hc d rfl q hq ((Act.dropManifest.inj he) ▸ hd)
  | other hp ht hd hp' =>
    constructor
    · intro ref d' hl
      rw [Act.apply_tags, ht] at hl
      rcases h.tags ref d' hl with hs | hu
      · exact .inl (hst hs (hd d'))
      · rw [hp] at hu
        cases hu
    · exact fun q hq d' hq' => hst (h.reqs q hq d' hq') (hd d')

theorem TagSys.step_wf {x x' : TagSys} {e : TagEvent} (h : x.Wf) (hc : x.Calm fromSlice e x')
    (hs : x.step crates fromSlice e = some x') : x'.Wf := by
  cases e with
  | tick now =>
    cases hs
    exact ⟨h.tags, h.reqs⟩
  | request r =>
    cases hs
    refine ⟨h.tags, fun q hq => ?_⟩
    rcases List.mem_append.mp hq with hq | hq
    · exact h.reqs q hq
    · rw [List.mem_singleton.mp hq]
      exact nofun
  | step i inp =>
    simp only [TagSys.step] at hs
    split at hs
    · cases hs
    · rename_i q hi
      cases hs
      exact h.move hi (manifestStep_effect crates x.st inp q)
  | evict c =>
    obtain ⟨⟨a, p'⟩, hn, rfl⟩ := Option.map_eq_some_iff.mp hs
    exact h.evict hn fun d ha => hc (a, p') hn d (by rw [ha]; rfl)
  | nextPass =>
    simp only [TagSys.step] at hs
    split at hs
    · rename_i hend
      cases hs
      refine ⟨fun ref d hl => .inl ?_, h.reqs⟩
      rcases h.tags ref d hl with hs | hu
      · exact hs
      · simp only [Pass.ended, decide_eq_true_eq] at hend
        rcases hend with hp | hp <;> rw [hp] at hu <;> cases hu
    · cases hs

/-- In every interleaving of manifest requests and eviction passes in which no pass removes
a manifest between the moment a request stores it and the moment it is tagged, every tag
points at a stored manifest whenever no pass stands between the removal of a manifest and
the removal of its tags. -/
theorem tags_never_dangle_of_calm {s : State} {es : List TagEvent} {t : TagSys}
    (hs : ∀ ref d, s.tags.lookup ref = some d → s.Stored d)
    (hr : Machine.run (TagSys.step crates fromSlice) (TagSys.init s) es = some t)
    (hc : Machine.Along (TagSys.step crates fromSlice) (TagSys.Calm fromSlice) (TagSys.init s) es)
    (hend : ∀ d m, t.pass.phase ≠ .retainTags d m) :
    ∀ ref d, t.st.tags.lookup ref = some d → t.st.Stored d := by
  have hinit : (TagSys.init s).Wf :=
    ⟨fun ref d hl => .inl (hs ref d hl), fun q hq => absurd hq List.not_mem_nil⟩
  have hw : t.Wf := Machine.run_invariant (C := TagSys.Calm fromSlice) (I := TagSys.Wf)
    (fun _ _ _ hi hc hs => TagSys.step_wf hi hc hs) hinit hc hr
  intro ref d hl
  rcases hw.tags ref d hl with hs | hu
  · exact hs
  · cases hp : t.pass.phase with
    | retainTags d m => exact absurd hp (hend d m)
    | _ => rw [hp] at hu; cases hu

end

/-! A push of one manifest beside a pass over a cache with no room. -/

/-- The steps of a push up to the moment its manifest is stored. -/
def pushStored : List TagEvent :=
  [.request (manifestRequest .put "self" "latest"), .step 0 {},
    .step 0 { body := .ok (utf8 "a") }, .step 0 {}]

def pushTags : List TagEvent := [.step 0 {}, .step 0 {}]

def wholePass : List TagEvent := List.replicate 17 (.evict {})

/-- All requests are answered and the pass has returned. -/
def TagSys.finished (x : TagSys) : Bool :=
  x.pass.ended && x.reqs.all fun q => match q with | .done _ => true | _ => false

theorem State.new_tagged (config : Config) (now : ℕ) :
    ∀ ref d, (State.new config now).tags.lookup ref = some d → (State.new config now).Stored d := by
  intro ref d hl
  simp [State.new] at hl

/-- The push is tagged before the pass begins. -/
theorem tags_never_dangle_of_calm_push :
    ∃ t, Machine.run (TagSys.step tableCrates fun _ => none) (TagSys.init (State.new ⟨0, none, 0⟩ 0))
      (pushStored ++ pushTags ++ wholePass) = some t ∧ t.finished ∧
      ∀ ref d, t.st.tags.lookup ref = some d → t.st.Stored d := by
  have hrun : ((Machine.run (TagSys.step tableCrates fun _ => none)
      (TagSys.init (State.new ⟨0, none, 0⟩ 0)) (pushStored ++ pushTags ++ wholePass)).map
        fun t => (t.finished, decide (t.pass.phase = .done))) = some (true, true) := by decide +kernel
  obtain ⟨t, hr, ht⟩ := Option.map_eq_some_iff.mp hrun
  obtain ⟨hfin, hdone⟩ := Prod.mk.inj ht
  have hp : t.pass.phase = .done := of_decide_eq_true hdone
  refine ⟨t, hr, hfin, tags_never_dangle_of_calm (State.new_tagged _ _) hr ?_ (by rw [hp]; nofun)⟩
  decide +kernel

/-- A whole pass between the moment the manifest is stored and its tags: it removes the
manifest, and the tags stay on nothing. -/
theorem tag_dangles_after_push :
    ¬ ∀ (crates : Crates) (fromSlice : Bytes → Option Json) (s : State) (es : List TagEvent)
        (t : TagSys), (∀ ref d, s.tags.lookup ref = some d → s.Stored d) →
      Machine.run (TagSys.step crates fromSlice) (TagSys.init s) es = some t → t.finished →
      ∀ ref d, t.st.tags.lookup ref = some d → t.st.Stored d := by
  intro h
  have hrun : ((Machine.run (TagSys.step tableCrates fun _ => none)
      (TagSys.init (State.new ⟨0, none, 0⟩ 0)) (pushStored ++ wholePass ++ pushTags)).map
        fun t => (t.finished, t.st.tags.lookup ("app", "latest"),
          (t.st.manifests.lookup letterDigest).isSome)) =
      some (true, some letterDigest, false) := by decide +kernel
  obtain ⟨t, hr, ht⟩ := Option.map_eq_some_iff.mp hrun
  obtain ⟨hfin, ht⟩ := Prod.mk.inj ht
  obtain ⟨htag, hgone⟩ := Prod.mk.inj ht
  have hs := h _ _ _ _ t (State.new_tagged _ _) hr hfin _ _ htag
  rw [State.Stored, hgone] at hs
  cases hs

end Dockfoxprox
