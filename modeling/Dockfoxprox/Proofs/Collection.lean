import Dockfoxprox.Proofs.Effects

/-! Garbage collection by a pass that runs alone. The reference count of a tracked blob
is the number of its occurrences in the manifests still in the map plus the ones the
cascade has yet to visit; a tracked blob that is gone has no reference and is past its
grace window; and the sweep removes all that remain of this kind. -/

namespace Dockfoxprox

open MapSum Machine

variable {fromSlice : Bytes → Option Json}

theorem refsTo_dropManifest {ms : DashMap Digest Manifest} {dm : Digest} {m : Manifest}
    (h : ms.lookup dm = some m) (d : Digest) :
    refsTo fromSlice ms d = refsTo fromSlice (ms.erase dm) d + manifestRefs fromSlice d m := by
  rw [refsTo_erase ms d dm, share, h, Option.elim_some, add_comm]

/-- A manifest replaced by one of the same content leaves the counts. -/
theorem refsTo_replace {ms : DashMap Digest Manifest} {dm : Digest} {m m' : Manifest}
    (h : ms.lookup dm = some m) (hc : m'.content = m.content) (d : Digest) :
    refsTo fromSlice (ms.insert dm m') d = refsTo fromSlice ms d := by
  have h1 := total_insert_add_share (fun _ => manifestRefs fromSlice d) ms dm m'
  have h2 : manifestRefs fromSlice d m' = manifestRefs fromSlice d m := by
    unfold manifestRefs
    rw [hc]
  rw [share, h, Option.elim_some, h2] at h1
  exact Nat.add_right_cancel h1

theorem refsTo_markEvicted (ms : DashMap Digest Manifest) (dm d : Digest) :
    refsTo fromSlice ((Act.markEvicted dm).onManifests ms) d = refsTo fromSlice ms d := by
  simp only [Act.onManifests]
  cases h : ms.lookup dm with
  | none => rfl
  | some m => exact refsTo_replace h rfl d

namespace Pass

section
variable (fromSlice)

/-- The bookkeeping of the pass against the state it started from and the current one. -/
structure Tracks (s₀ s : State) (p : Pass) : Prop where
  now : p.now = s₀.now
  times : ∀ d, (p.blobs.lookup d).map BlobBk.lastAccessed =
    (s₀.blobs.lookup d).map Blob.lastAccessed
  refs : ∀ d bb, p.blobs.lookup d = some bb →
    bb.refs = refsTo fromSlice s.manifests d + p.phase.pending fromSlice d
  known : ∀ d, (s.blobs.lookup d).isSome → (s₀.blobs.lookup d).isSome
  gone : ∀ d bb, p.blobs.lookup d = some bb → s.blobs.lookup d = none →
    bb.refs = 0 ∧ blobGraceSeconds ≤ p.now - bb.lastAccessed

end

/-- A tracked blob that nothing references and whose grace window is over. -/
def Expired (p : Pass) (d : Digest) : Prop :=
  ∃ bb, p.blobs.lookup d = some bb ∧ bb.refs = 0 ∧ blobGraceSeconds ≤ p.now - bb.lastAccessed

/-- What the pass has to know at each phase: a blob being spilled is tracked, and the
expired blobs still present are on the sweep's list. -/
def PhaseOk (s : State) (p : Pass) : Prop :=
  match p.phase with
  | .spillWrite _ r _ | .spillInsert _ r _ => (p.blobs.lookup r).isSome
  | .sweep todo | .sweepUnlink _ todo => ∀ d, p.Expired d → d ∉ todo → s.blobs.lookup d = none
  | .publish | .store _ | .done => ∀ d, p.Expired d → s.blobs.lookup d = none
  | .begin | .scanBlobs | .scanManifests | .scanRedis => False
  | _ => True

variable {s₀ s s' : State} {p p' : Pass} {c : Choice} {a : Act}

/-- A step that moves neither a blob, a manifest nor the table. -/
theorem Tracks.frame (h : Tracks fromSlice s₀ s p) (hm : s'.manifests = s.manifests)
    (hb : s'.blobs = s.blobs) (hs : Still fromSlice p p') : Tracks fromSlice s₀ s' p' := by
  refine ⟨hs.now.trans h.now, ?_, ?_, ?_, ?_⟩
  · rw [hs.blobs]; exact h.times
  · intro d bb hd
    rw [hs.blobs] at hd
    rw [hm, hs.pending d bb hd]
    exact h.refs d bb hd
  · rw [hb]; exact h.known
  · intro d bb hd hg
    rw [hs.now]
    exact h.gone d bb (hs.blobs ▸ hd) (hb ▸ hg)

/-- The same for a new entry of a tracked blob in the table. -/
theorem Tracks.setBk (h : Tracks fromSlice s₀ s p) {r : Digest} {bb bb' : BlobBk}
    (hb : p.blobs.lookup r = some bb) (hl : bb'.lastAccessed = bb.lastAccessed)
    (hle : bb'.refs ≤ bb.refs) {ph : Phase}
    (hr : bb'.refs = refsTo fromSlice s.manifests r + ph.pending fromSlice r)
    (hp : ∀ d, d ≠ r → ph.pending fromSlice d = p.phase.pending fromSlice d) :
    Tracks fromSlice s₀ s ((p.setBk r bb').goto ph) := by
  have hlook (d : Digest) : ((p.setBk r bb').goto ph).blobs.lookup d =
      if d = r then some bb' else p.blobs.lookup d := lookup_insert_apply ..
  refine ⟨h.now, fun d => ?_, fun d b hd => ?_, h.known, fun d b hd hg => ?_⟩
  · rw [hlook, ← h.times d]
    split
    · rename_i hdr
      subst hdr
      simp [hb, hl]
    · rfl
  · rw [hlook] at hd
    split at hd
    · rename_i hdr
      subst hdr
      cases hd
      exact hr
    · rename_i hdr
      rw [goto_phase, hp d hdr]
      exact h.refs d b hd
  · rw [hlook] at hd
    split at hd
    · rename_i hdr
      subst hdr
      cases hd
      obtain ⟨h0, hold⟩ := h.gone d bb hb hg
      exact ⟨by omega, hl ▸ hold⟩
    · exact h.gone d b hd hg

theorem Tracks.dropBlob (h : Tracks fromSlice s₀ s p) {r : Digest} {bb : BlobBk}
    (hb : p.blobs.lookup r = some bb) (hr : bb.refs = 0)
    (ht : blobGraceSeconds ≤ p.now - bb.lastAccessed) :
    Tracks fromSlice s₀ ((Act.dropBlob r).apply s) p := by
  refine ⟨h.now, h.times, ?_, ?_, ?_⟩
  · intro d bb' hd
    rw [Act.apply_manifests]
    exact h.refs d bb' hd
  · intro d hd
    simp only [Act.apply_blobs, Act.onBlobs, lookup_erase_apply] at hd
    split at hd
    · cases hd
    · exact h.known d hd
  · intro d bb' hd hg
    simp only [Act.apply_blobs, Act.onBlobs, lookup_erase_apply] at hg
    split at hg
    · rename_i hdr
      subst hdr
      obtain rfl : bb = bb' := Option.some.inj (hb.symm.trans hd)
      exact ⟨hr, ht⟩
    · exact h.gone d bb' hd hg

theorem Tracks.moveBlob (h : Tracks fromSlice s₀ s p) {r : Digest} (b : Blob)
    (hr : (p.blobs.lookup r).isSome) : Tracks fromSlice s₀ ((Act.moveBlob r b).apply s) p := by
  refine ⟨h.now, h.times, ?_, ?_, ?_⟩
  · intro d bb' hd
    rw [Act.apply_manifests]
    exact h.refs d bb' hd
  · intro d hd
    simp only [Act.apply_blobs, Act.onBlobs, lookup_insert_apply] at hd
    split at hd
    · rename_i hdr
      subst hdr
      have ht := congrArg Option.isSome (h.times d)
      rw [Option.isSome_map, Option.isSome_map] at ht
      exact ht ▸ hr
    · exact h.known d hd
  · intro d bb' hd hg
    simp only [Act.apply_blobs, Act.onBlobs, lookup_insert_apply] at hg
    split at hg
    · cases hg
    · exact h.gone d bb' hd hg

theorem Tracks.dropManifest (h : Tracks fromSlice s₀ s p) {dm : Digest} {m : Manifest}
    (hm : s.manifests.lookup dm = some m) (hp : ∀ d, p.phase.pending fromSlice d = 0)
    (hn : p'.now = p.now) (ht : p'.blobs = p.blobs) (hph : p'.phase = .retainTags dm m) :
    Tracks fromSlice s₀ ((Act.dropManifest dm).apply s) p' := by
  refine ⟨hn.trans h.now, ht ▸ h.times, ?_, ?_, ?_⟩
  · intro d bb hd
    have hr := h.refs d bb (ht ▸ hd)
    rw [hp, refsTo_dropManifest hm] at hr
    rw [Act.apply_manifests, hph]
    exact hr
  · rw [Act.apply_blobs]; exact h.known
  · intro d bb hd hg
    rw [hn]
    rw [Act.apply_blobs] at hg
    exact h.gone d bb (ht ▸ hd) hg

theorem Tracks.markEvicted (h : Tracks fromSlice s₀ s p) (dm : Digest) :
    Tracks fromSlice s₀ ((Act.markEvicted dm).apply s) p := by
  refine ⟨h.now, h.times, ?_, ?_, ?_⟩
  · intro d bb hd
    rw [Act.apply_manifests, refsTo_markEvicted]
    exact h.refs d bb hd
  · rw [Act.apply_blobs]; exact h.known
  · rw [Act.apply_blobs]; exact h.gone

/-- The cascade visits one reference of a dropped manifest. -/
theorem Tracks.cascade (h : Tracks fromSlice s₀ s p) {old : Bool} {r : Digest}
    {todo : List Digest} {bb : BlobBk} (hp : p.phase = .cascade old (r :: todo))
    (hb : p.blobs.lookup r = some bb) :
    Tracks fromSlice s₀ s ((p.setBk r (bb.unref old)).goto (.cascade old todo)) := by
  have hr := h.refs r bb hb
  simp only [hp, Phase.pending, List.count_cons_self] at hr
  refine h.setBk hb (by simp) (by simp) ?_ fun d hd => ?_
  · simp only [BlobBk.unref_refs, Phase.pending]
    omega
  · simp [hp, Phase.pending, List.count_cons_of_ne (Ne.symm hd)]

/-- The two grace tests agree once the clock is past the grace window. -/
theorem grace_iff {now t : ℕ} (h : blobGraceSeconds ≤ now) :
    t ≤ now - blobGraceSeconds ↔ blobGraceSeconds ≤ now - t := by
  unfold blobGraceSeconds at *
  omega

theorem Tracks.step (hg : blobGraceSeconds ≤ s₀.now) (h : Tracks fromSlice s₀ s p)
    (hheld : ∀ r held, p.phase.held = some (r, held) → (p.blobs.lookup r).isSome)
    (he : Effect fromSlice s p a p') : Tracks fromSlice s₀ (a.apply s) p' := by
  cases he with
  | still ha hs =>
    exact h.frame (by rw [Act.apply_manifests, Act.onManifests_keeps ha])
      (by rw [Act.apply_blobs, Act.onBlobs_keeps ha]) hs
  | markEvicted hs => exact (h.markEvicted _).frame rfl rfl hs
  | dropManifest hm hp hn ht hph => exact h.dropManifest hm hp hn ht hph
  | unevict hb hp hh =>
    refine h.setBk hb (by simp) (by simp) ?_ fun d _ => hp d
    simpa [hp] using h.refs _ _ hb
  | moveBlob hh hs => exact (h.moveBlob _ (hheld _ _ hh)).frame rfl rfl hs
  | unref hp hb => exact h.cascade hp hb
  | cascadeDrop hp hb hr ht hs =>
    rw [h.now, grace_iff hg] at ht
    have h' := (h.cascade hp hb).dropBlob (AList.lookup_insert _) (by simpa using hr)
      (by simpa [h.now] using ht)
    exact h'.frame rfl rfl hs
  | sweepDrop hp hb hr ht hs => exact (h.dropBlob hb hr ht).frame rfl rfl hs

/-- A blob a spill holds is tracked. -/
theorem PhaseOk.held (hok : PhaseOk s p) {r : Digest} {held : HeldBlob}
    (hh : p.phase.held = some (r, held)) : (p.blobs.lookup r).isSome := by
  unfold PhaseOk at hok
  cases hp : p.phase <;> rw [hp] at hok hh <;> cases hh <;> exact hok

theorem PhaseOk.counted (hok : PhaseOk s p) : p.phase.stage = .counted := by
  unfold PhaseOk at hok
  cases hp : p.phase <;> rw [hp] at hok <;> first | rfl | exact hok.elim

theorem PhaseOk.step (hok : PhaseOk s p) (hs : Step fromSlice s p c a p') :
    PhaseOk (a.apply s) p' := by
  have hst := hok.counted
  cases hs with
  | begin hp => rw [hp] at hst; cases hst
  | scanBlobs hp => rw [hp] at hst; cases hst
  | scanManifests hp => rw [hp] at hst; cases hst
  | scanRedis hp => simp [PhaseOk, hp] at hok
  | stopLoop hp ha =>
    rintro d ⟨bb, hd, -⟩ hk
    exact absurd (AList.lookup_isSome.mp (by rw [show p.blobs.lookup d = some bb from hd]; rfl)) hk
  | stale hp ha hpop hst => simp [PhaseOk, hp]
  | dropRedis hp hb ha hpop he => simp [PhaseOk, hp]
  | spillFetch hp ht hb hu htier hl => simp [PhaseOk]
  | spillWrite hp hw => simpa [PhaseOk, hp] using hok
  | @cascadeDrop _ _ _ _ blob hp hb hr ht hl => cases blob <;> trivial
  | sweepEnd hp => simpa [PhaseOk, hp, Expired, Act.onBlobs] using hok
  | @sweepKeep todo r hp hd hk =>
    simp only [PhaseOk, hp] at hok
    rintro d ⟨bb, hb, hr, ht⟩ hn
    by_cases hm : d ∈ todo
    · rcases mem_eraseIdx hd hm with rfl | hm
      · exact hk bb hb hr ht
      · exact absurd hm hn
    · exact hok d ⟨bb, hb, hr, ht⟩ hm
  | @sweepDrop todo r bb blob hp hd hb hr ht hl =>
    simp only [PhaseOk, hp] at hok
    have hswept : ∀ d, p.Expired d → d ∉ todo.eraseIdx c.pick →
        ((Act.dropBlob r).apply s).blobs.lookup d = none := by
      intro d he hn
      rw [Act.apply_blobs, Act.onBlobs, lookup_erase_apply]
      split
      · rfl
      · rename_i hne
        refine hok d he fun hm => ?_
        rcases mem_eraseIdx hd hm with rfl | hm
        · exact hne rfl
        · exact hn hm
    cases blob <;> exact hswept
  | sweepUnlink hp =>
    simp only [PhaseOk, hp] at hok
    intro d he hn
    rw [Act.apply_blobs, Act.onBlobs_inert (Act.inert_unlink ..)]
    exact hok d he hn
  | publish hp => simpa [PhaseOk, hp, Expired, Act.onBlobs] using hok
  | storeEnd hp => simpa [PhaseOk, hp, Expired, Act.onBlobs] using hok
  | store hp => simpa [PhaseOk, hp, Expired, Act.onBlobs] using hok
  | _ => trivial

theorem Scanned.tracks (hs : Scanned fromSlice s p)
    (hrefs : ∀ d, (s.blobs.lookup d).isSome → refsTo fromSlice s.manifests d < 2 ^ 32) :
    Tracks fromSlice s s p := by
  have htimes (d : Digest) : (p.blobs.lookup d).map BlobBk.lastAccessed =
      (s.blobs.lookup d).map Blob.lastAccessed := by
    have h := congrArg (Option.map Prod.snd) (hs.bks d)
    rwa [Option.map_map, Option.map_map] at h
  have hsome (d : Digest) : (p.blobs.lookup d).isSome = (s.blobs.lookup d).isSome := by
    simpa using congrArg Option.isSome (htimes d)
  refine ⟨hs.now, htimes, fun d bb hd => ?_, fun d hd => hd, fun d bb hd hg => ?_⟩
  · have hlt := hrefs d (by rw [← hsome, hd]; rfl)
    rw [hs.refs d bb hd, Nat.mod_eq_of_lt hlt, hs.phase]
    rfl
  · have h := hsome d
    rw [hd, hg] at h
    cases h

end Pass

/-- A pass that runs alone and returns Ok removes a blob if and only if no surviving
manifest references it and it was last used a grace window ago, and it adds none. -/
theorem evict_collects_exactly (fromSlice : Bytes → Option Json) (s : State)
    (hnow : blobGraceSeconds ≤ s.now)
    (hrefs : ∀ d, (s.blobs.lookup d).isSome → refsTo fromSlice s.manifests d < 2 ^ 32)
    (choices : List Choice) (s' : State) (p' : Pass)
    (hr : run (Pass.step fromSlice) (s, .start) choices = some (s', p'))
    (hok : p'.phase = .done) (d : Digest) :
    (∀ b, s.blobs.lookup d = some b → (s'.blobs.lookup d = none ↔
      (∀ dm m, s'.manifests.lookup dm = some m → d ∉ referencedDigests fromSlice m.content) ∧
        blobGraceSeconds ≤ s.now - b.lastAccessed)) ∧
    (s.blobs.lookup d = none → s'.blobs.lookup d = none) := by
  obtain ⟨_, _, _, _, rest, -, hr⟩ := Pass.run_start hr (.inl hok)
  have hsc : Pass.Scanned fromSlice s _ := Pass.scanned_spec s
  have h0 : Pass.Tracks fromSlice s (Act.countRun.apply s) (Pass.scanned fromSlice s) :=
    (hsc.tracks hrefs).frame rfl rfl ⟨rfl, rfl, fun _ _ _ => rfl, .inr rfl⟩
  have hend : Pass.Tracks fromSlice s s' p' ∧ Pass.PhaseOk s' p' :=
    Pass.run_keeps (I := fun s' p' => Pass.Tracks fromSlice s s' p' ∧ Pass.PhaseOk s' p')
      (fun _ _ _ _ _ hi hs => ⟨hi.1.step hnow (fun _ _ hh => hi.2.held hh)
        (hs.effect hi.2.counted), hi.2.step hs⟩) ⟨h0, trivial⟩ hr
  obtain ⟨ht, hph⟩ := hend
  simp only [Pass.PhaseOk, hok] at hph
  constructor
  · intro b hb
    have htime := ht.times d
    rw [hb, Option.map_some, Option.map_eq_some_iff] at htime
    obtain ⟨bb, hbb, hla⟩ := htime
    have hrefsd := ht.refs d bb hbb
    rw [hok] at hrefsd
    rw [← refsTo_eq_zero, ← hla, ← ht.now]
    constructor
    · intro hgone
      obtain ⟨h0, hold⟩ := ht.gone d bb hbb hgone
      exact ⟨by rw [h0] at hrefsd; exact hrefsd.symm, hold⟩
    · rintro ⟨h0, hold⟩
      exact hph d ⟨bb, hbb, by rw [hrefsd, h0]; rfl, hold⟩
  · intro hnone
    cases hd : s'.blobs.lookup d with
    | none => rfl
    | some b =>
      have hk := ht.known d (by rw [hd]; rfl)
      rw [hnone] at hk
      cases hk

/-! A manifest that references one blob, beside a blob nothing references. -/

def layer : Digest := ⟨List.replicate 32 170, rfl⟩

def orphan : Digest := ⟨List.replicate 32 1, rfl⟩

def layerText : String := "sha256:aaaaaaaaaaaaaaaaaaaaaaaaaaaaaaaaaaaaaaaaaaaaaaaaaaaaaaaaaaaaaaaa"

def imageBody : Bytes := utf8 ("\x7b\"digest\":\"" ++ layerText ++ "\"\x7d")

/-- The JSON decoder on that manifest. -/
def imageJson (content : Bytes) : Option Json :=
  if content = imageBody then some (.object [("digest", .string layerText)]) else none

def image : Digest := ⟨List.replicate 32 9, rfl⟩

def imageState (config : Config) : State :=
  (((State.new config 100000).insertBlob layer (.inMemory 0 [1, 2] "" 5)).insertBlob orphan
    (.inMemory 1 [3] "" 7)).insertManifest image ⟨imageBody, "", 3, false⟩

/-- With no memory allowed the pass drops the manifest and both blobs. -/
theorem evict_collects_exactly_image :
    ∃ s' p', run (Pass.step imageJson) (imageState ⟨0, none, 0⟩, .start) (List.replicate 20 {}) =
      some (s', p') ∧ p'.phase = .done ∧
      (s'.blobs.lookup orphan = none ↔
        (∀ dm m, s'.manifests.lookup dm = some m → orphan ∉ referencedDigests imageJson m.content) ∧
          blobGraceSeconds ≤ 100000 - 7) := by
  have hdone : ((run (Pass.step imageJson) (imageState ⟨0, none, 0⟩, .start)
      (List.replicate 20 {})).map fun x => x.2.phase) = some .done := by decide +kernel
  obtain ⟨⟨s', p'⟩, hr, hp⟩ := Option.map_eq_some_iff.mp hdone
  have hrefs : ∀ d ∈ (imageState ⟨0, none, 0⟩).blobs.keys,
      refsTo imageJson (imageState ⟨0, none, 0⟩).manifests d < 2 ^ 32 := by decide +kernel
  have h := evict_collects_exactly imageJson (imageState ⟨0, none, 0⟩) (by decide)
    (fun d hd => hrefs d (AList.mem_keys.mp (AList.lookup_isSome.mp hd))) _ s' p' hr hp orphan
  exact ⟨s', p', hr, hp, h.1 (.inMemory 1 [3] "" 7) (by decide +kernel)⟩

end Dockfoxprox
