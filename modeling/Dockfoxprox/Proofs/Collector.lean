import Dockfoxprox.Model.Collector
import Dockfoxprox.Proofs.Collection

/-! Garbage collection beside clients. The pass decides from the access times and the
reference counts it copied at its scans. A blob that was neither touched nor stored
since still has the access time in the table, and a blob that no manifest stored since
references has at least as many counted references as there are. So the pass collects
safely unless a client got to the blob between a scan and its removal. -/

namespace Dockfoxprox

open MapSum Machine

section
variable (fromSlice : Bytes → Option Json)

/-- A blob that goes away was last accessed a grace window ago, and no manifest present
references it. -/
def Act.CollectsSafely (s : State) : Act → Prop
  | .dropBlob d =>
    (∀ b, s.blobs.lookup d = some b → b.lastAccessed + blobGraceSeconds ≤ s.now) ∧
      ∀ dm m, s.manifests.lookup dm = some m → d ∉ referencedDigests fromSlice m.content
  | _ => True

def CollectsSafely (x : EvictSys) (e : EvictEvent) (_ : EvictSys) : Prop :=
  match e with
  | .evict c => ∀ r ∈ Pass.next fromSlice x.st x.pass c, r.1.CollectsSafely fromSlice x.st
  | _ => True

/-- Since the scans of the pass no client touched or stored the blob that goes away, and
none stored a manifest that references it; the clock is past the grace window and has
not been set back. -/
def Act.Undisturbed (x : EvictSys) : Act → Prop
  | .dropBlob d =>
    d ∉ x.touched ∧ (∀ content ∈ x.put, d ∉ referencedDigests fromSlice content) ∧
      blobGraceSeconds ≤ x.pass.now ∧ x.pass.now ≤ x.st.now
  | _ => True

/-- No removal is disturbed, and the scan of the manifests overflows no `u32` count. -/
def Undisturbed (x : EvictSys) (e : EvictEvent) (_ : EvictSys) : Prop :=
  match e with
  | .evict c =>
    (∀ r ∈ Pass.next fromSlice x.st x.pass c, r.1.Undisturbed fromSlice x) ∧
      (x.pass.phase = .scanManifests →
        ∀ d ∈ x.pass.blobs.keys, refsTo fromSlice x.st.manifests d < 2 ^ 32)
  | _ => True

end

instance (fromSlice : Bytes → Option Json) (x : EvictSys) (a : Act) :
    Decidable (a.Undisturbed fromSlice x) :=
  match a with
  | .dropBlob d => inferInstanceAs
      (Decidable (d ∉ x.touched ∧ (∀ content ∈ x.put, d ∉ referencedDigests fromSlice content) ∧
        blobGraceSeconds ≤ x.pass.now ∧ x.pass.now ≤ x.st.now))
  | .idle | .countRun | .markEvicted _ | .writeFile _ _ | .moveBlob _ _ | .moveRedis _ _ _ _
  | .dropRedis _ | .dropManifest _ | .retainTags _ | .removeFile _ | .publish _ _ _
  | .store _ _ => isTrue trivial

instance (fromSlice : Bytes → Option Json) (x : EvictSys) (e : EvictEvent) (x' : EvictSys) :
    Decidable (Undisturbed fromSlice x e x') :=
  match e with
  | .evict c => inferInstanceAs (Decidable
      ((∀ r ∈ Pass.next fromSlice x.st x.pass c, r.1.Undisturbed fromSlice x) ∧
        (x.pass.phase = .scanManifests →
          ∀ d ∈ x.pass.blobs.keys, refsTo fromSlice x.st.manifests d < 2 ^ 32)))
  | .hit _ | .storeBlob _ _ _ | .storeManifest _ _ _ | .tick _ => isTrue trivial

/-- The access time of every blob but the touched ones is the one in the table. -/
def Times (touched : List Digest) (blobs : DashMap Digest Blob) (t : DashMap Digest BlobBk) :
    Prop :=
  ∀ d ∉ touched, ∀ b, blobs.lookup d = some b →
    ∃ bb, t.lookup d = some bb ∧ bb.lastAccessed = b.lastAccessed

namespace Times

variable {touched : List Digest} {blobs : DashMap Digest Blob} {t t' : DashMap Digest BlobBk}

theorem table (h : Times touched blobs t) (ht : Pass.SameBks t t') : Times touched blobs t' := by
  intro d hd b hb
  obtain ⟨bb, hbb, hl⟩ := h d hd b hb
  obtain ⟨bb', hbb', hl'⟩ := ht.lookup hbb
  exact ⟨bb', hbb', hl'.trans hl⟩

theorem erase (h : Times touched blobs t) (r : Digest) : Times touched (blobs.erase r) t := by
  intro d hd b hb
  rw [lookup_erase_apply] at hb
  split at hb
  · cases hb
  · exact h d hd b hb

theorem insert (h : Times touched blobs t) {r : Digest} {b : Blob}
    (hr : r ∉ touched → ∃ bb, t.lookup r = some bb ∧ bb.lastAccessed = b.lastAccessed) :
    Times touched (blobs.insert r b) t := by
  intro d hd b' hb
  rw [lookup_insert_apply] at hb
  split at hb
  · rename_i he
    subst he
    cases hb
    exact hr hd
  · exact h d hd b' hb

/-- A client's access to one blob. -/
theorem touch (h : Times touched blobs t) (r : Digest) (b : Blob) :
    Times (r :: touched) (blobs.insert r b) t := by
  have h' : Times (r :: touched) blobs t := fun d hd => h d (fun hm => hd (List.mem_cons_of_mem r hm))
  exact h'.insert fun hr => absurd (List.mem_cons_self ..) hr

end Times

section
variable (fromSlice : Bytes → Option Json)

/-- What the table of the pass still says of the state once both scans are made. -/
structure Follows (touched : List Digest) (put : List Bytes) (s : State) (p : Pass) : Prop where
  times : Times touched s.blobs p.blobs
  refs : ∀ d bb, p.blobs.lookup d = some bb →
    (∀ content ∈ put, d ∉ referencedDigests fromSlice content) →
    refsTo fromSlice s.manifests d + p.phase.pending fromSlice d ≤ bb.refs
  held : ∀ r held, p.phase.held = some (r, held) → r ∉ touched →
    ∃ bb, p.blobs.lookup r = some bb ∧ bb.lastAccessed = held.lastAccessed

end

namespace Follows

variable {fromSlice : Bytes → Option Json} {touched : List Digest} {put : List Bytes}
  {s s' : State} {p p' : Pass} {a : Act}

/-- A step that changes neither a blob, a manifest nor the table. -/
theorem frame (h : Follows fromSlice touched put s p) (hm : s'.manifests = s.manifests)
    (hb : s'.blobs = s.blobs) (hs : Pass.Still fromSlice p p') :
    Follows fromSlice touched put s' p' := by
  refine ⟨?_, fun d bb hd hput => ?_, fun r held hr => ?_⟩
  · rw [hb, hs.blobs]; exact h.times
  · rw [hs.blobs] at hd
    rw [hm, hs.pending d bb hd]
    exact h.refs d bb hd hput
  · rcases hs.held with hh | hh
    · rw [hh] at hr; cases hr
    · rw [hs.blobs]
      exact h.held r held (hh ▸ hr)

/-- A new entry of a tracked blob in the table. -/
theorem setBk (h : Follows fromSlice touched put s p) {r : Digest} {bb bb' : BlobBk} {ph : Phase}
    (hb : p.blobs.lookup r = some bb) (htier : bb'.tier = bb.tier)
    (hl : bb'.lastAccessed = bb.lastAccessed)
    (hr : p.phase.pending fromSlice r + bb'.refs ≥ ph.pending fromSlice r + bb.refs)
    (hp : ∀ d, d ≠ r → ph.pending fromSlice d = p.phase.pending fromSlice d)
    (hh : ∀ r held, ph.held = some (r, held) → r ∉ touched →
      ∃ bb, p.blobs.lookup r = some bb ∧ bb.lastAccessed = held.lastAccessed) :
    Follows fromSlice touched put s ((p.setBk r bb').goto ph) := by
  have hsame : Pass.SameBks p.blobs (p.blobs.insert r bb') := Pass.SameBks.insert hb htier hl
  refine ⟨h.times.table hsame, fun d b hd hput => ?_, fun r' held hr' hn => ?_⟩
  · have hd' : (p.blobs.insert r bb').lookup d = some b := hd
    rw [lookup_insert_apply] at hd'
    split at hd'
    · rename_i he
      subst he
      cases hd'
      have := h.refs d bb hb hput
      simp only [Pass.goto_phase]
      omega
    · rename_i he
      rw [Pass.goto_phase, hp d he]
      exact h.refs d b hd' hput
  · obtain ⟨bb₀, hbb₀, hl₀⟩ := hh r' held hr' hn
    obtain ⟨bb₁, hbb₁, hl₁⟩ := hsame.lookup hbb₀
    exact ⟨bb₁, hbb₁, hl₁.trans hl₀⟩

theorem dropBlob (h : Follows fromSlice touched put s p) (r : Digest) :
    Follows fromSlice touched put ((Act.dropBlob r).apply s) p := by
  refine ⟨?_, fun d bb hd hput => ?_, h.held⟩
  · rw [Act.apply_blobs]
    exact h.times.erase r
  · rw [Act.apply_manifests]
    exact h.refs d bb hd hput

theorem dropManifest (h : Follows fromSlice touched put s p) {dm : Digest} {m : Manifest}
    (hm : s.manifests.lookup dm = some m) (hp : ∀ d, p.phase.pending fromSlice d = 0)
    (ht : p'.blobs = p.blobs) (hph : p'.phase = .retainTags dm m) :
    Follows fromSlice touched put ((Act.dropManifest dm).apply s) p' := by
  refine ⟨?_, fun d bb hd hput => ?_, fun r held hr => ?_⟩
  · rw [Act.apply_blobs, ht]
    exact h.times
  · have hr := h.refs d bb (ht ▸ hd) hput
    rw [hp, refsTo_dropManifest hm] at hr
    rw [Act.apply_manifests, hph]
    exact hr
  · rw [hph] at hr
    cases hr

theorem markEvicted (h : Follows fromSlice touched put s p) (dm : Digest) :
    Follows fromSlice touched put ((Act.markEvicted dm).apply s) p := by
  refine ⟨?_, fun d bb hd hput => ?_, h.held⟩
  · rw [Act.apply_blobs]
    exact h.times
  · rw [Act.apply_manifests, refsTo_markEvicted]
    exact h.refs d bb hd hput

/-- The cascade visits one reference of a dropped manifest. -/
theorem cascade (h : Follows fromSlice touched put s p) {old : Bool} {r : Digest}
    {todo : List Digest} {bb : BlobBk} (hp : p.phase = .cascade old (r :: todo))
    (hb : p.blobs.lookup r = some bb) :
    Follows fromSlice touched put s ((p.setBk r (bb.unref old)).goto (.cascade old todo)) := by
  refine h.setBk hb (by simp) (by simp) ?_ (fun d hd => ?_) (fun _ _ hh => by cases hh)
  · simp only [hp, Phase.pending, List.count_cons_self, BlobBk.unref_refs]
    omega
  · simp [hp, Phase.pending, List.count_cons_of_ne (Ne.symm hd)]

theorem moveBlob (h : Follows fromSlice touched put s p) {r : Digest} {held : HeldBlob}
    (hh : p.phase.held = some (r, held)) :
    Follows fromSlice touched put ((Act.moveBlob r (.onDisk held.id held.content.length
      held.mediaType held.lastAccessed)).apply s) p := by
  refine ⟨?_, fun d bb hd hput => ?_, h.held⟩
  · rw [Act.apply_blobs]
    exact h.times.insert fun hn => h.held r held hh hn
  · rw [Act.apply_manifests]
    exact h.refs d bb hd hput

/-- Every step of the pass after its two scans. -/
theorem step (h : Follows fromSlice touched put s p) (he : Pass.Effect fromSlice s p a p') :
    Follows fromSlice touched put (a.apply s) p' := by
  cases he with
  | still ha hs =>
    exact h.frame (by rw [Act.apply_manifests, Act.onManifests_keeps ha])
      (by rw [Act.apply_blobs, Act.onBlobs_keeps ha]) hs
  | markEvicted hs => exact (h.markEvicted _).frame rfl rfl hs
  | dropManifest hm hp hn ht hph => exact h.dropManifest hm hp ht hph
  | unevict hb hp hh =>
    refine h.setBk hb (by simp) (by simp) (by simp [hp]) (fun d _ => hp d) fun r held hr hn => ?_
    obtain ⟨rfl, hl⟩ := hh r held hr
    exact h.times _ hn _ hl
  | moveBlob hh hs => exact (h.moveBlob hh).frame rfl rfl hs
  | unref hp hb => exact h.cascade hp hb
  | cascadeDrop hp hb hr ht hs => exact ((h.cascade hp hb).dropBlob _).frame rfl rfl hs
  | sweepDrop hp hb hr ht hs => exact (h.dropBlob _).frame rfl rfl hs

/-- The blob that a step of the pass removes, with what the pass knew of it. -/
theorem drops {d : Digest} (he : Pass.Effect fromSlice s p (.dropBlob d) p') :
    ∃ bb, p.blobs.lookup d = some bb ∧ bb.refs ≤ p.phase.pending fromSlice d ∧
      (blobGraceSeconds ≤ p.now → bb.lastAccessed + blobGraceSeconds ≤ p.now) := by
  cases he with
  | still ha hs => cases ha
  | cascadeDrop hp hb hr ht hs =>
    refine ⟨_, hb, ?_, fun hg => by omega⟩
    simp only [hp, Phase.pending, List.count_cons_self]
    omega
  | sweepDrop hp hb hr ht hs =>
    refine ⟨_, hb, by simp [hr], fun hg => ?_⟩
    unfold blobGraceSeconds at *
    omega

/-- A client puts a blob under `d`, new or touched. -/
theorem blobWritten (h : Follows fromSlice touched put s p) {d : Digest} {b : Blob}
    (hm : s'.manifests = s.manifests) (hb : s'.blobs = s.blobs.insert d b)
    (ht : p'.blobs = p.blobs)
    (hp : ∀ d, p'.phase.pending fromSlice d = p.phase.pending fromSlice d)
    (hh : ∀ r held, r ≠ d → p'.phase.held = some (r, held) → p.phase.held = some (r, held)) :
    Follows fromSlice (d :: touched) put s' p' := by
  refine ⟨?_, fun d' bb hd hput => ?_, fun r held hr hn => ?_⟩
  · rw [hb, ht]
    exact h.times.touch d b
  · rw [hm, hp]
    exact h.refs d' bb (ht ▸ hd) hput
  · rw [List.mem_cons, not_or] at hn
    rw [ht]
    exact h.held r held (hh r held hn.1 hr) hn.2

/-- A client stores a manifest: what it replaces only lowers the counts of the digests
it does not reference itself. -/
theorem manifestWritten (h : Follows fromSlice touched put s p) {dm : Digest} {m : Manifest}
    (hm : s'.manifests = s.manifests.insert dm m) (hb : s'.blobs = s.blobs) :
    Follows fromSlice touched (m.content :: put) s' p := by
  refine ⟨hb ▸ h.times, fun d bb hd hput => ?_, h.held⟩
  have hold := h.refs d bb hd fun content hc => hput content (List.mem_cons_of_mem _ hc)
  have hnew : manifestRefs fromSlice d m = 0 :=
    manifestRefs_eq_zero.mpr (hput m.content (List.mem_cons_self ..))
  have hle : refsTo fromSlice (s.manifests.insert dm m) d ≤ refsTo fromSlice s.manifests d := by
    have h1 := total_insert_add_share (fun _ => manifestRefs fromSlice d) s.manifests dm m
    unfold refsTo
    omega
  rw [hm]
  omega

end Follows

/-! ### The phases around the scans -/

@[simp] theorem Phase.pending_touch (fromSlice : Bytes → Option Json) (ph : Phase) (d d' : Digest)
    (b : Blob) (now : ℕ) : (ph.touch d b now).pending fromSlice d' = ph.pending fromSlice d' := by
  cases ph <;> rfl

theorem Phase.held_touch {ph : Phase} {d r : Digest} {b : Blob} {now : ℕ} {held : HeldBlob}
    (hr : r ≠ d) (h : (ph.touch d b now).held = some (r, held)) : ph.held = some (r, held) := by
  cases ph with
  | spillWrite sp r' held' =>
    cases h
    simp [Phase.held, hr]
  | spillInsert sp r' held' =>
    cases h
    simp [Phase.held, hr]
  | _ => exact h

@[simp] theorem Phase.stage_touch (ph : Phase) (d : Digest) (b : Blob) (now : ℕ) :
    (ph.touch d b now).stage = ph.stage := by
  cases ph <;> rfl

theorem Pass.Step.counted {fromSlice : Bytes → Option Json} {s : State} {p p' : Pass} {c : Choice}
    {a : Act} (hs : Pass.Step fromSlice s p c a p') (h : p.phase.stage = .counted) :
    p'.phase.stage = .counted := by
  cases hs with
  | begin hp => rw [hp] at h; cases h
  | scanBlobs hp => rw [hp] at h; cases h
  | stale hp ha hpop hst => exact h
  | dropRedis hp hb ha hpop he => exact h
  | @cascadeDrop _ _ _ _ blob hp hb hr ht hl => cases blob <;> rfl
  | @sweepDrop _ _ _ blob hp hd hb hr ht hl => cases blob <;> rfl
  | _ => rfl

/-- What the pass knows, by how far its scans have come. -/
def EvictSys.Inv (fromSlice : Bytes → Option Json) (x : EvictSys) : Prop :=
  match x.pass.phase.stage with
  | .unscanned => x.pass.blobs = ∅
  | .uncounted => Times x.touched x.st.blobs x.pass.blobs ∧ Pass.RefsAre x.pass.blobs 0
  | .counted => Follows fromSlice x.touched x.put x.st x.pass

namespace EvictSys

variable {fromSlice : Bytes → Option Json} {x x' : EvictSys}

/-- The scan of the blobs copies every access time. -/
theorem scanBlobs_times (h : x.pass.blobs = ∅) :
    Times [] x.st.blobs (x.st.blobs.foldl Pass.scanBlob x.pass).blobs ∧
      Pass.RefsAre (x.st.blobs.foldl Pass.scanBlob x.pass).blobs 0 := by
  constructor
  · intro d _ b hb
    refine ⟨⟨(blobTier b).1, 0, 0, b.lastAccessed⟩, ?_, rfl⟩
    rw [Pass.scanBlobs_lookup, hb]
    rfl
  · intro d bb hd
    rw [Pass.scanBlobs_lookup, h, AList.lookup_empty, Option.or_none, Option.map_eq_some_iff] at hd
    obtain ⟨b, -, rfl⟩ := hd
    rfl

/-- The scan of the manifests counts every reference to a tracked blob. -/
theorem scanManifests_follows (ht : Times x.touched x.st.blobs x.pass.blobs)
    (hr : Pass.RefsAre x.pass.blobs 0)
    (hlt : ∀ d ∈ x.pass.blobs.keys, refsTo fromSlice x.st.manifests d < 2 ^ 32) :
    Follows fromSlice x.touched [] x.st
      ((x.st.manifests.foldl (Pass.scanManifest fromSlice) x.pass).goto .scanRedis) := by
  obtain ⟨hsame, hrefs⟩ := @Pass.scanManifests_spec fromSlice x.st.manifests x.pass 0 hr
  refine ⟨ht.table hsame, fun d bb hd _ => ?_, nofun⟩
  have hmem : d ∈ x.pass.blobs.keys := by
    have hs := congrArg Option.isSome (hsame d)
    rw [show AList.lookup d _ = some bb from hd, Option.isSome_map, Option.isSome_map] at hs
    exact AList.mem_keys.mp (AList.lookup_isSome.mp hs.symm)
  rw [hrefs d bb hd, zero_add, Nat.mod_eq_of_lt (hlt d hmem)]
  exact le_refl _

theorem Inv.evict (h : x.Inv fromSlice) {c : Choice}
    (hc : Undisturbed fromSlice x (.evict c) x') (hs : x.step fromSlice (.evict c) = some x') :
    x'.Inv fromSlice := by
  obtain ⟨⟨a, p'⟩, hn, rfl⟩ := Option.map_eq_some_iff.mp hs
  unfold EvictSys.Inv at h
  cases hp : x.pass.phase with
  | begin =>
    simp only [hp, Phase.stage] at h
    simp only [Pass.next, hp, Option.some.injEq, Prod.mk.injEq] at hn
    obtain ⟨rfl, rfl⟩ := hn
    exact h
  | scanBlobs =>
    simp only [hp, Phase.stage] at h
    simp only [Pass.next, hp, Option.some.injEq, Prod.mk.injEq] at hn
    obtain ⟨rfl, rfl⟩ := hn
    simp only [EvictSys.Inv, scanned, hp, if_true, Pass.goto_phase, Phase.stage]
    exact scanBlobs_times h
  | scanManifests =>
    simp only [hp, Phase.stage] at h
    simp only [Pass.next, hp, Option.some.injEq, Prod.mk.injEq] at hn
    obtain ⟨rfl, rfl⟩ := hn
    simp only [EvictSys.Inv, scanned, hp, if_true, reduceCtorEq, if_false, Pass.goto_phase,
      Phase.stage]
    exact scanManifests_follows h.1 h.2 (hc.2 hp)
  | _ =>
    have hstage : x.pass.phase.stage = .counted := by rw [hp]; rfl
    simp only [hstage] at h
    have hs := Pass.step_of_next hn
    have hf := h.step (hs.effect hstage)
    simpa [EvictSys.Inv, scanned, hp, hs.counted hstage] using hf

/-- A hit, which also shows in the blob a spill holds. -/
theorem Inv.hit (h : x.Inv fromSlice) {d : Digest} (hs : x.hit d = some x') :
    x'.Inv fromSlice := by
  unfold EvictSys.hit at hs
  split at hs
  · cases hs
  · rename_i b hb
    cases hs
    unfold EvictSys.Inv at h ⊢
    simp only [Pass.goto_phase, Phase.stage_touch, Pass.goto_blobs]
    cases hst : x.pass.phase.stage <;> simp only [hst] at h
    · exact h
    · exact ⟨h.1.touch d _, h.2⟩
    · exact h.blobWritten rfl rfl rfl (fun _ => Phase.pending_touch ..)
        fun _ _ hr hh => Phase.held_touch hr hh

theorem Inv.storeBlob (h : x.Inv fromSlice) (d : Digest) (content : Bytes) (mt : String) :
    EvictSys.Inv fromSlice
      { x with st := x.st.storeBlob d content mt, touched := d :: x.touched } := by
  obtain ⟨u, he⟩ := storeBlob_eq x.st d content mt
  rw [he]
  unfold EvictSys.Inv at h ⊢
  dsimp only
  cases hst : x.pass.phase.stage <;> simp only [hst] at h
  · exact h
  · exact ⟨h.1.touch d _, h.2⟩
  · exact h.blobWritten rfl rfl rfl (fun _ => rfl) fun _ _ _ hh => hh

theorem Inv.storeManifest (h : x.Inv fromSlice) (d : Digest) (m : Manifest) :
    EvictSys.Inv fromSlice
      { x with st := x.st.insertManifest d m, put := m.content :: x.put } := by
  obtain ⟨u, he⟩ := insertManifest_eq x.st d m
  rw [he]
  unfold EvictSys.Inv at h ⊢
  dsimp only
  cases hst : x.pass.phase.stage <;> simp only [hst] at h
  · exact h
  · exact h
  · exact h.manifestWritten rfl rfl

theorem Inv.tick (h : x.Inv fromSlice) (now : ℕ) :
    EvictSys.Inv fromSlice { x with st := { x.st with now := now } } := by
  unfold EvictSys.Inv at h ⊢
  dsimp only
  cases hst : x.pass.phase.stage <;> simp only [hst] at h
  · exact h
  · exact h
  · exact h.frame rfl rfl ⟨rfl, rfl, fun _ _ _ => rfl, .inr rfl⟩

theorem Inv.step (h : x.Inv fromSlice) {e : EvictEvent} (hc : Undisturbed fromSlice x e x')
    (hs : x.step fromSlice e = some x') : x'.Inv fromSlice := by
  cases e with
  | evict c => exact h.evict hc hs
  | hit d => exact h.hit hs
  | storeBlob d content mt =>
    cases hs
    exact h.storeBlob d content mt
  | storeManifest d content mt =>
    cases hs
    exact h.storeManifest d ⟨content, mt, x.st.now, false⟩
  | tick now =>
    cases hs
    exact h.tick now

/-- The pass removes no blob before it has counted the references. -/
theorem counted_of_drop {s : State} {p p' : Pass} {c : Choice} {d : Digest}
    (hn : Pass.next fromSlice s p c = some (.dropBlob d, p')) : p.phase.stage = .counted := by
  cases hp : p.phase with
  | begin => simp [Pass.next, hp] at hn
  | scanBlobs => simp [Pass.next, hp] at hn
  | scanManifests => simp [Pass.next, hp] at hn
  | _ => rfl

/-- A removal that no client disturbed hits a blob that is idle and unreferenced. -/
theorem Inv.collects (h : x.Inv fromSlice) {e : EvictEvent} (hc : Undisturbed fromSlice x e x') :
    CollectsSafely fromSlice x e x' := by
  cases e with
  | evict c =>
    rintro ⟨a, p'⟩ hn
    have hu := hc.1 _ hn
    cases a with
    | dropBlob d =>
      obtain ⟨htouch, hput, hgrace, hclock⟩ := hu
      have hstage := counted_of_drop hn
      obtain ⟨bb, hbb, hrefs, hold⟩ := Follows.drops ((Pass.step_of_next hn).effect hstage)
      unfold EvictSys.Inv at h
      simp only [hstage] at h
      constructor
      · intro b hb
        obtain ⟨bb', hbb', hla⟩ := h.times d htouch b hb
        obtain rfl : bb = bb' := Option.some.inj (hbb.symm.trans hbb')
        have := hold hgrace
        omega
      · have hcount := h.refs d bb hbb hput
        exact refsTo_eq_zero.mp (by omega)
    | _ => trivial
  | _ => trivial

end EvictSys

/-- In every interleaving of one pass with clients in which no client gets to a blob
between the scans of the pass and its removal, every blob the pass removes was last
accessed a grace window ago and is referenced by no manifest present. -/
theorem undisturbed_pass_collects_safely (fromSlice : Bytes → Option Json) (s : State)
    (es : List EvictEvent)
    (hc : Along (EvictSys.step fromSlice) (Undisturbed fromSlice) (.init s) es) :
    Along (EvictSys.step fromSlice) (CollectsSafely fromSlice) (.init s) es := by
  have hinit : (EvictSys.init s).Inv fromSlice := rfl
  have hstep : ∀ x e x', x.Inv fromSlice → Undisturbed fromSlice x e x' →
      EvictSys.step fromSlice x e = some x' →
      x'.Inv fromSlice ∧ CollectsSafely fromSlice x e x' :=
    fun _ _ _ h hc hs => ⟨h.step hc hs, h.collects hc⟩
  exact along_of_invariant hstep hinit hc

/-- Clients touch and reference the layer of the image while the pass collects the
blob that nothing references. -/
def pushElsewhere : List EvictEvent :=
  List.replicate 4 (.evict {}) ++
    [.hit layer, .storeManifest ⟨List.replicate 32 2, rfl⟩ imageBody "", .tick 100001] ++
    List.replicate 12 (.evict {})

theorem undisturbed_pass_collects_safely_elsewhere :
    (∃ x, run (EvictSys.step imageJson) (.init (imageState ⟨1000, none, 1000⟩)) pushElsewhere =
      some x ∧ x.st.blobs.lookup orphan = none ∧ (x.st.blobs.lookup layer).isSome ∧
        x.pass.phase = .done) ∧
    Along (EvictSys.step imageJson) (CollectsSafely imageJson)
      (.init (imageState ⟨1000, none, 1000⟩)) pushElsewhere := by
  have hrun : ((run (EvictSys.step imageJson) (.init (imageState ⟨1000, none, 1000⟩))
      pushElsewhere).map fun x =>
        (x.st.blobs.lookup orphan, (x.st.blobs.lookup layer).isSome, x.pass.phase)) =
      some (none, true, .done) := by decide +kernel
  obtain ⟨x, hx, hl⟩ := Option.map_eq_some_iff.mp hrun
  obtain ⟨ho, hlp⟩ := Prod.mk.inj hl
  obtain ⟨hla, hp⟩ := Prod.mk.inj hlp
  exact ⟨⟨x, hx, ho, hla, hp⟩, undisturbed_pass_collects_safely imageJson _ pushElsewhere
    (by decide +kernel)⟩

/-- A layer from an earlier push that no manifest references any more. -/
def idleLayer : State :=
  (State.new ⟨1000, none, 1000⟩ 100000).insertBlob layer (.inMemory 0 [1, 2] "" 5)

/-- A client finds the layer with a HEAD after the scans and pushes a manifest that
references it. -/
def pushDuringPass : List EvictEvent :=
  List.replicate 4 (.evict {}) ++ [.hit layer, .storeManifest image imageBody "", .evict {}]

/-- The sweep then removes the layer the client was just told is there. -/
theorem sweep_removes_pushed_layer :
    ∃ x x', run (EvictSys.step imageJson) (.init idleLayer) pushDuringPass = some x ∧
      EvictSys.step imageJson x (.evict {}) = some x' ∧
      x.st.blobs.lookup layer = some (.inMemory 0 [1, 2] "" 100000) ∧ x.st.now = 100000 ∧
      x'.st.blobs.lookup layer = none ∧
      (∃ m, x'.st.manifests.lookup image = some m ∧
        layer ∈ referencedDigests imageJson m.content) ∧
      ¬ CollectsSafely imageJson x (.evict {}) x' := by
  have hrun : ((run (EvictSys.step imageJson) (.init idleLayer) pushDuringPass).map fun x =>
      (x.st.blobs.lookup layer, x.st.now, x.st.manifests.lookup image)) =
      some (some (.inMemory 0 [1, 2] "" 100000), 100000, some ⟨imageBody, "", 100000, false⟩) := by
    decide +kernel
  have hnext : ((run (EvictSys.step imageJson) (.init idleLayer) pushDuringPass).bind fun x =>
      (Pass.next imageJson x.st x.pass {}).map Prod.fst) = some (.dropBlob layer) := by
    decide +kernel
  obtain ⟨x, hx, h⟩ := Option.map_eq_some_iff.mp hrun
  simp only [Prod.mk.injEq] at h
  obtain ⟨hb, hnow, hm⟩ := h
  rw [hx, Option.bind_some, Option.map_eq_some_iff] at hnext
  obtain ⟨⟨a, p'⟩, hn, rfl⟩ := hnext
  refine ⟨x, x.scanned ((Act.dropBlob layer).apply x.st) p', hx, ?_, hb, hnow, ?_, ?_, ?_⟩
  · simp [EvictSys.step, hn]
  · simp [EvictSys.scanned, Act.onBlobs]
  · refine ⟨_, (congrArg (AList.lookup image) (Act.apply_manifests ..)).trans hm, ?_⟩
    decide +kernel
  · intro hsafe
    have hold := (hsafe _ hn).1 _ hb
    rw [hnow] at hold
    exact absurd hold (by decide)

end Dockfoxprox
