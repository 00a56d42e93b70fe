import Dockfoxprox.Model.Session
import Dockfoxprox.Proofs.Uploads

/-! An upload in chunks is the upload of the whole. The buffer and the hasher of a session
hold what its client has sent, whatever the requests of others do in between, because no
other request can come to hold the `Arc` of its upload. -/

namespace Dockfoxprox

open MapSum Machine

/-- What a request in flight holds of the uploads: no `Arc` that is still to be made, and
neither the session nor its `Arc`. -/
def UploadReq.Apart (crates : Crates) (uuid : Uuid) (mine : Option ℕ) (next : ℕ) :
    UploadReq → Prop
  | .start r => r.Elsewhere crates uuid
  | .patchBody _ v a | .patchLock _ v a _ | .putBody _ v _ a | .putLock _ v _ a _
  | .statusLock _ v a => v ≠ uuid ∧ a < next ∧ some a ≠ mine
  | .putRemove _ v _ _ => v ≠ uuid
  | _ => True

/-- The session has the upload `mine`, if it has been opened, and no other has it. -/
structure Uploads.Isolated (uuid : Uuid) (mine : Option ℕ) (u : Uploads) : Prop where
  own : u.uploads.lookup uuid = mine
  others : ∀ v a, u.uploads.lookup v = some a → a < u.nextArc ∧ (v ≠ uuid → some a ≠ mine)

structure UploadSys.Isolated (crates : Crates) (uuid : Uuid) (mine : Option ℕ) (y : UploadSys) :
    Prop where
  shared : y.shared.Isolated uuid mine
  reqs : ∀ r ∈ y.reqs, r.Apart crates uuid mine y.shared.nextArc

/-- What a step of someone else leaves to the session. -/
structure Uploads.Spares (mine : Option ℕ) (u u' : Uploads) : Prop where
  arc : ∀ a, some a = mine → u'.arcs a = u.arcs a
  next : u.nextArc ≤ u'.nextArc

variable {crates : Crates} {uuid : Uuid} {mine : Option ℕ}

theorem UploadReq.Apart.mono {next next' : ℕ} (hle : next ≤ next') {r : UploadReq}
    (h : r.Apart crates uuid mine next) : r.Apart crates uuid mine next' := by
  cases r with
  | patchBody | patchLock | putBody | putLock | statusLock =>
    exact ⟨h.1, lt_of_lt_of_le h.2.1 hle, h.2.2⟩
  | _ => exact h

namespace Uploads

variable {u : Uploads}

theorem Spares.refl (mine : Option ℕ) (u : Uploads) : u.Spares mine u :=
  ⟨fun _ _ => rfl, Nat.le_refl _⟩

/-- Replacing an upload that is not the session's. -/
theorem Spares.update {a : ℕ} (ha : some a ≠ mine) (inner : UploadInner) :
    u.Spares mine { u with arcs := Function.update u.arcs a inner } := by
  refine ⟨fun a' ha' => Function.update_of_ne ?_ _ _, Nat.le_refl _⟩
  rintro rfl
  exact ha ha'

/-- Removing another session. -/
theorem Isolated.erase (h : u.Isolated uuid mine) {v : Uuid} (hv : v ≠ uuid) :
    ({ u with uploads := u.uploads.erase v } : Uploads).Isolated uuid mine := by
  constructor
  · exact (AList.lookup_erase_ne hv.symm).trans h.own
  · intro w a hw
    rw [lookup_erase_apply] at hw
    split at hw
    · cases hw
    · exact h.others w a hw

/-- Opening another session. -/
theorem Isolated.opened (h : u.Isolated uuid mine) {v : Uuid} (hv : v ≠ uuid) (inner : UploadInner) :
    ({ u with
        uploads := u.uploads.insert v u.nextArc
        arcs := Function.update u.arcs u.nextArc inner
        nextArc := u.nextArc + 1 } : Uploads).Isolated uuid mine := by
  constructor
  · exact (AList.lookup_insert_ne hv.symm).trans h.own
  · intro w a hw
    dsimp only at hw ⊢
    rw [lookup_insert_apply] at hw
    split at hw
    · cases hw
      refine ⟨Nat.lt_succ_self _, fun _ hm => ?_⟩
      exact absurd (h.others uuid _ (h.own.trans hm.symm)).1 (Nat.lt_irrefl _)
    · exact ⟨Nat.lt_succ_of_lt (h.others w a hw).1, (h.others w a hw).2⟩

/-- The first step of a request that names no upload of the session. -/
theorem Isolated.start (h : u.Isolated uuid mine) {fresh : Uuid} (hf : fresh ≠ uuid) {r : Request}
    (hr : r.Elsewhere crates uuid) :
    (u.start crates fresh r).1.Isolated uuid mine ∧
      (u.start crates fresh r).2.Apart crates uuid mine (u.start crates fresh r).1.nextArc ∧
      u.Spares mine (u.start crates fresh r).1 := by
  have hself : ∀ host m (k : Uploads × UploadReq), (k.1.Isolated uuid mine ∧
      k.2.Apart crates uuid mine k.1.nextArc ∧ u.Spares mine k.1) →
      (u.selfOnly host m k).1.Isolated uuid mine ∧
        (u.selfOnly host m k).2.Apart crates uuid mine (u.selfOnly host m k).1.nextArc ∧
        u.Spares mine (u.selfOnly host m k).1 := by
    intro host m k hk
    unfold selfOnly
    split
    · exact ⟨h, trivial, .refl _ _⟩
    · exact hk
  have hne : r.method ≠ .post → ∀ v, crates.parseUuid r.tail = some v → v ≠ uuid := by
    rintro hm v hv rfl
    exact hr.elim hm fun hn => hn hv
  have hfind : r.method ≠ .post → ∀ k : Uuid → ℕ → UploadReq,
      (∀ v a, v ≠ uuid ∧ a < u.nextArc ∧ some a ≠ mine → (k v a).Apart crates uuid mine u.nextArc) →
      (u.find crates r.tail k).Apart crates uuid mine u.nextArc := by
    intro hm k hk
    unfold find
    split
    · trivial
    · rename_i v hv
      split
      · trivial
      · rename_i a ha
        have hv' := hne hm v hv
        exact hk v a ⟨hv', (h.others v a ha).1, (h.others v a ha).2 hv'⟩
  unfold Uploads.start
  split
  · refine hself _ _ _ ?_
    split
    · split <;> exact ⟨h, trivial, .refl _ _⟩
    · refine ⟨h.opened hf _, trivial, fun a ha => Function.update_of_ne ?_ _ _, Nat.le_succ _⟩
      exact Nat.ne_of_lt (h.others uuid a (h.own.trans ha.symm)).1
  · rename_i hm
    exact hself _ _ _ ⟨h, hfind (by simp [hm]) _ fun _ _ ha => ha, .refl _ _⟩
  · rename_i hm
    refine hself _ _ _ ⟨h, ?_, .refl _ _⟩
    -- the lookup of a PUT stands behind two refusals
    cases hv : crates.parseUuid r.tail with
    | none => trivial
    | some v =>
      cases digestFromQuery crates r.query with
      | none => trivial
      | some text =>
        cases he : Digest.fromStr text with
        | none => simp only [he]; trivial
        | some expected =>
          cases ha : u.uploads.lookup v with
          | none => simp only [he, ha]; trivial
          | some a =>
            simp only [he, ha]
            have hv' := hne (by simp [hm]) v hv
            exact ⟨hv', (h.others v a ha).1, (h.others v a ha).2 hv'⟩
  · rename_i hm
    refine hself _ _ _ ?_
    split
    · exact ⟨h, trivial, .refl _ _⟩
    · rename_i v hv
      exact ⟨h.erase (hne (by simp [hm]) v hv), trivial, fun _ _ => rfl, Nat.le_refl _⟩
  · rename_i hm
    exact hself _ _ _ ⟨h, hfind (by simp [hm]) _ fun _ _ ha => ha, .refl _ _⟩
  · exact ⟨h, trivial, .refl _ _⟩

/-- A step of someone else's request. -/
theorem Isolated.step (h : u.Isolated uuid mine) {inp : Input} (hf : inp.uuid ≠ uuid)
    {r : UploadReq} (hr : r.Apart crates uuid mine u.nextArc) :
    (u.step crates inp r).1.Isolated uuid mine ∧
      (u.step crates inp r).2.Apart crates uuid mine (u.step crates inp r).1.nextArc ∧
      u.Spares mine (u.step crates inp r).1 := by
  have hbody : ∀ k : Bytes → UploadReq, (∀ b, (k b).Apart crates uuid mine u.nextArc) →
      (UploadReq.withBody inp.body k).Apart crates uuid mine u.nextArc := by
    intro k hk
    unfold UploadReq.withBody
    split
    · trivial
    · exact hk _
  cases r with
  | start r => exact h.start hf hr
  | postBody name expected =>
    refine ⟨h, hbody _ fun b => ?_, .refl _ _⟩
    unfold postCheck
    split <;> trivial
  | patchBody name v a => exact ⟨h, hbody _ fun _ => hr, .refl _ _⟩
  | patchLock name v a chunk => exact ⟨⟨h.own, h.others⟩, trivial, .update hr.2.2 _⟩
  | putBody name v expected a => exact ⟨h, hbody _ fun _ => hr, .refl _ _⟩
  | putLock name v expected a chunk =>
    simp only [Uploads.step, Uploads.putSection]
    split
    · exact ⟨⟨h.own, h.others⟩, trivial, .update hr.2.2 _⟩
    · exact ⟨⟨h.own, h.others⟩, hr.1, (Spares.update hr.2.2 _).arc, Nat.le_refl _⟩
  | putRemove name v got buf => exact ⟨h.erase hr, trivial, fun _ _ => rfl, Nat.le_refl _⟩
  | store name got content => exact ⟨⟨h.own, h.others⟩, trivial, fun _ _ => rfl, Nat.le_refl _⟩
  | statusLock name v a => exact ⟨h, trivial, .refl _ _⟩
  | done reply => exact ⟨h, trivial, .refl _ _⟩

end Uploads

namespace UploadSys

variable {y y' : UploadSys}

/-- Others move and the session is left alone. -/
theorem Isolated.other (h : y.Isolated crates uuid mine) {e : UploadEvent}
    (he : e.Elsewhere crates uuid) (hs : y.step crates e = some y') :
    y'.Isolated crates uuid mine ∧ y.shared.Spares mine y'.shared := by
  cases e with
  | tick now =>
    cases hs
    exact ⟨⟨⟨h.shared.own, h.shared.others⟩, h.reqs⟩, fun _ _ => rfl, Nat.le_refl _⟩
  | request r =>
    cases hs
    exact ⟨⟨h.shared, List.forall_mem_append.mpr ⟨h.reqs, List.forall_mem_singleton.mpr he⟩⟩,
      .refl _ _⟩
  | step i inp =>
    simp only [UploadSys.step] at hs
    split at hs
    · cases hs
    · rename_i r hi
      cases hs
      obtain ⟨hu, hr, hsp⟩ := h.shared.step he (h.reqs r (List.mem_of_getElem? hi))
      exact ⟨⟨hu, forall_mem_set (fun r' hr' => (h.reqs r' hr').mono hsp.next) hr⟩, hsp⟩
  | fill d mt =>
    cases hs
    exact ⟨⟨h.shared, h.reqs⟩, .refl _ _⟩
  | stream j item =>
    simp only [UploadSys.step] at hs
    split at hs
    · cases hs
    · split at hs <;> cases hs
      exact ⟨⟨h.shared, h.reqs⟩, .refl _ _⟩
  | disconnect j =>
    simp only [UploadSys.step] at hs
    split at hs <;> cases hs
    exact ⟨⟨h.shared, h.reqs⟩, .refl _ _⟩
  | insert j =>
    simp only [UploadSys.step] at hs
    split at hs
    · cases hs
    · split at hs <;> cases hs
      exact ⟨⟨⟨h.shared.own, h.shared.others⟩, h.reqs⟩, fun _ _ => rfl, Nat.le_refl _⟩

theorem isolated_init (crates : Crates) (uuid : Uuid) (s : State) :
    (UploadSys.init s).Isolated crates uuid none :=
  ⟨⟨rfl, nofun⟩, nofun⟩

end UploadSys

namespace Uploads

variable {u : Uploads} {r : Request}

/-- A request that is answered in its first step. -/
theorem serve_done {inp : Input} {u' : Uploads} {reply : Reply}
    (h : u.start crates inp.uuid r = (u', .done reply)) :
    u.serve crates inp r = (u', .done reply) := by
  simp [serve, Uploads.step, h]

theorem serve_opens (hr : r.Opens crates) (inp : Input) :
    u.serve crates inp r =
      ({ u with
          uploads := u.uploads.insert inp.uuid u.nextArc
          arcs := Function.update u.arcs u.nextArc .new
          nextArc := u.nextArc + 1 },
        .respond (uploadAccepted crates r.name inp.uuid "0-0")) := by
  refine serve_done ?_
  simp [Uploads.start, postBlobUpload, selfOnly, ensureSelf, hr.method, hr.host, hr.query,
    UploadReq.respond]

theorem serve_patches (hr : r.Patches crates uuid) {a : ℕ} (ha : u.uploads.lookup uuid = some a)
    (chunk : Bytes) :
    u.serve crates { body := .ok chunk } r = u.patchSection crates r.name uuid a chunk := by
  have hstart : ∀ fresh, u.start crates fresh r = (u, .patchBody r.name uuid a) := by
    simp [Uploads.start, patchBlobUpload, find, selfOnly, ensureSelf, hr.method, hr.host, hr.tail,
      ha]
  simp [serve, Uploads.step, hstart, UploadReq.withBody, readBody, Except.mapError, patchSection,
    UploadReq.respond]

/-- The PUT of a session, as its digest check decides. -/
theorem serve_finalizes {text : String} (hr : r.Finalizes crates uuid text) {a : ℕ}
    (ha : u.uploads.lookup uuid = some a) (chunk : Bytes) :
    u.serve crates { body := .ok chunk } r =
      match Digest.fromStr text with
      | none => (u, .refuse 400 "invalid digest")
      | some expected =>
        if u.putDigest crates a chunk ≠ expected then
          u.putSection crates r.name uuid expected a chunk
        else
          ({ (u.putSection crates r.name uuid expected a chunk).1 with
              uploads := u.uploads.erase uuid
              st := u.st.storeBlob expected (u.putAppend a chunk).buf "application/octet-stream" },
            .respond (blobCreated r.name expected)) := by
  cases he : Digest.fromStr text with
  | none =>
    refine serve_done ?_
    simp [Uploads.start, putBlobUpload, selfOnly, ensureSelf, hr.method, hr.host, hr.tail, hr.query,
      he, UploadReq.refuse]
  | some expected =>
    have hstart : ∀ fresh, u.start crates fresh r = (u, .putBody r.name uuid expected a) := by
      simp [Uploads.start, putBlobUpload, selfOnly, ensureSelf, hr.method, hr.host, hr.tail,
        hr.query, he, ha]
    by_cases hd : u.putDigest crates a chunk = expected
    · simp [serve, Uploads.step, hstart, UploadReq.withBody, readBody, Except.mapError, putSection,
        hd, UploadReq.respond]
    · simp [serve, Uploads.step, hstart, UploadReq.withBody, readBody, Except.mapError, putSection,
        hd, UploadReq.refuse]

/-- The single-shot POST, as its digest check decides. -/
theorem serve_uploadsWhole {text : String} (hr : r.UploadsWhole crates text) (body : Bytes) :
    u.serve crates { body := .ok body } r =
      match Digest.fromStr text with
      | none => (u, .refuse 400 "invalid digest")
      | some expected =>
        if crates.sha256 body ≠ expected then
          (u, .refuse 400 (digestMismatch expected (crates.sha256 body)))
        else
          ({ u with st := u.st.storeBlob expected body "application/octet-stream" },
            .respond (blobCreated r.name expected)) := by
  cases he : Digest.fromStr text with
  | none =>
    refine serve_done ?_
    simp [Uploads.start, postBlobUpload, selfOnly, ensureSelf, hr.method, hr.host, hr.query, he,
      UploadReq.refuse]
  | some expected =>
    have hstart : ∀ fresh, u.start crates fresh r = (u, .postBody r.name expected) := by
      simp [Uploads.start, postBlobUpload, selfOnly, ensureSelf, hr.method, hr.host, hr.query, he]
    by_cases hd : crates.sha256 body = expected
    · simp [serve, Uploads.step, hstart, UploadReq.withBody, readBody, Except.mapError, postCheck,
        hd, UploadReq.respond]
    · simp [serve, Uploads.step, hstart, UploadReq.withBody, readBody, Except.mapError, postCheck,
        hd, UploadReq.refuse]

end Uploads

namespace UploadSys

variable {y y' : UploadSys} {a : ℕ} {b : Bytes}

/-- The session is opened on an `Arc` of its own, with nothing in it. -/
theorem Isolated.serve_opens (h : y.Isolated crates uuid none) {r : Request} (hr : r.Opens crates)
    (body : Except String Bytes) :
    ({ y with shared := (y.shared.serve crates ⟨uuid, body⟩ r).1 } : UploadSys).Isolated crates
        uuid (some y.shared.nextArc) ∧
      (y.shared.serve crates ⟨uuid, body⟩ r).1.arcs y.shared.nextArc = .new := by
  rw [Uploads.serve_opens hr]
  refine ⟨⟨⟨AList.lookup_insert _, fun v c hv => ?_⟩, fun r hr => ?_⟩, Function.update_self ..⟩
  · dsimp only at hv ⊢
    rw [lookup_insert_apply] at hv
    split at hv
    · cases hv
      exact ⟨Nat.lt_succ_self _, fun hne => absurd ‹_› hne⟩
    · have hc := (h.shared.others v c hv).1
      exact ⟨Nat.lt_succ_of_lt hc, fun _ hm => Nat.ne_of_lt hc (Option.some.inj hm)⟩
  · have hap := h.reqs r hr
    cases r with
    | patchBody | patchLock | putBody | putLock | statusLock =>
      exact ⟨hap.1, Nat.lt_succ_of_lt hap.2.1, fun hm => Nat.ne_of_lt hap.2.1 (Option.some.inj hm)⟩
    | _ => exact hap

/-- After any step of the session its upload holds what the client has sent so far. -/
theorem Isolated.session (h : y.Isolated crates uuid (some a)) (hb : y.shared.arcs a = ⟨b, ⟨b⟩⟩)
    {e : SessionEvent} (he : e.Apart crates uuid) (hs : y.sessionStep crates uuid e = some y') :
    y'.Isolated crates uuid (some a) ∧
      y'.shared.arcs a = ⟨b ++ e.sent, ⟨b ++ e.sent⟩⟩ := by
  cases e with
  | other e =>
    obtain ⟨h', hsp⟩ := h.other he hs
    refine ⟨h', ?_⟩
    rw [hsp.arc a rfl, hb, SessionEvent.sent, List.append_nil]
  | patch r chunk =>
    simp only [sessionStep] at hs
    split at hs <;> cases hs
    rename_i hr
    rw [Uploads.serve_patches hr h.shared.own]
    refine ⟨⟨⟨h.shared.own, h.shared.others⟩, h.reqs⟩, ?_⟩
    simp [Uploads.patchSection, UploadInner.append, hb, SessionEvent.sent, Hasher.update]

theorem Isolated.run_session (h : y.Isolated crates uuid (some a))
    (hb : y.shared.arcs a = ⟨b, ⟨b⟩⟩) {es : List SessionEvent}
    (hes : ∀ e ∈ es, e.Apart crates uuid)
    (hr : run (UploadSys.sessionStep crates uuid) y es = some y') :
    y'.Isolated crates uuid (some a) ∧
      y'.shared.arcs a = ⟨b ++ (es.map SessionEvent.sent).flatten,
        ⟨b ++ (es.map SessionEvent.sent).flatten⟩⟩ := by
  induction es generalizing y b with
  | nil =>
    cases hr
    exact ⟨h, by simpa using hb⟩
  | cons e es ih =>
    obtain ⟨m, hm, hr⟩ := run_cons.mp hr
    obtain ⟨h', hb'⟩ := h.session hb (hes e List.mem_cons_self) hm
    have hrest := ih h' hb' (fun e' he' => hes e' (List.mem_cons_of_mem e he')) hr
    simpa only [List.map_cons, List.flatten_cons, List.append_assoc] using hrest

end UploadSys

/-- An upload whose buffer and hasher hold `b` hashes, with the last chunk, what a single
request would. -/
theorem Uploads.putAppend_of_holds {u : Uploads} {a : ℕ} {b : Bytes}
    (hb : u.arcs a = ⟨b, ⟨b⟩⟩) (last : Bytes) :
    u.putAppend a last = ⟨b ++ last, ⟨b ++ last⟩⟩ := by
  unfold Uploads.putAppend
  split
  · rename_i hl
    rw [List.isEmpty_iff.mp hl, List.append_nil, hb]
  · rw [hb]
    rfl

/-- Uploading in chunks does what one request with the whole body does, whatever the requests
on other uploads do in between. -/
theorem chunked_upload_eq_single_shot (crates : Crates) (s : State) {uuid : Uuid}
    {before : List UploadEvent} (hbefore : ∀ e ∈ before, e.Elsewhere crates uuid) {y₀ : UploadSys}
    (hr₀ : run (UploadSys.step crates) (.init s) before = some y₀)
    {opening : Request} (ho : opening.Opens crates) (body : Except String Bytes)
    {es : List SessionEvent} (hes : ∀ e ∈ es, e.Apart crates uuid) {y : UploadSys}
    (hr : run (UploadSys.sessionStep crates uuid)
      { y₀ with shared := (y₀.shared.serve crates ⟨uuid, body⟩ opening).1 } es = some y)
    {text : String} {put post : Request} (hput : put.Finalizes crates uuid text)
    (hpost : post.UploadsWhole crates text) (last : Bytes) :
    let whole := (es.map SessionEvent.sent).flatten ++ last
    let chunked := y.shared.serve crates { body := .ok last } put
    let single := y.shared.serve crates { body := .ok whole } post
    (chunked.2.status = some 201 ↔ Digest.fromStr text = some (crates.sha256 whole)) ∧
    chunked.1.st = single.1.st ∧
    (Digest.fromStr text = some (crates.sha256 whole) →
      chunked.1.st.blobs = y.shared.st.blobs.insert (crates.sha256 whole)
        (.inMemory y.shared.st.nextId whole "application/octet-stream" y.shared.st.now) ∧
      chunked.1.uploads = y.shared.uploads.erase uuid) ∧
    (Digest.fromStr text ≠ some (crates.sha256 whole) →
      chunked.1.st = y.shared.st ∧ chunked.1.uploads = y.shared.uploads) := by
  intro whole chunked single
  have h₀ : y₀.Isolated crates uuid none := run_invariant_of_mem
    (fun _ _ _ h he hs => (UploadSys.Isolated.other h he hs).1)
    (UploadSys.isolated_init crates uuid s) hbefore hr₀
  obtain ⟨h₁, hnew⟩ := h₀.serve_opens ho body
  obtain ⟨h, hb⟩ := h₁.run_session hnew hes hr
  have happ : y.shared.putAppend y₀.shared.nextArc last = ⟨whole, ⟨whole⟩⟩ :=
    Uploads.putAppend_of_holds hb last
  have hgot : y.shared.putDigest crates y₀.shared.nextArc last = crates.sha256 whole := by
    rw [Uploads.putDigest, happ]
    rfl
  have hchunked : chunked = _ := Uploads.serve_finalizes hput h.shared.own last
  have hsingle : single = _ := Uploads.serve_uploadsWhole hpost whole
  rw [hgot, happ] at hchunked
  cases hd : Digest.fromStr text with
  | none =>
    rw [hd] at hchunked hsingle
    rw [hchunked, hsingle]
    simp [UploadReq.refuse, UploadReq.status, errorResponse]
  | some expected =>
    rw [hd] at hchunked hsingle
    by_cases he : crates.sha256 whole = expected
    · simp only [he, ne_eq, not_true_eq_false, if_false] at hchunked hsingle
      rw [hchunked, hsingle, he]
      obtain ⟨usage, hst⟩ := insertBlob_eq { y.shared.st with nextId := y.shared.st.nextId + 1 }
        expected (.inMemory y.shared.st.nextId whole "application/octet-stream" y.shared.st.now)
      refine ⟨iff_of_true rfl rfl, rfl, fun _ => ⟨?_, rfl⟩, fun hne => absurd rfl hne⟩
      rw [State.storeBlob, hst]
    · simp only [he, ne_eq, not_false_eq_true, if_true] at hchunked hsingle
      have hput' : chunked.1.st = y.shared.st ∧ chunked.1.uploads = y.shared.uploads ∧
          chunked.2.status = some 400 := by
        rw [hchunked]
        simp [Uploads.putSection, hgot, he, UploadReq.refuse, UploadReq.status, errorResponse]
      rw [hput'.1, hput'.2.1, hput'.2.2, hsingle]
      have hne : expected ≠ crates.sha256 whole := fun heq => he heq.symm
      simp [hne]

/-- Someone else opens an upload and gives up on another one. -/
def othersUploads : List UploadEvent :=
  [.request (uploadRequest .post none), .step 0 { uuid := 5 },
    .request { uploadRequest .delete none with tail := "" }]

/-- The letter `a` in one chunk of two, the other one empty. -/
def letterSession : List SessionEvent :=
  [.patch (uploadRequest .patch none) (utf8 "a"), .other (.step 1 {}),
    .patch (uploadRequest .patch none) []]

def letterText : String := "sha256:ca978112ca1bbdcafac231b39a23dc4da786eff8147c4e72b9807785afee48bb"

theorem chunked_upload_letter :
    ∃ y₀ y, run (UploadSys.step tableCrates) (.init freshState) othersUploads = some y₀ ∧
      run (UploadSys.sessionStep tableCrates uploadUuid)
        { y₀ with shared :=
            (y₀.shared.serve tableCrates ⟨uploadUuid, .ok []⟩ (uploadRequest .post none)).1 }
        letterSession = some y ∧
      (y.shared.serve tableCrates { body := .ok [] } putLetter).2.status = some 201 ∧
      (y.shared.serve tableCrates { body := .ok [] } putLetter).1.st.blobs =
        y.shared.st.blobs.insert letterDigest
          (.inMemory y.shared.st.nextId (utf8 "a") "application/octet-stream" y.shared.st.now) := by
  have hbefore : ∀ e ∈ othersUploads, e.Elsewhere tableCrates uploadUuid := by
    intro e he
    simp only [othersUploads, List.mem_cons, List.not_mem_nil, or_false] at he
    rcases he with rfl | rfl | rfl
    · exact .inl rfl
    · exact (by decide : (5 : Uuid) ≠ uploadUuid)
    · exact .inr (by decide)
  have hes : ∀ e ∈ letterSession, e.Apart tableCrates uploadUuid := by
    intro e he
    simp only [letterSession, List.mem_cons, List.not_mem_nil, or_false] at he
    rcases he with rfl | rfl | rfl
    · trivial
    · exact (by decide : (0 : Uuid) ≠ uploadUuid)
    · trivial
  have hdigest : Digest.fromStr letterText = some letterDigest := by decide +kernel
  obtain ⟨y₀, hr₀⟩ := Option.isSome_iff_exists.mp (by decide +kernel :
    (run (UploadSys.step tableCrates) (.init freshState) othersUploads).isSome = true)
  have hrun : (((run (UploadSys.step tableCrates) (.init freshState) othersUploads).bind fun y₀ =>
      run (UploadSys.sessionStep tableCrates uploadUuid)
        { y₀ with shared :=
            (y₀.shared.serve tableCrates ⟨uploadUuid, .ok []⟩ (uploadRequest .post none)).1 }
        letterSession)).isSome = true := by decide +kernel
  rw [hr₀] at hrun
  obtain ⟨y, hr⟩ := Option.isSome_iff_exists.mp hrun
  have hopen : Request.Opens tableCrates (uploadRequest .post none) := ⟨rfl, rfl, rfl⟩
  have hput : putLetter.Finalizes tableCrates uploadUuid letterText :=
    ⟨rfl, rfl, by decide +kernel, by decide +kernel⟩
  have hpost : Request.UploadsWhole tableCrates letterText { putLetter with method := .post } :=
    ⟨rfl, rfl, by decide +kernel⟩
  have h := chunked_upload_eq_single_shot tableCrates freshState hbefore hr₀ hopen (.ok []) hes hr
    hput hpost []
  exact ⟨y₀, y, hr₀, hr, h.1.mpr hdigest, (h.2.2.1 hdigest).1⟩

end Dockfoxprox
