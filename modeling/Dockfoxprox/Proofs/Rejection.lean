import Dockfoxprox.Proofs.Session

/-! What a finalizing PUT that is refused leaves behind. The refusals that come before the body
is read change nothing, and neither does a body that breaks off. The digest check comes after
the last chunk has been appended, and that chunk stays. -/

namespace Dockfoxprox

namespace Uploads

variable {crates : Crates} {u : Uploads} {r : Request}

/-- A PUT that does not get as far as its body ends in its first step. -/
theorem start_of_not_admits (hm : r.method = .put) (h : ¬ u.Admits crates r) (fresh : Uuid) :
    ∃ reply, u.start crates fresh r = (u, .done reply) := by
  by_cases hh : r.upstreamHost = "self"
  · rw [start, hm]
    simp only [putBlobUpload, selfOnly, ensureSelf, hh, ne_eq, not_true_eq_false, if_false]
    cases hv : crates.parseUuid r.tail with
    | none => exact ⟨_, rfl⟩
    | some uuid =>
      cases ht : digestFromQuery crates r.query with
      | none => exact ⟨_, rfl⟩
      | some text =>
        cases he : Digest.fromStr text with
        | none => simp only [he]; exact ⟨_, rfl⟩
        | some expected =>
          cases ha : u.uploads.lookup uuid with
          | none => simp only [he, ha]; exact ⟨_, rfl⟩
          | some a => exact absurd ⟨hh, ⟨text, expected, ht, he⟩, uuid, hv, by rw [ha]; rfl⟩ h
  · refine ⟨.error (.methodNotAllowed .put), ?_⟩
    simp [start, putBlobUpload, selfOnly, ensureSelf, hm, hh]

theorem serve_of_not_admits (hm : r.method = .put) (h : ¬ u.Admits crates r) (inp : Input) :
    (u.serve crates inp r).1 = u := by
  obtain ⟨reply, hs⟩ := start_of_not_admits hm h inp.uuid
  rw [serve_done hs]

/-- The upload and the digest that a PUT goes on with. -/
theorem Admits.exists_upload (h : u.Admits crates r) (hm : r.method = .put) :
    ∃ uuid a text expected, r.Finalizes crates uuid text ∧ Digest.fromStr text = some expected ∧
      u.uploads.lookup uuid = some a := by
  obtain ⟨text, expected, ht, he⟩ := h.digest
  obtain ⟨uuid, hv, hl⟩ := h.upload
  obtain ⟨a, ha⟩ := Option.isSome_iff_exists.mp hl
  exact ⟨uuid, a, text, expected, ⟨hm, h.host, hv, ht⟩, he, ha⟩

/-- The body breaks off. -/
theorem serve_of_error (hm : r.method = .put) (h : u.Admits crates r) (e : String) :
    (u.serve crates { body := .error e } r).1 = u := by
  obtain ⟨uuid, a, text, expected, hr, he, ha⟩ := h.exists_upload hm
  have hstart : ∀ fresh, u.start crates fresh r = (u, .putBody r.name uuid expected a) := by
    simp [start, putBlobUpload, selfOnly, ensureSelf, hm, hr.host, hr.tail, hr.query, he, ha]
  simp [serve, Uploads.step, hstart, UploadReq.withBody, readBody, Except.mapError]

/-- The body is read and the PUT is refused all the same: its digest check failed, and the
chunk stays in the upload. -/
theorem serve_of_rejected (hm : r.method = .put) (h : u.Admits crates r) {chunk : Bytes}
    (hrej : (u.serve crates { body := .ok chunk } r).2.Rejected) :
    ∃ uuid a, crates.parseUuid r.tail = some uuid ∧ u.uploads.lookup uuid = some a ∧
      (u.serve crates { body := .ok chunk } r).1 =
        { u with arcs := Function.update u.arcs a (u.putAppend a chunk) } := by
  obtain ⟨uuid, a, text, expected, hr, he, ha⟩ := h.exists_upload hm
  refine ⟨uuid, a, hr.tail, ha, ?_⟩
  have hserve := serve_finalizes hr ha chunk
  rw [he] at hserve
  by_cases hd : u.putDigest crates a chunk = expected
  · simp only [hd, ne_eq, not_true_eq_false, if_false] at hserve
    obtain ⟨status, hs, hle⟩ := hrej
    rw [hserve] at hs
    cases hs
    exact absurd hle (by decide : ¬ 400 ≤ 201)
  · simp only [ne_eq, hd, not_false_eq_true, if_true] at hserve
    rw [hserve, putSection, if_pos hd]

/-- Two uploads of different lengths have different `Range`s once they hold a byte. -/
theorem uploadRange_ne {m n : ℕ} (h : m ≠ n) : uploadRange (m + 1) ≠ uploadRange (n + 1) := by
  intro heq
  have hrepr : Nat.repr m = Nat.repr n := by simpa [uploadRange] using heq
  have hdigits := congrArg (fun t => Nat.ofDigitChars 10 (String.toList t) 0) hrepr
  simp only [Nat.toList_repr, Nat.ofDigitChars_ten_toDigits] at hdigits
  exact h hdigits

/-- A byte sent to two uploads of different lengths is told apart by its `Range`. -/
theorem replies_ne {v : Uploads} {uuid : Uuid} {a : ℕ} (ht : crates.parseUuid r.tail = some uuid)
    (hu : u.uploads.lookup uuid = some a) (hv : v.uploads.lookup uuid = some a)
    (hne : (u.arcs a).buf.length ≠ (v.arcs a).buf.length) :
    ∃ later, u.replies crates later ≠ v.replies crates later := by
  let patch : Request := { method := .patch, upstreamHost := "self", name := r.name, tail := r.tail }
  have hp : patch.Patches crates uuid := ⟨rfl, rfl, ht⟩
  refine ⟨[({ body := .ok [0] }, patch)], fun heq => uploadRange_ne hne ?_⟩
  have hfirst := (List.cons.inj heq).1
  rw [serve_patches hp hu, serve_patches hp hv] at hfirst
  simpa [patchSection, UploadReq.respond, uploadAccepted, UploadInner.append] using hfirst

end Uploads

/-- A refused PUT leaves the uploads as they were, and later requests cannot tell that it was
sent, if and only if it got no further than its body or its body was empty. -/
theorem rejected_put_traceless_iff (crates : Crates) (u : Uploads) (r : Request)
    (body : Except String Bytes) (hm : r.method = .put)
    (hrej : (u.serve crates { body := body } r).2.Rejected) :
    ((u.serve crates { body := body } r).1 = u ↔
      (u.Admits crates r → ∀ chunk, body = .ok chunk → chunk = [])) ∧
    ((∀ later, (u.serve crates { body := body } r).1.replies crates later =
        u.replies crates later) ↔
      (u.Admits crates r → ∀ chunk, body = .ok chunk → chunk = [])) := by
  have hkeep (hc : u.Admits crates r → ∀ chunk, body = .ok chunk → chunk = []) :
      (u.serve crates { body := body } r).1 = u := by
    by_cases ha : u.Admits crates r
    · cases body with
      | error e => exact Uploads.serve_of_error hm ha e
      | ok chunk =>
        obtain rfl := hc ha chunk rfl
        obtain ⟨uuid, a, -, -, hs⟩ := Uploads.serve_of_rejected hm ha hrej
        rw [hs, Uploads.putAppend, List.isEmpty_nil, if_pos rfl, Function.update_eq_self]
    · exact Uploads.serve_of_not_admits hm ha _
  have hnotice (hl : ∀ later, (u.serve crates { body := body } r).1.replies crates later =
      u.replies crates later) : u.Admits crates r → ∀ chunk, body = .ok chunk → chunk = [] := by
    rintro ha chunk rfl
    by_contra hne
    obtain ⟨uuid, a, ht, hu, hs⟩ := Uploads.serve_of_rejected hm ha hrej
    have hlength : ((u.serve crates { body := .ok chunk } r).1.arcs a).buf.length ≠
        (u.arcs a).buf.length := by
      rw [hs]
      simp [Uploads.putAppend, hne, UploadInner.append]
    obtain ⟨later, hlater⟩ := Uploads.replies_ne ht (by rw [hs]; exact hu) hu hlength
    exact hlater (hl later)
  exact ⟨⟨fun h => hnotice fun later => by rw [h], hkeep⟩,
    ⟨hnotice, fun hc later => by rw [hkeep hc]⟩⟩

/-- An upload that has just been created. -/
def openedUpload : Uploads :=
  ((UploadSys.init freshState).shared.serve tableCrates { uuid := uploadUuid }
    (uploadRequest .post none)).1

theorem rejected_put_traceless_iff_empty :
    (openedUpload.serve tableCrates {} putLetter).2.status = some 400 ∧
      (openedUpload.serve tableCrates {} putLetter).1 = openedUpload := by
  have hs : (openedUpload.serve tableCrates {} putLetter).2.status = some 400 := by decide +kernel
  refine ⟨hs, ((rejected_put_traceless_iff tableCrates openedUpload putLetter (.ok []) rfl
    ⟨400, hs, Nat.le_refl _⟩).1).mpr fun _ chunk hc => ?_⟩
  exact (Except.ok.inj hc).symm

/-- The byte `a` with the digest of the empty blob is refused. Sent again with its own digest it
is refused as well, because the upload holds it twice by then. -/
theorem rejected_put_spoils_retry :
    let putEmpty := uploadRequest .put (some ("digest=" ++ emptyDigest.toText))
    let after := openedUpload.serve tableCrates { body := .ok (utf8 "a") } putEmpty
    after.2.status = some 400 ∧
      (openedUpload.arcs 0).buf = [] ∧ (after.1.arcs 0).buf = utf8 "a" ∧
      (openedUpload.serve tableCrates { body := .ok (utf8 "a") } putLetter).2.status = some 201 ∧
      (after.1.serve tableCrates { body := .ok (utf8 "a") } putLetter).2.status = some 400 := by
  decide +kernel

end Dockfoxprox
