import Dockfoxprox.Lib.Machine
import Dockfoxprox.Model.Uploads
import Dockfoxprox.Proofs.State

/-! Content addressing of blobs under concurrent uploads and fills. The buffer of
an upload and its hasher agree until a finalizing PUT takes the buffer, and the
hasher is not reset there. A second PUT that cloned the `Arc` before the first one
removed the session passes its check on the old hash and stores what the buffer
holds by then. As long as no upload is finalized again after bytes were taken out
of it, every blob in memory hashes to its key. -/

namespace Dockfoxprox

open MapSum Machine

/-- Every blob in memory sits under the digest of its content. -/
def State.BlobsAddressed (crates : Crates) (s : State) : Prop :=
  ∀ d id content mt t, s.blobs.lookup d = some (.inMemory id content mt t) →
    crates.sha256 content = d

/-- A PUT whose digest check passes finds an upload out of which no earlier PUT has
taken bytes. -/
def UploadReq.FinalizesWhole (crates : Crates) (u : Uploads) : UploadReq → Prop
  | .putLock _ _ expected upload chunk =>
    u.putDigest crates upload chunk = expected → upload ∉ u.taken
  | _ => True

/-- No upload is finalized again after bytes were taken out of it. -/
def TakenOnce (crates : Crates) (s : UploadSys) (e : UploadEvent) (_ : UploadSys) : Prop :=
  match e with
  | .step i _ => ∀ r ∈ s.reqs[i]?, r.FinalizesWhole crates s.shared
  | _ => True

instance (crates : Crates) (u : Uploads) (r : UploadReq) : Decidable (r.FinalizesWhole crates u) :=
  match r with
  | .putLock _ _ expected upload chunk => inferInstanceAs
      (Decidable (u.putDigest crates upload chunk = expected → upload ∉ u.taken))
  | .start _ | .postBody _ _ | .patchBody _ _ _ | .patchLock _ _ _ _ | .putBody _ _ _ _
  | .putRemove _ _ _ _ | .store _ _ _ | .statusLock _ _ _ | .done _ => isTrue trivial

instance (crates : Crates) (s : UploadSys) (e : UploadEvent) (s' : UploadSys) :
    Decidable (TakenOnce crates s e s') :=
  match e with
  | .step i _ => inferInstanceAs (Decidable (∀ r ∈ s.reqs[i]?, r.FinalizesWhole crates s.shared))
  | .tick _ | .request _ | .fill _ _ | .stream _ _ | .disconnect _ | .insert _ => isTrue trivial

/-- The content a request is about to store hashes to the digest it stores it under. -/
def UploadReq.Checked (crates : Crates) : UploadReq → Prop
  | .putRemove _ _ got buf => crates.sha256 buf = got
  | .store _ got content => crates.sha256 content = got
  | _ => True

structure Uploads.Whole (crates : Crates) (u : Uploads) : Prop where
  blobs : u.st.BlobsAddressed crates
  agree : ∀ a ∉ u.taken, (u.arcs a).buf = (u.arcs a).hasher.fed

structure Fill.Whole (crates : Crates) (f : Fill) : Prop where
  agree : f.buf = f.hasher.fed
  checked : f.phase = .inserting → crates.sha256 f.buf = f.digest

structure UploadSys.Whole (crates : Crates) (s : UploadSys) : Prop where
  shared : s.shared.Whole crates
  reqs : ∀ r ∈ s.reqs, r.Checked crates
  fills : ∀ f ∈ s.fills, f.Whole crates

variable {crates : Crates}

theorem State.BlobsAddressed.storeBlob {s : State} (h : s.BlobsAddressed crates) {d : Digest}
    {content : Bytes} {mt : String} (hc : crates.sha256 content = d) :
    (s.storeBlob d content mt).BlobsAddressed crates := by
  intro d' id content' mt' t hl
  obtain ⟨usage, he⟩ := storeBlob_eq s d content mt
  rw [he, lookup_insert_apply] at hl
  split at hl
  · cases hl
    simp_all
  · exact h d' id content' mt' t hl

namespace Uploads

variable {u : Uploads}

/-- The first step of a request stores nothing and takes nothing; it may create an
upload or remove a session. -/
theorem Whole.start (h : u.Whole crates) (fresh : Uuid) (r : Request) :
    (u.start crates fresh r).1.Whole crates ∧ (u.start crates fresh r).2.Checked crates := by
  have hself : ∀ host m k, (k.1.Whole crates ∧ k.2.Checked crates) →
      (u.selfOnly host m k).1.Whole crates ∧ (u.selfOnly host m k).2.Checked crates := by
    intro host m k hk
    unfold selfOnly
    split
    · exact ⟨h, trivial⟩
    · exact hk
  have hfind : ∀ str (k : Uuid → ℕ → UploadReq), (∀ uuid a, (k uuid a).Checked crates) →
      (u.find crates str k).Checked crates := by
    intro str k hk
    unfold find
    split
    · trivial
    · split
      · trivial
      · exact hk _ _
  unfold Uploads.start
  split
  · refine hself _ _ _ ?_
    split
    · split <;> exact ⟨h, trivial⟩
    · refine ⟨⟨h.blobs, fun a ha => ?_⟩, trivial⟩
      by_cases he : a = u.nextArc
      · subst he; simp [UploadInner.new]
      · simpa [he] using h.agree a ha
  · exact hself _ _ _ ⟨h, hfind _ _ fun _ _ => trivial⟩
  · refine hself _ _ _ ⟨h, ?_⟩
    repeat' split
    all_goals trivial
  · refine hself _ _ _ ?_
    split
    · exact ⟨h, trivial⟩
    · exact ⟨⟨h.blobs, h.agree⟩, trivial⟩
  · exact hself _ _ _ ⟨h, hfind _ _ fun _ _ => trivial⟩
  · exact ⟨h, trivial⟩

theorem agree_append {inner : UploadInner} (h : inner.buf = inner.hasher.fed) (chunk : Bytes) :
    (inner.append chunk).buf = (inner.append chunk).hasher.fed := by
  simp [UploadInner.append, h]

theorem Whole.putAppend (h : u.Whole crates) {a : ℕ} (ha : a ∉ u.taken) (chunk : Bytes) :
    (u.putAppend a chunk).buf = (u.putAppend a chunk).hasher.fed := by
  unfold Uploads.putAppend
  split
  · exact h.agree a ha
  · exact agree_append (h.agree a ha) chunk

/-- Replacing one upload by one whose buffer and hasher agree, unless bytes were
taken out of it. -/
theorem Whole.update (h : u.Whole crates) (a : ℕ) (inner : UploadInner)
    (hi : a ∉ u.taken → inner.buf = inner.hasher.fed) :
    ({ u with arcs := Function.update u.arcs a inner } : Uploads).Whole crates := by
  refine ⟨h.blobs, fun a' ha' => ?_⟩
  by_cases he : a' = a
  · subst he; simpa using hi ha'
  · simpa [he] using h.agree a' ha'

theorem Whole.patchSection (h : u.Whole crates) (name : String) (uuid : Uuid) (a : ℕ)
    (chunk : Bytes) : (u.patchSection crates name uuid a chunk).1.Whole crates :=
  h.update a _ fun ha => agree_append (h.agree a ha) chunk

/-- The section of a PUT hands over content that hashes to the digest it was checked
against, provided nothing was taken out of the upload before. -/
theorem Whole.putSection (h : u.Whole crates) (name : String) (uuid : Uuid) (expected : Digest)
    (a : ℕ) (chunk : Bytes) (hc : u.putDigest crates a chunk = expected → a ∉ u.taken) :
    (u.putSection crates name uuid expected a chunk).1.Whole crates ∧
      (u.putSection crates name uuid expected a chunk).2.Checked crates := by
  unfold Uploads.putSection
  dsimp only
  split
  · exact ⟨h.update a _ fun ha => h.putAppend ha chunk, trivial⟩
  · rename_i hgot
    have ha := hc (not_not.mp hgot)
    have hagree := h.putAppend ha chunk
    refine ⟨⟨h.blobs, fun a' ha' => ?_⟩, ?_⟩
    · by_cases he : a' = a
      · subst he
        -- an upload that is not recorded as taken from gave an empty buffer away
        have hnil : (u.putAppend a' chunk).buf = [] := by
          by_contra hne
          simp [hne] at ha'
        simp [← hagree, hnil]
      · have hmem : a' ∉ u.taken := by
          intro hm
          apply ha'
          dsimp only
          split <;> simp [hm]
        simpa [he] using h.agree a' hmem
    · show crates.sha256 _ = _
      rw [hagree]
      rfl

theorem Whole.step (h : u.Whole crates) (inp : Input) {r : UploadReq} (hr : r.Checked crates)
    (hc : r.FinalizesWhole crates u) :
    (u.step crates inp r).1.Whole crates ∧ (u.step crates inp r).2.Checked crates := by
  have hbody : ∀ k : Bytes → UploadReq, (∀ b, (k b).Checked crates) →
      (UploadReq.withBody inp.body k).Checked crates := by
    intro k hk
    unfold UploadReq.withBody
    split
    · trivial
    · exact hk _
  cases r with
  | start r => exact h.start inp.uuid r
  | postBody name expected =>
    refine ⟨h, hbody _ fun b => ?_⟩
    unfold postCheck
    split
    · trivial
    · rfl
  | patchBody name uuid a => exact ⟨h, hbody _ fun _ => trivial⟩
  | patchLock name uuid a chunk => exact ⟨h.patchSection name uuid a chunk, trivial⟩
  | putBody name uuid expected a => exact ⟨h, hbody _ fun _ => trivial⟩
  | putLock name uuid expected a chunk =>
    exact h.putSection name uuid expected a chunk hc
  | putRemove name uuid got buf => exact ⟨⟨h.blobs, h.agree⟩, hr⟩
  | store name got content => exact ⟨⟨h.blobs.storeBlob hr, h.agree⟩, trivial⟩
  | statusLock name uuid a => exact ⟨h, trivial⟩
  | done reply => exact ⟨h, trivial⟩

end Uploads

namespace Fill

variable {f : Fill}

@[simp] theorem send_buf (frame : Except String Bytes) : (f.send frame).buf = f.buf := by
  unfold send; split <;> rfl

@[simp] theorem send_hasher (frame : Except String Bytes) :
    (f.send frame).hasher = f.hasher := by
  unfold send; split <;> rfl

@[simp] theorem send_phase (frame : Except String Bytes) : (f.send frame).phase = f.phase := by
  unfold send; split <;> rfl

theorem Whole.next (h : f.Whole crates) (hp : f.phase = .streaming) (item : StreamItem) :
    (f.next crates item).Whole crates := by
  cases item with
  | chunk bytes =>
    unfold Fill.next
    dsimp only
    split
    · exact ⟨by simp [h.agree], by simp [hp]⟩
    · exact ⟨by simp [h.agree], by simp [hp]⟩
  | error e =>
    unfold Fill.next
    dsimp only
    split
    · exact ⟨by simp [h.agree], by simp⟩
    · exact ⟨h.agree, by simp⟩
  | eof =>
    refine ⟨h.agree, fun hph => ?_⟩
    simp only [Fill.next] at hph ⊢
    split at hph
    · cases hph
    · rename_i hd
      rw [h.agree]
      exact not_not.mp hd

end Fill

theorem UploadSys.Whole.step {s s' : UploadSys} {e : UploadEvent} (h : s.Whole crates)
    (hc : TakenOnce crates s e s') (hs : s.step crates e = some s') : s'.Whole crates := by
  cases e with
  | tick now =>
    cases hs
    exact ⟨⟨h.shared.blobs, h.shared.agree⟩, h.reqs, h.fills⟩
  | request r =>
    cases hs
    exact ⟨h.shared, List.forall_mem_append.mpr ⟨h.reqs, List.forall_mem_singleton.mpr trivial⟩,
      h.fills⟩
  | step i inp =>
    simp only [UploadSys.step] at hs
    split at hs
    · cases hs
    · rename_i r hi
      cases hs
      obtain ⟨hu, hr⟩ := h.shared.step inp (h.reqs r (List.mem_of_getElem? hi)) (hc r hi)
      exact ⟨hu, forall_mem_set h.reqs hr, h.fills⟩
  | fill d mt =>
    cases hs
    exact ⟨h.shared, h.reqs,
      List.forall_mem_append.mpr ⟨h.fills, List.forall_mem_singleton.mpr ⟨rfl, nofun⟩⟩⟩
  | stream j item =>
    simp only [UploadSys.step] at hs
    split at hs
    · cases hs
    · rename_i f hj
      split at hs
      · rename_i hp
        cases hs
        exact ⟨h.shared, h.reqs,
          forall_mem_set h.fills ((h.fills f (List.mem_of_getElem? hj)).next hp item)⟩
      · cases hs
  | disconnect j =>
    simp only [UploadSys.step] at hs
    split at hs
    · cases hs
    · rename_i f hj
      cases hs
      have hf := h.fills f (List.mem_of_getElem? hj)
      exact ⟨h.shared, h.reqs, forall_mem_set h.fills ⟨hf.agree, hf.checked⟩⟩
  | insert j =>
    simp only [UploadSys.step] at hs
    split at hs
    · cases hs
    · rename_i f hj
      split at hs
      · rename_i hp
        cases hs
        have hf := h.fills f (List.mem_of_getElem? hj)
        exact ⟨⟨h.shared.blobs.storeBlob (hf.checked hp), h.shared.agree⟩, h.reqs,
          forall_mem_set h.fills ⟨hf.agree, nofun⟩⟩
      · cases hs

theorem UploadSys.whole_init {s : State} (h : s.BlobsAddressed crates) :
    (UploadSys.init s).Whole crates :=
  ⟨⟨h, fun _ _ => rfl⟩, nofun, nofun⟩

/-- In every interleaving of upload requests and fills in which no upload is finalized
after bytes were taken out of it, every blob in memory hashes to its digest. -/
theorem uploads_content_addressed (crates : Crates) (s : State) (es : List UploadEvent)
    (t : UploadSys) (hs : s.BlobsAddressed crates)
    (hc : Along (UploadSys.step crates) (TakenOnce crates) (.init s) es)
    (hr : run (UploadSys.step crates) (.init s) es = some t) :
    t.shared.st.BlobsAddressed crates := by
  have hstep : ∀ s e s', s.Whole crates → TakenOnce crates s e s' →
      UploadSys.step crates s e = some s' → s'.Whole crates := fun _ _ _ h hc hs => h.step hc hs
  exact (run_invariant hstep (UploadSys.whole_init hs) hc hr).shared.blobs

/-! Two clients that finalize one upload. -/

/-- SHA-256 of the empty string. -/
def emptyDigest : Digest :=
  ⟨[0xe3, 0xb0, 0xc4, 0x42, 0x98, 0xfc, 0x1c, 0x14, 0x9a, 0xfb, 0xf4, 0xc8, 0x99, 0x6f, 0xb9, 0x24,
    0x27, 0xae, 0x41, 0xe4, 0x64, 0x9b, 0x93, 0x4c, 0xa4, 0x95, 0x99, 0x1b, 0x78, 0x52, 0xb8, 0x55],
    rfl⟩

/-- SHA-256 of the letter `a`. -/
def letterDigest : Digest :=
  ⟨[0xca, 0x97, 0x81, 0x12, 0xca, 0x1b, 0xbd, 0xca, 0xfa, 0xc2, 0x31, 0xb3, 0x9a, 0x23, 0xdc, 0x4d,
    0xa7, 0x86, 0xef, 0xf8, 0x14, 0x7c, 0x4e, 0x72, 0xb9, 0x80, 0x77, 0x85, 0xaf, 0xee, 0x48, 0xbb],
    rfl⟩

def uploadUuid : Uuid := 0x67e5504410b1426f9247bb680e5fe0c8

def uploadUuidText : String := "67e55044-10b1-426f-9247-bb680e5fe0c8"

/-- The other crates on the few inputs of the runs below. -/
def tableCrates : Crates where
  sha256 content :=
    if content = [] then emptyDigest
    else if content = utf8 "a" then letterDigest
    else ⟨List.replicate 32 0, rfl⟩
  percentDecode s := s
  parseUuid s := if s = uploadUuidText then some uploadUuid else none
  uuidText _ := uploadUuidText
  statusText _ := "200 OK"

def uploadRequest (method : Method) (query : Option String) : Request where
  method := method
  upstreamHost := "self"
  name := "app"
  tail := uploadUuidText
  query := query

def putLetter : Request :=
  uploadRequest .put
    (some "digest=sha256:ca978112ca1bbdcafac231b39a23dc4da786eff8147c4e72b9807785afee48bb")

def freshState : State := State.new ⟨1000, none, 1000⟩ 7

/-- An upload is created; a PATCH and a PUT both look it up; the PATCH appends `a` and
the PUT finalizes, while a fill of the empty blob completes. -/
def patchBesidePut : List UploadEvent :=
  [.request (uploadRequest .post none), .step 0 { uuid := uploadUuid },
    .request putLetter, .step 1 {}, .request (uploadRequest .patch none), .step 2 {},
    .step 2 { body := .ok (utf8 "a") }, .step 2 {}, .fill emptyDigest "text/plain",
    .step 1 {}, .step 1 {}, .step 1 {}, .stream 0 .eof, .step 1 {}, .insert 0]

/-- Both PUTs look the upload up; the first one brings the byte and takes it, the
second one brings nothing and passes its check on the hash of the first. -/
def twoFinalizes : List UploadEvent :=
  [.request (uploadRequest .post none), .step 0 { uuid := uploadUuid },
    .request putLetter, .step 1 {}, .request putLetter, .step 2 {},
    .step 1 { body := .ok (utf8 "a") }, .step 1 {}, .step 2 {}, .step 2 {},
    .step 1 {}, .step 1 {}, .step 2 {}, .step 2 {}]

theorem freshState_addressed : freshState.BlobsAddressed tableCrates := nofun

theorem uploads_content_addressed_patched :
    ∃ t, run (UploadSys.step tableCrates) (.init freshState) patchBesidePut = some t ∧
      t.shared.st.blobs.lookup letterDigest =
        some (.inMemory 0 (utf8 "a") "application/octet-stream" 7) ∧
      t.shared.st.BlobsAddressed tableCrates := by
  have hrun : ((run (UploadSys.step tableCrates) (.init freshState) patchBesidePut).map
      fun t => t.shared.st.blobs.lookup letterDigest) =
      some (some (.inMemory 0 (utf8 "a") "application/octet-stream" 7)) := by decide +kernel
  obtain ⟨t, ht, hl⟩ := Option.map_eq_some_iff.mp hrun
  exact ⟨t, ht, hl, uploads_content_addressed tableCrates freshState patchBesidePut t
    freshState_addressed (by decide +kernel) ht⟩

/-- The digest of `a` comes to stand for the empty string. -/
theorem second_finalize_stores_nothing :
    ∃ t, run (UploadSys.step tableCrates) (.init freshState) twoFinalizes = some t ∧
      freshState.BlobsAddressed tableCrates ∧
      t.shared.st.blobs.lookup letterDigest =
        some (.inMemory 1 [] "application/octet-stream" 7) ∧
      ¬ t.shared.st.BlobsAddressed tableCrates := by
  have hrun : ((run (UploadSys.step tableCrates) (.init freshState) twoFinalizes).map
      fun t => t.shared.st.blobs.lookup letterDigest) =
      some (some (.inMemory 1 [] "application/octet-stream" 7)) := by decide +kernel
  obtain ⟨t, ht, hl⟩ := Option.map_eq_some_iff.mp hrun
  refine ⟨t, ht, freshState_addressed, hl, fun h => ?_⟩
  have hsum : tableCrates.sha256 [] = letterDigest := h letterDigest 1 [] _ 7 hl
  exact absurd hsum (by decide +kernel)

end Dockfoxprox
