import Dockfoxprox.Lib.Machine
import Dockfoxprox.Model.Manifests
import Dockfoxprox.Proofs.Uploads

/-! Content addressing of manifests. A PUT hashes the body it stores. A pull-through
GET stores whatever the upstream sends under the digest the client or an upstream
header named, without hashing it, so the invariant stands exactly as long as every
upstream body that comes in on a miss hashes to that digest. -/

namespace Dockfoxprox

open MapSum Machine

/-- Every manifest sits under the digest of its content. -/
def State.ManifestsAddressed (crates : Crates) (s : State) : Prop :=
  ∀ d m, s.manifests.lookup d = some m → crates.sha256 m.content = d

/-- A body that an upstream sends in full with a success status. -/
def Answer.body : Answer → Option Bytes
  | .error _ => none
  | .ok resp => if resp.isSuccess then resp.body.toOption else none

/-- What a fetch gets from upstream hashes to the digest it asked for. -/
def ManifestReq.Genuine (crates : Crates) (inp : ManifestInput) : ManifestReq → Prop
  | .fetch _ digest => ∀ body ∈ Answer.body inp.answer, crates.sha256 body = digest
  | _ => True

/-- Every body that an upstream sends for a missing manifest hashes to the digest it
was asked for. -/
def BodiesGenuine (crates : Crates) (s : ManifestSys) (e : ManifestEvent) (_ : ManifestSys) :
    Prop :=
  match e with
  | .step i inp => ∀ r ∈ s.reqs[i]?, r.Genuine crates inp
  | _ => True

instance (crates : Crates) (inp : ManifestInput) (r : ManifestReq) :
    Decidable (r.Genuine crates inp) :=
  match r with
  | .fetch _ digest => inferInstanceAs
      (Decidable (∀ body ∈ Answer.body inp.answer, crates.sha256 body = digest))
  | .start _ | .resolve _ | .lookup _ _ | .putBody _ | .putInsert _ _ | .putTag _ _
  | .putDigest _ _ | .done _ => isTrue trivial

instance (crates : Crates) (s : ManifestSys) (e : ManifestEvent) (s' : ManifestSys) :
    Decidable (BodiesGenuine crates s e s') :=
  match e with
  | .step i inp => inferInstanceAs (Decidable (∀ r ∈ s.reqs[i]?, r.Genuine crates inp))
  | .tick _ | .request _ => isTrue trivial

namespace State

variable {crates : Crates} {s : State}

/-- One more entry keeps the invariant exactly when its content hashes to its key. -/
theorem ManifestsAddressed.insert_iff (h : s.ManifestsAddressed crates) (s' : State) (d : Digest)
    (m : Manifest) (hs : s'.manifests = s.manifests.insert d m) :
    s'.ManifestsAddressed crates ↔ crates.sha256 m.content = d := by
  constructor
  · intro h'
    exact h' d m (by rw [hs, AList.lookup_insert])
  · intro hd d' m' hl
    rw [hs, lookup_insert_apply] at hl
    split at hl
    · cases hl
      simp_all
    · exact h d' m' hl

theorem ManifestsAddressed.of_eq (h : s.ManifestsAddressed crates) {s' : State}
    (hs : s'.manifests = s.manifests) : s'.ManifestsAddressed crates := by
  intro d m hl
  exact h d m (hs ▸ hl)

theorem ManifestsAddressed.insertManifest (h : s.ManifestsAddressed crates) (d : Digest)
    (m : Manifest) :
    (s.insertManifest d m).ManifestsAddressed crates ↔ crates.sha256 m.content = d := by
  obtain ⟨u, he⟩ := insertManifest_eq s d m
  exact h.insert_iff _ d m (by rw [he])

/-- A hit rewrites the times of an entry and leaves its content. -/
theorem ManifestsAddressed.lookupManifest (h : s.ManifestsAddressed crates) (r : Request)
    (d : Digest) : (s.lookupManifest r d).1.ManifestsAddressed crates := by
  unfold State.lookupManifest
  split
  · rename_i m hm
    exact (h.insert_iff _ d { m with lastUsed := s.now, evicted := false } rfl).mpr (h d m hm)
  · split <;> exact h

theorem ManifestsAddressed.fetchManifest (h : s.ManifestsAddressed crates) (r : Request)
    (d : Digest) (answer : Answer) :
    (s.fetchManifest crates r d answer).1.ManifestsAddressed crates ↔
      ∀ body ∈ Answer.body answer, crates.sha256 body = d := by
  cases answer with
  | error e => exact iff_of_true h nofun
  | ok resp =>
    unfold State.fetchManifest Answer.body
    by_cases hok : resp.isSuccess
    · cases hb : resp.body with
      | error e => simpa [hok, hb, Except.toOption] using h
      | ok body => simpa [hok, hb, Except.toOption] using h.insertManifest d _
    · simpa [hok] using h

/-- Only a fetch can break the invariant, and it does so exactly when the body it got
does not hash to the digest it asked for. -/
theorem ManifestsAddressed.manifestStep (h : s.ManifestsAddressed crates) (inp : ManifestInput)
    (r : ManifestReq) :
    (s.manifestStep crates inp r).1.ManifestsAddressed crates ↔ r.Genuine crates inp := by
  cases r with
  | start r => exact iff_of_true h trivial
  | resolve r => exact iff_of_true h trivial
  | lookup r d => exact iff_of_true (h.lookupManifest r d) trivial
  | fetch r d => exact h.fetchManifest r d inp.answer
  | putBody r => exact iff_of_true h trivial
  | putInsert r body => exact iff_of_true ((h.insertManifest _ _).mpr rfl) trivial
  | putTag r d => exact iff_of_true (h.of_eq rfl) trivial
  | putDigest r d => exact iff_of_true (h.of_eq rfl) trivial
  | done reply => exact iff_of_true h trivial

end State

theorem ManifestSys.step_addressed {crates : Crates} {s s' : ManifestSys} {e : ManifestEvent}
    (h : s.st.ManifestsAddressed crates) (hs : s.step crates e = some s') :
    s'.st.ManifestsAddressed crates ↔ BodiesGenuine crates s e s' := by
  cases e with
  | tick now =>
    cases hs
    exact iff_of_true (h.of_eq rfl) trivial
  | request r =>
    cases hs
    exact iff_of_true h trivial
  | step i inp =>
    simp only [ManifestSys.step] at hs
    split at hs
    · cases hs
    · rename_i r hi
      cases hs
      simp only [BodiesGenuine, hi, Option.mem_def, Option.some.injEq, forall_eq']
      exact h.manifestStep inp r

/-- Over every interleaving of manifest requests and every behaviour of the upstreams,
all manifests hash to their digests in every state reached if and only if every body
that came in from upstream on a miss hashes to the digest it was asked for. -/
theorem manifests_addressed_iff (crates : Crates) (s : State) (es : List ManifestEvent)
    (hs : s.ManifestsAddressed crates) :
    Along (ManifestSys.step crates) (fun _ _ t => t.st.ManifestsAddressed crates) ⟨s, []⟩ es ↔
      Along (ManifestSys.step crates) (BodiesGenuine crates) ⟨s, []⟩ es := by
  have hstep : ∀ t e t', t.st.ManifestsAddressed crates → ManifestSys.step crates t e = some t' →
      (t'.st.ManifestsAddressed crates ↔ BodiesGenuine crates t e t') :=
    fun _ _ _ h ht => ManifestSys.step_addressed h ht
  exact along_state_iff hstep hs

/-! Two clients of different hosts that ask for one digest. -/

def manifestRequest (method : Method) (host reference : String) : Request where
  method := method
  upstreamHost := host
  name := "app"
  tail := reference

def sends (content : Bytes) : ManifestInput where
  answer := .ok { status := 200, body := .ok content }

def emptyDigestText : String :=
  "sha256:e3b0c44298fc1c149afbf4c8996fb92427ae41e4649b934ca495991b7852b855"

/-- A push to `self` beside a pull whose upstream sends what it was asked for. -/
def pushBesidePull : List ManifestEvent :=
  [.request (manifestRequest .get "registry-1.docker.io" emptyDigestText),
    .request (manifestRequest .put "self" "latest"), .step 0 {}, .step 1 {}, .step 0 {},
    .step 1 { body := .ok (utf8 "a") }, .step 1 {}, .step 0 (sends []), .step 1 {}, .step 1 {}]

/-- One upstream sends `a` for another digest; a client of another host then asks for
that digest. -/
def poisonedPull : List ManifestEvent :=
  [.request (manifestRequest .get "mirror.example" emptyDigestText), .step 0 {}, .step 0 {},
    .step 0 (sends (utf8 "a")),
    .request (manifestRequest .get "registry-1.docker.io" emptyDigestText), .step 1 {}, .step 1 {}]

theorem manifests_addressed_iff_genuine :
    (∃ t, run (ManifestSys.step tableCrates) ⟨freshState, []⟩ pushBesidePull = some t ∧
      t.st.tags.lookup ("app", "latest") = some letterDigest ∧
      (t.st.manifests.lookup emptyDigest).isSome) ∧
    Along (ManifestSys.step tableCrates) (fun _ _ t => t.st.ManifestsAddressed tableCrates)
      ⟨freshState, []⟩ pushBesidePull := by
  have hrun : ((run (ManifestSys.step tableCrates) ⟨freshState, []⟩ pushBesidePull).map
      fun t => (t.st.tags.lookup ("app", "latest"), (t.st.manifests.lookup emptyDigest).isSome)) =
      some (some letterDigest, true) := by decide +kernel
  obtain ⟨t, ht, hl⟩ := Option.map_eq_some_iff.mp hrun
  obtain ⟨htag, hm⟩ := Prod.mk.inj hl
  exact ⟨⟨t, ht, htag, hm⟩,
    (manifests_addressed_iff tableCrates freshState pushBesidePull nofun).mpr (by decide +kernel)⟩

/-- The upstream of one host gets `a` served under another digest to the client of
another host. -/
theorem pull_stores_wrong_body :
    ∃ t, run (ManifestSys.step tableCrates) ⟨freshState, []⟩ poisonedPull = some t ∧
      freshState.ManifestsAddressed tableCrates ∧
      ¬ t.st.ManifestsAddressed tableCrates ∧
      ∃ m, t.st.manifests.lookup emptyDigest = some m ∧ m.content = utf8 "a" ∧
        t.replyTo 1 = some (.ok (serveManifest m false emptyDigest)) := by
  have hrun : ((run (ManifestSys.step tableCrates) ⟨freshState, []⟩ poisonedPull).map
      fun t => (t.st.manifests.lookup emptyDigest, t.replyTo 1)) =
      some (some ⟨utf8 "a", "application/octet-stream", 7, false⟩,
        some (.ok (serveManifest ⟨utf8 "a", "application/octet-stream", 7, false⟩ false
          emptyDigest))) := by decide +kernel
  obtain ⟨t, ht, hl⟩ := Option.map_eq_some_iff.mp hrun
  obtain ⟨hm, hreply⟩ := Prod.mk.inj hl
  refine ⟨t, ht, nofun, fun h => ?_, _, hm, rfl, hreply⟩
  have hsum : tableCrates.sha256 (utf8 "a") = emptyDigest := h emptyDigest _ hm
  exact absurd hsum (by decide +kernel)

end Dockfoxprox
