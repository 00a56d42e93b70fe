import Dockfoxprox.Proofs.Digest
import Dockfoxprox.Proofs.Manifests

/-! A manifest that was PUT is read back. A tag keeps the digest it was given while nobody PUTs to
it, and the manifest of that digest keeps its content while no other body has the digest. A PUT to
a digest reference stores its body under the digest of the body, whatever the reference says, so
that it is read back just when the two agree. -/

namespace Dockfoxprox

open MapSum Machine

/-- The media type that a PUT gives its manifest. -/
def Request.manifestType (r : Request) : String :=
  r.contentType.getD "application/vnd.docker.distribution.manifest.v2+json"

/-- The PUT whose body a step has read in full: its number, the request and the body. -/
def ManifestSys.reads (x : ManifestSys) : ManifestEvent → Option (ℕ × Request × Bytes)
  | .step k inp =>
    match x.reqs[k]?, inp.body with
    | some (.putBody r), .ok body => some (k, r, body)
    | _, _ => none
  | _ => none

/-- Request `i` is the PUT `r` of the body `b`. The other requests are PUTs to another name or
another reference, or reads of the `self` registry, and no other body that is PUT has the digest
of `b`. -/
def PutsBeside (crates : Crates) (i : ℕ) (r : Request) (b : Bytes) (x : ManifestSys)
    (e : ManifestEvent) (_ : ManifestSys) : Prop :=
  match e with
  | .tick _ => True
  | .request r' =>
    if x.reqs.length = i then r' = r
    else if r'.method = .put then (r'.name, r'.tail) ≠ (r.name, r.tail)
    else r'.upstreamHost = "self"
  | .step k inp => ∀ p ∈ x.reads (.step k inp),
    (p.1 = i → p.2.2 = b) ∧ (crates.sha256 p.2.2 = crates.sha256 b → p.2.2 = b)

/-- A PUT of the body `b` gives it a media type of `types`. -/
def TypedPut (types : String → Prop) (b : Bytes) (x : ManifestSys) (e : ManifestEvent)
    (_ : ManifestSys) : Prop :=
  ∀ p ∈ x.reads e, p.2.2 = b → types p.2.1.manifestType

deriving instance DecidableEq for Request

instance (crates : Crates) (i : ℕ) (r : Request) (b : Bytes) (x : ManifestSys) (e : ManifestEvent)
    (x' : ManifestSys) : Decidable (PutsBeside crates i r b x e x') :=
  match e with
  | .tick _ => isTrue trivial
  | .request r' => inferInstanceAs (Decidable (if x.reqs.length = i then r' = r
      else if r'.method = .put then (r'.name, r'.tail) ≠ (r.name, r.tail)
      else r'.upstreamHost = "self"))
  | .step k inp => inferInstanceAs (Decidable (∀ p ∈ x.reads (.step k inp),
      (p.1 = i → p.2.2 = b) ∧ (crates.sha256 p.2.2 = crates.sha256 b → p.2.2 = b)))

section

variable (crates : Crates) (types : String → Prop) (r : Request) (b : Bytes)

/-- The body is stored under its digest. -/
def KeepsBody (s : State) : Prop :=
  ∃ m, s.manifests.lookup (crates.sha256 b) = some m ∧ m.content = b ∧ types m.mediaType

/-- The reference, if it is a tag, stands for the digest of the body. -/
def KeepsTag (s : State) : Prop :=
  Digest.fromStr r.tail = none → s.tags.lookup (r.name, r.tail) = some (crates.sha256 b)

/-- How far the PUT has come. -/
def OwnStage (s : State) : ManifestReq → Prop
  | .start r' | .putBody r' => r' = r
  | .putInsert r' body => r' = r ∧ body = b
  | .putTag r' d => r' = r ∧ d = crates.sha256 b ∧ KeepsBody crates types b s
  | .putDigest _ d => d = crates.sha256 b ∧ KeepsBody crates types b s ∧ KeepsTag crates r b s
  | .done reply => ∀ resp, reply = .ok resp → KeepsBody crates types b s ∧ KeepsTag crates r b s
  | .resolve _ | .lookup _ _ | .fetch _ _ => False

/-- What the others may still do. -/
def OtherStage : ManifestReq → Prop
  | .start r' =>
    if r'.method = .put then (r'.name, r'.tail) ≠ (r.name, r.tail) else r'.upstreamHost = "self"
  | .putBody r' | .putTag r' _ => (r'.name, r'.tail) ≠ (r.name, r.tail)
  | .putInsert r' body => (r'.name, r'.tail) ≠ (r.name, r.tail) ∧
    (crates.sha256 body = crates.sha256 b → body = b ∧ types r'.manifestType)
  | .lookup r' _ => r'.upstreamHost = "self"
  | .putDigest _ _ | .done _ => True
  | .resolve _ | .fetch _ _ => False

/-- What a step leaves of the PUT. -/
structure Leaves (s s' : State) : Prop where
  stored : KeepsBody crates types b s → KeepsBody crates types b s'
  tagged : KeepsTag crates r b s → KeepsTag crates r b s'

end

variable {crates : Crates} {types : String → Prop} {r : Request} {b : Bytes} {s s' : State}

theorem Leaves.refl : Leaves crates types r b s s := ⟨id, id⟩

theorem Leaves.own (h : Leaves crates types r b s s') {q : ManifestReq}
    (hq : OwnStage crates types r b s q) : OwnStage crates types r b s' q := by
  cases q with
  | putTag r' d => exact ⟨hq.1, hq.2.1, h.stored hq.2.2⟩
  | putDigest r' d => exact ⟨hq.1, h.stored hq.2.1, h.tagged hq.2.2⟩
  | done reply =>
    intro resp hresp
    obtain ⟨hs, ht⟩ := hq resp hresp
    exact ⟨h.stored hs, h.tagged ht⟩
  | _ => exact hq

/-- A manifest stored under a digest: the body under its own, or one under another digest. -/
theorem Leaves.insert {d : Digest} {m : Manifest} (hm : s'.manifests = s.manifests.insert d m)
    (ht : s'.tags = s.tags)
    (h : d = crates.sha256 b → m.content = b ∧ types m.mediaType) :
    Leaves crates types r b s s' := by
  refine ⟨?_, fun htag hnone => by rw [ht]; exact htag hnone⟩
  rintro ⟨m', hl, hc, hty⟩
  by_cases hd : d = crates.sha256 b
  · obtain ⟨hc', hty'⟩ := h hd
    exact ⟨m, by rw [hm, hd, AList.lookup_insert], hc', hty'⟩
  · exact ⟨m', by rw [hm, AList.lookup_insert_ne (Ne.symm hd), hl], hc, hty⟩

/-- A digest given to a reference: to another one, or to one that is no tag. -/
theorem Leaves.tag {key : String × String} {d : Digest} (hm : s'.manifests = s.manifests)
    (ht : s'.tags = s.tags.insert key d)
    (h : Digest.fromStr r.tail = none → key ≠ (r.name, r.tail)) : Leaves crates types r b s s' := by
  refine ⟨?_, ?_⟩
  · rintro ⟨m, hl, hm'⟩
    exact ⟨m, by rw [hm, hl], hm'⟩
  · intro htag hnone
    rw [ht, AList.lookup_insert_ne (h hnone).symm]
    exact htag hnone

/-- A hit rewrites only the times of a manifest. -/
theorem Leaves.lookup (q : Request) (d : Digest) :
    Leaves crates types r b s (s.lookupManifest q d).1 := by
  unfold State.lookupManifest
  split
  · rename_i m hm
    refine ⟨?_, id⟩
    rintro ⟨m', hl, hm'⟩
    by_cases hd : crates.sha256 b = d
    · subst hd
      obtain rfl : m = m' := Option.some.inj (hm.symm.trans hl)
      exact ⟨{ m with lastUsed := s.now, evicted := false }, AList.lookup_insert _, hm'⟩
    · exact ⟨m', by rw [AList.lookup_insert_ne hd, hl], hm'⟩
  · split <;> exact .refl

/-- A PUT stores its body. -/
theorem putInsert_eq (q : Request) (body : Bytes) :
    ∃ m, m.content = body ∧ m.mediaType = q.manifestType ∧
      (s.putInsert crates q body).1.manifests = s.manifests.insert (crates.sha256 body) m ∧
      (s.putInsert crates q body).1.tags = s.tags ∧
      (s.putInsert crates q body).2 = if (Digest.fromStr q.tail).isNone
        then .putTag q (crates.sha256 body) else .putDigest q (crates.sha256 body) :=
  ⟨⟨body, q.manifestType, s.now, false⟩, rfl, rfl, rfl, rfl, rfl⟩

/-- Someone else's step. -/
theorem OtherStage.step {q : ManifestReq} (h : OtherStage crates types r b q)
    (inp : ManifestInput)
    (hread : ∀ r' body, q = .putBody r' → inp.body = .ok body →
      crates.sha256 body = crates.sha256 b → body = b ∧ types r'.manifestType) :
    Leaves crates types r b s (s.manifestStep crates inp q).1 ∧
      OtherStage crates types r b (s.manifestStep crates inp q).2 := by
  cases q with
  | start r' =>
    refine ⟨.refl, ?_⟩
    have hresolve (hm : r'.method ≠ .put) : OtherStage crates types r b (s.resolveReference r') := by
      have hself : r'.upstreamHost = "self" := by rwa [OtherStage, if_neg hm] at h
      unfold State.resolveReference
      split
      · exact hself
      · rw [if_pos hself]
        split
        · exact hself
        · trivial
    simp only [State.manifestStep, State.startManifest]
    split
    · rename_i hm
      exact hresolve (by simp [hm])
    · rename_i hm
      exact hresolve (by simp [hm])
    · rename_i hm
      split
      · trivial
      · rwa [OtherStage, if_pos hm] at h
    · trivial
  | resolve r' => exact h.elim
  | lookup r' d =>
    refine ⟨.lookup r' d, ?_⟩
    have hself : r'.upstreamHost = "self" := h
    simp only [State.manifestStep, State.lookupManifest, if_pos hself]
    split <;> trivial
  | fetch r' d => exact h.elim
  | putBody r' =>
    refine ⟨.refl, ?_⟩
    cases hb : inp.body with
    | error e => simp [State.manifestStep, State.putBody, readBody, Except.mapError, hb, OtherStage]
    | ok body =>
      simp only [State.manifestStep, State.putBody, readBody, Except.mapError, hb]
      exact ⟨h, hread r' body rfl hb⟩
  | putInsert r' body =>
    obtain ⟨m, hc, hty, hm, ht, hnext⟩ := @putInsert_eq crates s r' body
    obtain ⟨hkey, hsame⟩ := h
    refine ⟨.insert hm ht ?_, ?_⟩
    · intro hd
      rw [hc, hty]
      exact hsame hd
    · change OtherStage crates types r b (s.putInsert crates r' body).2
      rw [hnext]
      split
      · exact hkey
      · trivial
  | putTag r' d => exact ⟨.tag rfl rfl fun _ => h, trivial⟩
  | putDigest r' d =>
    refine ⟨.tag rfl rfl ?_, trivial⟩
    intro hnone hkey
    obtain ⟨-, htail⟩ := Prod.mk.inj hkey
    rw [← htail, Digest.fromStr_toText] at hnone
    cases hnone
  | done reply => exact ⟨.refl, trivial⟩

/-- A step of the PUT. -/
theorem OwnStage.step {q : ManifestReq} (hput : r.method = .put) (hty : types r.manifestType)
    (h : OwnStage crates types r b s q) (inp : ManifestInput)
    (hread : ∀ body, inp.body = .ok body → ∀ r', q = .putBody r' → body = b) :
    OwnStage crates types r b (s.manifestStep crates inp q).1 (s.manifestStep crates inp q).2 := by
  cases q with
  | start r' =>
    obtain rfl : r' = r := h
    simp only [State.manifestStep, State.startManifest, hput]
    split
    · nofun
    · rfl
  | resolve r' => exact h.elim
  | lookup r' d => exact h.elim
  | fetch r' d => exact h.elim
  | putBody r' =>
    obtain rfl : r' = r := h
    cases hb : inp.body with
    | error e =>
      simp only [State.manifestStep, State.putBody, readBody, Except.mapError, hb]
      nofun
    | ok body =>
      simp only [State.manifestStep, State.putBody, readBody, Except.mapError, hb]
      exact ⟨rfl, hread body hb r' rfl⟩
  | putInsert r' body =>
    obtain ⟨rfl, rfl⟩ := h
    obtain ⟨m, hc, hmty, hm, ht, hnext⟩ := @putInsert_eq crates s r' body
    have hstored : KeepsBody crates types body (s.putInsert crates r' body).1 :=
      ⟨m, by rw [hm, AList.lookup_insert], hc, hmty ▸ hty⟩
    change OwnStage crates types r' body (s.putInsert crates r' body).1
      (s.putInsert crates r' body).2
    rw [hnext]
    split
    · exact ⟨rfl, rfl, hstored⟩
    · rename_i hdigest
      refine ⟨rfl, hstored, fun hnone => ?_⟩
      simp [hnone] at hdigest
  | putTag r' d =>
    obtain ⟨rfl, rfl, m, hl, hm⟩ := h
    exact ⟨rfl, ⟨m, hl, hm⟩, fun _ => by simp [State.manifestStep]⟩
  | putDigest r' d =>
    obtain ⟨rfl, hstored, htagged⟩ := h
    have hleaves : Leaves crates types r b s
        (s.manifestStep crates inp (.putDigest r' (crates.sha256 b))).1 := by
      refine .tag rfl rfl ?_
      intro hnone hkey
      obtain ⟨-, htail⟩ := Prod.mk.inj hkey
      rw [← htail, Digest.fromStr_toText] at hnone
      cases hnone
    exact fun _ _ => ⟨hleaves.stored hstored, hleaves.tagged htagged⟩
  | done reply => exact h

/-- Every request is where the PUT and the others may be. -/
def ManifestSys.Beside (crates : Crates) (types : String → Prop) (i : ℕ) (r : Request) (b : Bytes)
    (x : ManifestSys) : Prop :=
  ∀ k q, x.reqs[k]? = some q →
    if k = i then OwnStage crates types r b x.st q else OtherStage crates types r b q

namespace ManifestSys

variable {i : ℕ} {x x' : ManifestSys} {e : ManifestEvent}

theorem Beside.step (hput : r.method = .put) (hty : types r.manifestType)
    (h : x.Beside crates types i r b) (hc : PutsBeside crates i r b x e x')
    (ht : TypedPut types b x e x') (hs : ManifestSys.step crates x e = some x') :
    x'.Beside crates types i r b := by
  cases e with
  | tick now =>
    cases hs
    have hleaves : Leaves crates types r b x.st { x.st with now := now } := ⟨id, id⟩
    intro k q hk
    have hq := h k q hk
    split
    · rw [if_pos ‹_›] at hq
      exact hleaves.own hq
    · rwa [if_neg ‹_›] at hq
  | request r' =>
    cases hs
    intro k q hk
    rcases getElem?_of_concat hk with hk | ⟨rfl, rfl⟩
    · exact h k q hk
    · exact hc
  | step j inp =>
    simp only [ManifestSys.step] at hs
    split at hs
    · cases hs
    rename_i p hj
    cases hs
    have hread : ∀ r' body, p = .putBody r' → inp.body = .ok body →
        x.reads (.step j inp) = some (j, r', body) := by
      rintro r' body rfl hb
      simp [reads, hj, hb]
    have hp := h j p hj
    obtain rfl | hji := eq_or_ne j i
    · rw [if_pos rfl] at hp
      have hown := hp.step hput hty inp fun body hb r' hr' =>
        (hc _ (hread r' body hr' hb)).1 rfl
      intro k q hk
      obtain ⟨rfl, rfl⟩ | ⟨hne, hk⟩ := getElem?_of_set hk
      · rwa [if_pos rfl]
      · have hq := h k q hk
        rw [if_neg hne] at hq ⊢
        exact hq
    · rw [if_neg hji] at hp
      obtain ⟨hleaves, hother⟩ := @OtherStage.step crates types r b x.st p hp inp
        fun r' body hr' hb hsum =>
          have hb' : body = b := (hc _ (hread r' body hr' hb)).2 hsum
          ⟨hb', ht _ (hread r' body hr' hb) hb'⟩
      intro k q hk
      obtain ⟨rfl, rfl⟩ | ⟨hne, hk⟩ := getElem?_of_set hk
      · rwa [if_neg hji]
      · have hq := h k q hk
        split
        · rw [if_pos ‹_›] at hq
          exact hleaves.own hq
        · rwa [if_neg ‹_›] at hq

/-- A read of the `self` registry that nothing runs beside. -/
def Answers (crates : Crates) (x : ManifestSys) (g : Request) (reply : Reply) : Prop :=
  ∃ t, run (ManifestSys.step crates) x
      [.request g, .step x.reqs.length {}, .step x.reqs.length {}] = some t ∧
    t.replyTo x.reqs.length = some reply

/-- A read is answered by its lookup. -/
theorem answers_iff {g : Request} {reply : Reply} {d : Digest}
    (hg : g.method = .get ∨ g.method = .head) (hd : x.st.resolveReference g = .lookup g d) :
    x.Answers crates g reply ↔ (x.st.lookupManifest g d).2 = .done reply := by
  have hstart : x.st.startManifest g = .lookup g d := by
    unfold State.startManifest
    obtain hg | hg := hg <;> rw [hg] <;> exact hd
  have hlast (q : ManifestReq) : (x.reqs ++ [q])[x.reqs.length]? = some q := by simp
  have hset (p q : ManifestReq) : (x.reqs ++ [p]).set x.reqs.length q = x.reqs ++ [q] := by simp
  have hrun : run (ManifestSys.step crates) x
      [.request g, .step x.reqs.length {}, .step x.reqs.length {}] =
        some ⟨(x.st.lookupManifest g d).1, x.reqs ++ [(x.st.lookupManifest g d).2]⟩ := by
    simp only [run, ManifestSys.step, Option.bind_some, hlast, hset, State.manifestStep, hstart]
  rw [Answers, hrun]
  simp only [Option.some.injEq, exists_eq_left', replyTo, hlast]
  split
  · simp_all
  · simp_all

/-- Once the PUT has been answered, the manifest is stored and the tag stands for it. -/
theorem stored_of_replied {reply : Response} {es : List ManifestEvent} {y : ManifestSys}
    (hput : r.method = .put) (hty : types r.manifestType)
    (hrun : run (ManifestSys.step crates) ⟨s, []⟩ es = some y)
    (hc : Along (ManifestSys.step crates) (PutsBeside crates i r b) ⟨s, []⟩ es)
    (ht : Along (ManifestSys.step crates) (TypedPut types b) ⟨s, []⟩ es)
    (hdone : y.replyTo i = some (.ok reply)) :
    KeepsBody crates types b y.st ∧ KeepsTag crates r b y.st := by
  have hinit : ManifestSys.Beside crates types i r b ⟨s, []⟩ := by
    intro k q hk
    simp at hk
  have hstep : ∀ (x : ManifestSys) (e : ManifestEvent) (x' : ManifestSys),
      x.Beside crates types i r b → (PutsBeside crates i r b x e x' ∧ TypedPut types b x e x') →
      ManifestSys.step crates x e = some x' → x'.Beside crates types i r b :=
    fun _ _ _ h hce hs => h.step hput hty hce.1 hce.2 hs
  have hbeside := run_invariant hstep hinit (along_and hc ht) hrun
  rw [replyTo] at hdone
  split at hdone
  · rename_i reply' hi
    obtain rfl := Option.some.inj hdone
    have hown := hbeside i _ hi
    rw [if_pos rfl] at hown
    exact hown reply rfl
  · cases hdone

end ManifestSys

theorem serveManifest_digest {m m' : Manifest} {head : Bool} {d d' : Digest}
    (h : serveManifest m head d = serveManifest m' head d') : d = d' := by
  have hheaders := congrArg Response.headers h
  simp only [serveManifest, List.cons.injEq, Prod.mk.injEq, true_and] at hheaders
  exact Digest.toText_inj hheaders.2.1

/-- After a PUT that was answered, in any interleaving with PUTs to other names and references, a
read of its name and reference gets its body, with its media type unless the body was PUT with
another one, just when the reference is no digest or the digest of the body. -/
theorem put_manifest_reads_back_iff (crates : Crates) (s : State) (es : List ManifestEvent) (i : ℕ)
    (r : Request) (b : Bytes) (y : ManifestSys) (resp : Response) (hput : r.method = .put)
    (hrun : run (ManifestSys.step crates) ⟨s, []⟩ es = some y)
    (hc : Along (ManifestSys.step crates) (PutsBeside crates i r b) ⟨s, []⟩ es)
    (hdone : y.replyTo i = some (.ok resp)) (g : Request) (hg : g.method = .get ∨ g.method = .head)
    (hself : g.upstreamHost = "self") (hname : g.name = r.name) (htail : g.tail = r.tail) :
    (∃ m : Manifest, m.content = b ∧
      (Along (ManifestSys.step crates) (TypedPut (· = r.manifestType) b) ⟨s, []⟩ es →
        m.mediaType = r.manifestType) ∧
      y.Answers crates g (.ok (serveManifest m (g.method = .head) (crates.sha256 b)))) ↔
    ∀ d, Digest.fromStr r.tail = some d → d = crates.sha256 b := by
  constructor
  · rintro ⟨m, -, -, hanswers⟩ d hd
    have hresolve : y.st.resolveReference g = .lookup g d := by
      rw [State.resolveReference, htail, hd]
    rw [ManifestSys.answers_iff hg hresolve, State.lookupManifest] at hanswers
    split at hanswers
    · simp only [ManifestReq.done.injEq, Except.ok.injEq] at hanswers
      exact serveManifest_digest hanswers
    · rw [if_pos hself] at hanswers
      cases hanswers
  · intro hagree
    -- the media types that the body may have: that of the PUT alone, if nobody gives it another
    let same := Along (ManifestSys.step crates) (TypedPut (· = r.manifestType) b) ⟨s, []⟩ es
    have ht : Along (ManifestSys.step crates) (TypedPut (fun t => same → t = r.manifestType) b)
        ⟨s, []⟩ es := by
      by_cases hsame : same
      · exact along_mono (fun x e x' _ h p hp hb _ => h p hp hb) hsame
      · exact along_of_invariant (I := fun _ => True) (C := PutsBeside crates i r b)
          (fun _ _ _ _ _ _ => ⟨trivial, fun _ _ _ h => absurd h hsame⟩) trivial hc
    obtain ⟨⟨m, hl, hcontent, htype⟩, htagged⟩ :=
      ManifestSys.stored_of_replied hput (fun _ => rfl) hrun hc ht hdone
    have hresolve : y.st.resolveReference g = .lookup g (crates.sha256 b) := by
      rw [State.resolveReference, htail, hname]
      cases hd : Digest.fromStr r.tail with
      | some d => rw [hagree d hd]
      | none => simp only [if_pos hself, htagged hd]
    refine ⟨m, hcontent, htype, ?_⟩
    rw [ManifestSys.answers_iff hg hresolve, State.lookupManifest, hl]
    rfl

/-- Two PUTs to one repository, step by step beside each other. -/
def putsInParallel : List ManifestEvent :=
  [.request (manifestRequest .put "self" "latest"), .request (manifestRequest .put "self" "v2"),
    .step 0 {}, .step 1 {}, .step 0 { body := .ok (utf8 "a") }, .step 1 {}, .step 0 {}, .step 1 {},
    .step 1 {}, .step 0 {}, .step 0 {}, .step 1 {}]

/-- A PUT of `a` to the digest of the empty body. -/
def putToDigest : List ManifestEvent :=
  [.request (manifestRequest .put "self" emptyDigestText), .step 0 {},
    .step 0 { body := .ok (utf8 "a") }, .step 0 {}, .step 0 {}]

theorem put_manifest_reads_back_iff_tag :
    ∃ y, run (ManifestSys.step tableCrates) ⟨freshState, []⟩ putsInParallel = some y ∧
      ∃ m : Manifest, m.content = utf8 "a" ∧
        y.Answers tableCrates (manifestRequest .get "self" "latest")
          (.ok (serveManifest m false letterDigest)) := by
  have hrun : ((run (ManifestSys.step tableCrates) ⟨freshState, []⟩ putsInParallel).map
      fun y => y.replyTo 0) = some (some (.ok (manifestCreated "app" letterDigest))) := by
    decide +kernel
  obtain ⟨y, hy, hdone⟩ := Option.map_eq_some_iff.mp hrun
  have htag : Digest.fromStr "latest" = none := by decide +kernel
  have h := (put_manifest_reads_back_iff tableCrates freshState putsInParallel 0
    (manifestRequest .put "self" "latest") (utf8 "a") y (manifestCreated "app" letterDigest) rfl hy
    (by decide +kernel) hdone (manifestRequest .get "self" "latest") (.inl rfl) rfl rfl rfl).mpr
    (fun d hd => by rw [manifestRequest, htag] at hd; cases hd)
  obtain ⟨m, hcontent, -, hanswers⟩ := h
  have hsum : tableCrates.sha256 (utf8 "a") = letterDigest := by decide +kernel
  exact ⟨y, hy, m, hcontent, by rwa [hsum] at hanswers⟩

/-- The PUT is answered with 201, and a read of its reference finds nothing. -/
theorem put_to_digest_not_found :
    ∃ y, run (ManifestSys.step tableCrates) ⟨freshState, []⟩ putToDigest = some y ∧
      Along (ManifestSys.step tableCrates) (PutsBeside tableCrates 0
        (manifestRequest .put "self" emptyDigestText) (utf8 "a")) ⟨freshState, []⟩ putToDigest ∧
      y.replyTo 0 = some (.ok (manifestCreated "app" letterDigest)) ∧
      y.Answers tableCrates (manifestRequest .get "self" emptyDigestText) (.error .notFound) ∧
      ¬ ∃ m : Manifest, m.content = utf8 "a" ∧
        y.Answers tableCrates (manifestRequest .get "self" emptyDigestText)
          (.ok (serveManifest m false letterDigest)) := by
  have hrun : ((run (ManifestSys.step tableCrates) ⟨freshState, []⟩ putToDigest).map
      fun y => (y.replyTo 0, y.st.manifests.lookup emptyDigest)) =
      some (some (.ok (manifestCreated "app" letterDigest)), none) := by decide +kernel
  obtain ⟨y, hy, hl⟩ := Option.map_eq_some_iff.mp hrun
  obtain ⟨hdone, hmiss⟩ := Prod.mk.inj hl
  have hdigest : Digest.fromStr emptyDigestText = some emptyDigest := by decide +kernel
  have hresolve : y.st.resolveReference (manifestRequest .get "self" emptyDigestText) =
      .lookup (manifestRequest .get "self" emptyDigestText) emptyDigest := by
    simp only [State.resolveReference, manifestRequest, hdigest]
  have hreply : (y.st.lookupManifest (manifestRequest .get "self" emptyDigestText) emptyDigest).2 =
      .done (.error .notFound) := by
    simp only [State.lookupManifest, hmiss, manifestRequest, if_true]
  refine ⟨y, hy, by decide +kernel, hdone, ?_, ?_⟩
  · rw [ManifestSys.answers_iff (.inl rfl) hresolve, hreply]
  · rintro ⟨m, -, hanswers⟩
    rw [ManifestSys.answers_iff (.inl rfl) hresolve, hreply] at hanswers
    cases hanswers

end Dockfoxprox
