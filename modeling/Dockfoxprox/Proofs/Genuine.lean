import Dockfoxprox.Proofs.Integrity
import Dockfoxprox.Proofs.Manifests

/-! What clients are served as a manifest hashes to the digest they asked for, as long as what comes
from upstream for a missing manifest does: the proxy hashes what a client puts, and not what it
fetches. -/

namespace Dockfoxprox

open Machine

variable {crates : Crates}

theorem getHeadBlob_manifests (streams : Streams) (s : State) (host digest : String) (head : Bool) :
    (getHeadBlob streams s host digest head).1.manifests = s.manifests := by
  unfold getHeadBlob
  cases Digest.fromStr digest with
  | none => rfl
  | some d =>
    dsimp only
    cases s.blobs.lookup d with
    | some b => rfl
    | none =>
      dsimp only
      split <;> rfl

theorem storeBlob_manifests (s : State) (d : Digest) (content : Bytes) (mt : String) :
    (s.storeBlob d content mt).manifests = s.manifests := by
  obtain ⟨usage, he⟩ := storeBlob_eq s d content mt
  rw [he]

theorem Uploads.step_manifests (u : Uploads) (crates : Crates) (inp : Input) (q : UploadReq) :
    (u.step crates inp q).1.st.manifests = u.st.manifests := by
  cases q with
  | start r => exact congrArg State.manifests (u.start_st crates inp.uuid r)
  | store name got content => exact storeBlob_manifests u.st got content _
  | putLock name uuid expected upload chunk =>
    simp only [step, putSection]
    split <;> rfl
  | _ => rfl

theorem FillSys.step_manifests {x x' : FillSys} {e : FillEvent} {allocatable : ℕ}
    (hs : x.step crates allocatable e = some x') : x'.st.manifests = x.st.manifests := by
  cases e with
  | tick now =>
    cases hs
    rfl
  | poll =>
    simp only [step] at hs
    split at hs <;> cases hs
    rfl
  | disconnect =>
    simp only [step] at hs
    split at hs <;> cases hs
    rfl
  | task =>
    simp only [step] at hs
    split at hs
    · cases hs
      rfl
    · cases hs
      unfold read
      repeat' split
      all_goals rfl
    · simp only [send] at hs
      split at hs
      · split at hs <;> cases hs
        rfl
      · cases hs
        rfl
    · cases hs
      exact storeBlob_manifests x.st x.task.digest x.task.buf x.task.mediaType
    · cases hs
    · cases hs
    · cases hs

/-- The 200 of a manifest carries its content. -/
theorem serveManifest_carries {m : Manifest} {method : Method} {d : Digest}
    (h : crates.sha256 m.content = d) :
    Carries crates method d (serveManifest m (method = .head) d).headers
      (serveManifest m (method = .head) d).body where
  names := by simp [serveManifest]
  get hm := by simpa [serveManifest, hm] using h
  head hm := by simp [serveManifest, hm]

/-- A manifest request that only reads, made from what the path of a client was cut into. -/
def ManifestReq.From (px : Proxy) (c : ClientRequest) (m : ManifestReq) : Prop :=
  m.Reads ∧ ∃ r cut, m.request = some r ∧ px.Cuts c cut r ∧ cut.resource = .manifests

def Reply.Fails (reply : Reply) : Prop := reply.response.status ≠ 200

theorem fails_error (e : DockerError) : Reply.Fails (.error e) := by
  cases e <;> simp [Reply.Fails, Reply.response, DockerError.response, errorResponse]

theorem fails_upstreamReturned {resp : UpstreamResponse} (hno : resp.isSuccess = false) :
    Reply.Fails (.ok (upstreamReturned crates resp)) := by
  intro hok
  have hstatus : resp.status = 200 := hok
  simp [UpstreamResponse.isSuccess, hstatus] at hno

namespace State

variable {s : State} {r : Request} {d : Digest} {reply : Reply}

theorem startManifest_fails (h : s.startManifest r = .done reply) : reply.Fails := by
  have hrefuse {e : DockerError} (he : ManifestReq.done (.error e) = .done reply) :
      reply.Fails := ManifestReq.done.inj he ▸ fails_error e
  have hresolve (h : s.resolveReference r = .done reply) : reply.Fails := by
    unfold resolveReference at h
    split at h
    · cases h
    · split at h
      · split at h
        · cases h
        · exact hrefuse h
      · cases h
  unfold startManifest at h
  cases hm : r.method with
  | get => exact hresolve (by simpa only [hm] using h)
  | head => exact hresolve (by simpa only [hm] using h)
  | put =>
    rw [hm] at h
    dsimp only at h
    split at h
    · exact hrefuse h
    · cases h
  | _ =>
    rw [hm] at h
    exact hrefuse h

theorem resolveTag_fails {answer : Answer} (h : resolveTag crates r answer = .done reply) :
    reply.Fails := by
  unfold resolveTag at h
  cases answer with
  | error e =>
    obtain rfl := ManifestReq.done.inj h
    exact fails_error e
  | ok resp =>
    dsimp only at h
    split at h
    · rename_i hno
      obtain rfl := ManifestReq.done.inj h
      exact fails_upstreamReturned (by simpa using hno)
    · split at h
      · obtain rfl := ManifestReq.done.inj h
        exact fails_error _
      · cases h

/-- A hit is answered with what the cache has under the digest. -/
theorem lookupManifest_carries (haddr : s.ManifestsAddressed crates)
    (h : (s.lookupManifest r d).2 = .done reply) (hok : ¬ reply.Fails) :
    Carries crates r.method d reply.response.headers reply.response.body := by
  unfold lookupManifest at h
  cases hm : s.manifests.lookup d with
  | some m =>
    rw [hm] at h
    obtain rfl := ManifestReq.done.inj h
    exact serveManifest_carries (haddr d m hm)
  | none =>
    rw [hm] at h
    dsimp only at h
    split at h
    · obtain rfl := ManifestReq.done.inj h
      exact absurd (fails_error _) hok
    · cases h

/-- After a fetch, with what upstream sent. -/
theorem fetchManifest_carries {answer : Answer}
    (hg : ∀ body ∈ Answer.body answer, crates.sha256 body = d)
    (h : (s.fetchManifest crates r d answer).2 = .done reply) (hok : ¬ reply.Fails) :
    Carries crates r.method d reply.response.headers reply.response.body := by
  unfold fetchManifest at h
  cases answer with
  | error e =>
    obtain rfl := ManifestReq.done.inj h
    exact absurd (fails_error e) hok
  | ok resp =>
    dsimp only at h
    cases hsuccess : resp.isSuccess with
    | false =>
      simp only [hsuccess, Bool.not_false, if_true] at h
      obtain rfl := ManifestReq.done.inj h
      exact absurd (fails_upstreamReturned hsuccess) hok
    | true =>
      simp only [hsuccess, Bool.not_true, Bool.false_eq_true, if_false] at h
      cases hbody : resp.body with
      | error e =>
        rw [hbody] at h
        obtain rfl := ManifestReq.done.inj h
        exact absurd (fails_error _) hok
      | ok body =>
        rw [hbody] at h
        obtain rfl := ManifestReq.done.inj h
        exact serveManifest_carries (hg body (by simp [Answer.body, hsuccess, hbody,
          Except.toOption]))

/-- A manifest request is answered 200 only with the manifest of a digest it may mean. -/
theorem manifestStep_carries {inp : ManifestInput} {m : ManifestReq}
    (haddr : s.ManifestsAddressed crates) (hreads : m.Reads) (hr : m.request = some r)
    (hg : m.Genuine crates inp) (h : (s.manifestStep crates inp m).2 = .done reply)
    (hok : ¬ reply.Fails) :
    ∃ d, r.MayMean d ∧
      Carries crates r.method d reply.response.headers reply.response.body := by
  cases m with
  | start r' => exact absurd (startManifest_fails h) hok
  | resolve r' => exact absurd (resolveTag_fails h) hok
  | lookup r' d =>
    obtain rfl := Option.some.inj hr
    exact ⟨d, hreads.2, lookupManifest_carries haddr h hok⟩
  | fetch r' d =>
    obtain rfl := Option.some.inj hr
    exact ⟨d, hreads.2.2, fetchManifest_carries hg h hok⟩
  | putBody r' =>
    simp only [manifestStep, putBody] at h
    split at h
    · obtain rfl := ManifestReq.done.inj h
      exact absurd (fails_error _) hok
    · cases h
  | putInsert r' body =>
    simp only [manifestStep, putInsert] at h
    split at h <;> cases h
  | putTag r' d => cases h
  | putDigest r' d =>
    obtain rfl := ManifestReq.done.inj h
    exact absurd (by simp [Reply.Fails, Reply.response, manifestCreated]) hok
  | done reply' => cases hr

end State

/-- A path that is cut names a registry under `/v2/`, so that it is no probe of the API. -/
theorem cutPath_routed {path : String} {cut : Cut} (h : cutPath path = .ok cut) :
    "/v2/".toList.isPrefixOf path.toList ∧ ¬ (path = "/v2" ∨ path = "/v2/") := by
  constructor
  · unfold cutPath at h
    cases hpre : path.toList.dropPrefix? "/v2/".toList with
    | none =>
      rw [hpre] at h
      cases h
    | some suffix =>
      obtain ⟨pre, hpath, heq⟩ := List.dropPrefix?_eq_some_iff.mp hpre
      rw [hpath, ← eq_of_beq heq]
      exact List.isPrefixOf_iff_prefix.mpr (List.prefix_append _ _)
  · rintro (rfl | rfl)
    · cases h
    · cases h

theorem version_path {base64Decode : String → Option Bytes} {config : RouterConfig}
    {req : HttpRequest} (h : handleRequestInner base64Decode config req = .ok .version) :
    req.path = "/v2" ∨ req.path = "/v2/" := by
  unfold handleRequestInner at h
  cases hauth : checkAuth base64Decode config req with
  | error e =>
    rw [hauth] at h
    cases h
  | ok u =>
    simp only [hauth, bind, Except.bind] at h
    split at h
    · assumption
    · cases hcut : cutPath req.path with
      | error e =>
        rw [hcut] at h
        cases h
      | ok cut =>
        rw [hcut] at h
        dsimp only at h
        split at h <;> cases h

/-- What a manifest request is answered fits what its client asked for. -/
def Served.ManifestGenuine (px : Proxy) (q : Served) : Prop :=
  match q.stage with
  | .upload _ | .blobPull .. =>
    ∀ cut, cutPath q.req.http.path = .ok cut → cut.resource ≠ .manifests
  | .manifest m | .manifestPull m _ => m.From px q.req
  | .done (.response resp) => resp.status = 200 →
    ∀ cut, cutPath q.req.http.path = .ok cut → cut.resource = .manifests →
      ∃ d, (Digest.fromStr cut.tail = none ∨ Digest.fromStr cut.tail = some d) ∧
        Carries px.crates q.req.http.method d resp.headers resp.body
  | _ => True

/-- The body of a response that a manifest request gets from its pull is genuine. -/
def ManifestReq.GenuineAfter (crates : Crates) (inp : ServerInput) (m : ManifestReq) :
    Option PullOutcome → Prop
  | some (.ok resp) => m.Genuine crates { answer := .ok (inp.head.toResponse resp) }
  | _ => True

instance (crates : Crates) (inp : ServerInput) (m : ManifestReq) (o : Option PullOutcome) :
    Decidable (m.GenuineAfter crates inp o) :=
  match o with
  | some (.ok resp) => inferInstanceAs
      (Decidable (m.Genuine crates { answer := .ok (inp.head.toResponse resp) }))
  | none | some (.error _) | some .panicked => isTrue trivial

theorem ManifestReq.genuine_of_error (crates : Crates) (e : DockerError)
    (body : Except String Bytes) (m : ManifestReq) :
    m.Genuine crates { answer := .error e, body } := by
  cases m <;> simp [ManifestReq.Genuine, Answer.body]

namespace Server

variable {px : Proxy} {s s' : Server} {inp : ServerInput} {q : Served} {r : Server × ServeStage}

/-- What the pull of a missing manifest came back with hashes to the digest it was asked for. -/
def AnswerGenuine (px : Proxy) (s : Server) (inp : ServerInput) : ServeStage → Prop
  | .manifestPull m pull => m.GenuineAfter px.crates inp (s.outcome pull)
  | _ => True

instance (px : Proxy) (s : Server) (inp : ServerInput) (stage : ServeStage) :
    Decidable (s.AnswerGenuine px inp stage) :=
  match stage with
  | .manifestPull m pull =>
    inferInstanceAs (Decidable (m.GenuineAfter px.crates inp (s.outcome pull)))
  | .start | .upload _ | .manifest _ | .blobPull _ _ _ | .done _ => isTrue trivial

/-- Every body that an upstream sends for a missing manifest hashes to the digest it was asked
for. -/
def BodiesGenuine (px : Proxy) (s : Server) (e : ServerEvent) (_ : Server) : Prop :=
  match e with
  | .step i inp => ∀ q ∈ s.reqs[i]?, s.AnswerGenuine px inp q.stage
  | _ => True

instance (px : Proxy) (s : Server) (e : ServerEvent) (s' : Server) :
    Decidable (BodiesGenuine px s e s') :=
  match e with
  | .step i inp => inferInstanceAs (Decidable (∀ q ∈ s.reqs[i]?, s.AnswerGenuine px inp q.stage))
  | .tick _ | .request _ | .pull _ _ | .fill _ _ => isTrue trivial

theorem manifestStep_genuine {minp : ManifestInput} {m : ManifestReq}
    (haddr : s.st.ManifestsAddressed px.crates) (hm : m.From px q.req)
    (hg : m.Genuine px.crates minp) :
    (s.manifestStep px minp m).1.st.ManifestsAddressed px.crates ∧
      Served.ManifestGenuine px { q with stage := (s.manifestStep px minp m).2 } := by
  obtain ⟨hreads, request, cut, hr, hcuts, hres⟩ := hm
  refine ⟨(haddr.manifestStep minp m).mpr hg, ?_⟩
  have hfollows : m.Follows (s.st.manifestStep px.crates minp m).2 :=
    State.manifestStep_follows minp hreads
  have hcarries (reply : Reply) (h : (s.st.manifestStep px.crates minp m).2 = .done reply)
      (hok : ¬ reply.Fails) := State.manifestStep_carries haddr hreads hr hg h hok
  unfold Server.manifestStep
  dsimp only
  generalize (s.st.manifestStep px.crates minp m).2 = m' at hfollows hcarries
  have hfrom (r' : Request) (hr' : m'.request = some r') : m'.From px q.req := by
    obtain rfl := Option.some.inj (hr.symm.trans (hfollows.2 r' hr'))
    exact ⟨hfollows.1, request, cut, hr', hcuts, hres⟩
  cases m' with
  | done reply =>
    intro hok cut' hcut' _
    obtain rfl := Except.ok.inj (hcuts.path.symm.trans hcut')
    obtain ⟨d, hmean, hd⟩ := hcarries reply rfl (not_not.mpr hok)
    rw [hcuts.request] at hmean hd
    exact ⟨d, hmean, hd⟩
  | _ => exact hfrom _ rfl

/-- A request for a manifest is not answered 200 before its handler has run. -/
theorem handle_fails {resp : Response} {cut : Cut}
    (hcut : cutPath q.req.http.path = .ok cut) (hres : cut.resource = .manifests)
    (h : (s.handle px inp q.req).2 = .done (.response resp)) : resp.status ≠ 200 := by
  obtain ⟨hunder, hprobe⟩ := cutPath_routed hcut
  simp only [handle, hunder, if_true, handleRequest] at h
  cases hroute : handleRequestInner px.base64Decode px.config q.req.http with
  | error e =>
    rw [hroute] at h
    obtain rfl := ServerReply.response.inj (ServeStage.done.inj h)
    cases e <;> simp [RouteError.response, DockerError.response, errorResponse]
  | ok routed =>
    rw [hroute] at h
    cases routed with
    | version => exact absurd (version_path hroute) hprobe
    | handler handler request =>
      obtain ⟨cut', hcuts, hhandler⟩ := routes_spec hroute
      obtain rfl := Except.ok.inj (hcuts.path.symm.trans hcut)
      cases handler with
      | getHeadBlob head =>
        have hblobs := (Resource.blobs_of_handler hhandler).1
        rw [hres] at hblobs
        cases hblobs
      | _ => cases h

theorem handle_genuine (haddr : s.st.ManifestsAddressed px.crates) (inp : ServerInput)
    (q : Served) :
    (s.handle px inp q.req).1.st.ManifestsAddressed px.crates ∧
      Served.ManifestGenuine px { q with stage := (s.handle px inp q.req).2 } := by
  have hfails (resp : Response) (h : (s.handle px inp q.req).2 = .done (.response resp)) :
      Served.ManifestGenuine px { q with stage := .done (.response resp) } :=
    fun hok cut hcut hres => absurd hok (handle_fails hcut hres h)
  obtain ⟨metrics, resp, he⟩ | ⟨handler, request, hroute, he⟩ := handle_cases px s inp q.req
  · have hgenuine := hfails resp (by rw [he])
    rw [he]
    exact ⟨haddr, hgenuine⟩
  obtain ⟨cut, hcuts, hhandler⟩ := routes_spec hroute
  have hstart (hres : cut.resource = .manifests) : (ManifestReq.start request).From px q.req :=
    ⟨trivial, request, cut, rfl, hcuts, hres⟩
  have helse (hres : cut.resource ≠ .manifests) (cut' : Cut)
      (hcut' : cutPath q.req.http.path = .ok cut') : cut'.resource ≠ .manifests := by
    obtain rfl := Except.ok.inj (hcuts.path.symm.trans hcut')
    exact hres
  cases handler with
  | getHeadManifest head =>
    rw [he]
    exact ⟨haddr, hstart (Resource.manifests_of_handler (.inl ⟨head, hhandler⟩))⟩
  | putManifest =>
    rw [he]
    exact ⟨haddr, hstart (Resource.manifests_of_handler (.inr hhandler))⟩
  | getHeadBlob head =>
    have hres : cut.resource ≠ .manifests := by
      rw [(Resource.blobs_of_handler hhandler).1]
      simp
    obtain ⟨reply, hb⟩ | ⟨d, -, -, -, hb⟩ := serveBlob_cases px
      { s with metrics := s.metrics.countHandler (.getHeadBlob head) } request head
    · rw [dispatch, hb] at he
      refine ⟨?_, ?_⟩
      · rw [he]
        exact haddr.of_eq (getHeadBlob_manifests _ _ _ _ _)
      · cases reply with
        | response resp =>
          have hgenuine := hfails resp (by rw [he])
          rw [he]
          exact hgenuine
        | _ =>
          rw [he]
          trivial
    · rw [dispatch, hb] at he
      rw [he]
      exact ⟨haddr, helse hres⟩
  | _ =>
    rw [he]
    refine ⟨haddr, helse ?_⟩
    rintro hres
    rw [hres] at hhandler
    cases hmethod : q.req.http.method <;> simp [hmethod, Resource.handler] at hhandler

/-- A step of a request keeps the manifests genuine, and what it is answered. -/
theorem serve_genuine (haddr : s.st.ManifestsAddressed px.crates) (hq : q.ManifestGenuine px)
    (hg : s.AnswerGenuine px inp q.stage) (hs : s.serve px inp q = some r) :
    r.1.st.ManifestsAddressed px.crates ∧ Served.ManifestGenuine px { q with stage := r.2 } := by
  obtain ⟨hst, rfl⟩ | ⟨u, hst, rfl⟩ | ⟨m, hst, rfl⟩ | ⟨m, k, o, hst, ho, rfl⟩ |
    ⟨d, head, k, o, hst, -, rfl⟩ := serve_cases hs
  · exact handle_genuine haddr inp q
  · have helse : ∀ cut, cutPath q.req.http.path = .ok cut → cut.resource ≠ .manifests := by
      simpa only [Served.ManifestGenuine, hst] using hq
    refine ⟨haddr.of_eq (s.uploads.step_manifests px.crates _ u), ?_⟩
    unfold uploadStep
    dsimp only
    cases (s.uploads.step px.crates ⟨inp.uuid, inp.body⟩ u).2 with
    | done reply => exact fun _ cut hcut hres => absurd hres (helse cut hcut)
    | _ => exact helse
  · have hm : m.From px q.req := by simpa only [Served.ManifestGenuine, hst] using hq
    obtain ⟨request, rfl, he⟩ | ⟨request, d, rfl, he⟩ | he :=
      serveManifestReq_cases px s inp q.req.accept m
    · rw [he]
      exact ⟨haddr, hm⟩
    · rw [he]
      exact ⟨haddr, hm⟩
    · rw [he]
      exact manifestStep_genuine haddr hm (m.genuine_of_error px.crates _ _)
  · have hm : m.From px q.req := by simpa only [Served.ManifestGenuine, hst] using hq
    cases o with
    | panicked => exact ⟨haddr, trivial⟩
    | error e => exact manifestStep_genuine haddr hm (m.genuine_of_error px.crates e _)
    | ok resp =>
      refine manifestStep_genuine haddr hm ?_
      rw [hst] at hg
      simpa only [AnswerGenuine, ho, ManifestReq.GenuineAfter] using hg
  · have helse : ∀ cut, cutPath q.req.http.path = .ok cut → cut.resource ≠ .manifests := by
      simpa only [Served.ManifestGenuine, hst] using hq
    obtain ⟨reply, he⟩ | ⟨resp, -, -, -, he⟩ := afterBlobPull_cases px s inp d head o
    · rw [he]
      refine ⟨haddr, ?_⟩
      cases reply with
      | response resp => exact fun _ cut hcut hres => absurd hres (helse cut hcut)
      | _ => trivial
    · rw [he]
      exact ⟨haddr, trivial⟩

/-- The manifests are genuine, and so is what clients are answered with them. -/
structure ManifestsGenuine (px : Proxy) (s : Server) : Prop where
  addressed : s.st.ManifestsAddressed px.crates
  reqs : ∀ q ∈ s.reqs, q.ManifestGenuine px

theorem ManifestsGenuine.step {e : ServerEvent} (h : s.ManifestsGenuine px)
    (hc : BodiesGenuine px s e s') (hs : s.step px e = some s') : s'.ManifestsGenuine px := by
  obtain ⟨now, -, rfl⟩ | ⟨c, -, rfl⟩ | ⟨i, inp, q, r, rfl, hq, hr, rfl⟩ |
    ⟨k, inp, t, r, -, -, -, rfl⟩ | ⟨j, f, fe, x, -, hf, hx, rfl⟩ := step_cases hs
  · exact ⟨h.addressed.of_eq rfl, h.reqs⟩
  · refine ⟨h.addressed, fun q hq => ?_⟩
    rcases List.mem_append.mp hq with hq | hq
    · exact h.reqs q hq
    · obtain rfl := List.mem_singleton.mp hq
      trivial
  · obtain ⟨haddr, hgenuine⟩ :=
      serve_genuine h.addressed (h.reqs q (List.mem_of_getElem? hq)) (hc q hq) hr
    exact ⟨haddr, forall_mem_set h.reqs hgenuine⟩
  · exact ⟨h.addressed, h.reqs⟩
  · obtain ⟨hx, -⟩ := Option.filter_eq_some_iff.mp hx
    exact ⟨h.addressed.of_eq (FillSys.step_manifests hx), h.reqs⟩

end Server

/-- No client is served a wrong manifest unless an upstream sends one. In every run of the proxy
in which what upstream sends for a missing manifest hashes to the digest it was asked for, a 200
for a manifest is for the digest that the client's path names, if it names one; a GET is sent bytes
that hash to the digest of the reply, a HEAD none. -/
theorem manifests_served_genuine (px : Proxy) {st : State}
    (hst : st.ManifestsAddressed px.crates) {events : List ServerEvent} {s : Server}
    (hc : Along (Server.step px) (Server.BodiesGenuine px) (.init st) events)
    (hr : run (Server.step px) (.init st) events = some s) :
    ∀ q ∈ s.reqs, ∀ resp cut, q.stage = .done (.response resp) → resp.status = 200 →
      cutPath q.req.http.path = .ok cut → cut.resource = .manifests →
      ∃ d, (Digest.fromStr cut.tail = none ∨ Digest.fromStr cut.tail = some d) ∧
        Carries px.crates q.req.http.method d resp.headers resp.body := by
  have hinit : (Server.init st).ManifestsGenuine px := ⟨hst, fun q hq => (by cases hq)⟩
  have hinv := run_invariant (I := Server.ManifestsGenuine px) (C := Server.BodiesGenuine px)
    (fun _ _ _ h hc hs => h.step hc hs) hinit hc hr
  intro q hq resp cut hdone hok hcut hres
  have hgenuine := hinv.reqs q hq
  rw [Served.ManifestGenuine, hdone] at hgenuine
  exact hgenuine hok cut hcut hres

theorem exists_of_map_ok {α β ε : Type*} {f : α → β} {x : Except ε α} {b : β}
    (h : x.map f = .ok b) : ∃ a, x = .ok a ∧ f a = b := by
  cases x with
  | error e => cases h
  | ok a => exact ⟨a, rfl, Except.ok.inj h⟩

def ServeStage.response : ServeStage → Option Response
  | .done (.response resp) => some resp
  | _ => none

theorem ServeStage.done_of_response {stage : ServeStage} {resp : Response}
    (h : stage.response = some resp) : stage = .done (.response resp) := by
  unfold ServeStage.response at h
  split at h
  · rw [Option.some.inj h]
  · cases h

/-- A client asks for a manifest by its digest, and upstream sends it. -/
def manifestPulled : List ServerEvent :=
  [.request (clientRequest .get ("/v2/docker.io/library/alpine/manifests/" ++ letterDigest.toText)),
    .step 0 {}, .step 0 {}, .step 0 {}, .step 0 {}, .pull 0 {},
    .pull 0 { answer := .ok ⟨200, none⟩ }, .step 0 { head := { stream := ⟨[utf8 "a"], none⟩ } }]

theorem manifests_served_genuine_pulled :
    ∃ s q resp, run (Server.step openProxy) (.init freshState) manifestPulled = some s ∧
      s.reqs[0]? = some q ∧ q.stage = .done (.response resp) ∧ resp.body = utf8 "a" ∧
      ∃ d, Carries openProxy.crates q.req.http.method d resp.headers resp.body := by
  have hrun : ((run (Server.step openProxy) (.init freshState) manifestPulled).bind
      fun s => s.reqs[0]?).map (fun q => (q.stage.response.map fun resp => (resp.status, resp.body),
        (cutPath q.req.http.path).map Cut.resource)) =
      some (some (200, utf8 "a"), .ok .manifests) := by decide +kernel
  obtain ⟨q, hbind, hq⟩ := Option.map_eq_some_iff.mp hrun
  obtain ⟨s, hr, hmem⟩ := Option.bind_eq_some_iff.mp hbind
  obtain ⟨hresp, hcut⟩ := Prod.mk.inj hq
  obtain ⟨resp, hdone, hshown⟩ := Option.map_eq_some_iff.mp hresp
  obtain ⟨hok, hbody⟩ := Prod.mk.inj hshown
  obtain ⟨cut, hpath, hres⟩ := exists_of_map_ok hcut
  obtain ⟨d, -, hcarries⟩ := manifests_served_genuine openProxy
    (fun d m hm => by cases hm) (by decide +kernel) hr q (List.mem_of_getElem? hmem) resp cut
    (ServeStage.done_of_response hdone) hok hpath hres
  exact ⟨s, q, resp, hr, hmem, ServeStage.done_of_response hdone, hbody, d, hcarries⟩

end Dockfoxprox
