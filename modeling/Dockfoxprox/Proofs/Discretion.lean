import Dockfoxprox.Proofs.Outgoing

/-! What a client without credentials can do to the others: nothing. Two runs that differ in what
refused clients send, and in nothing else, go the same way for everyone; a refused client learns
no more than that it was refused. -/

namespace Dockfoxprox

open Machine

/-- The check of credentials turns the client away. -/
def Proxy.Refuses (px : Proxy) (c : ClientRequest) : Prop :=
  "/v2/".toList.isPrefixOf c.http.path.toList ∧
    checkAuth px.base64Decode px.config c.http = .error .invalidAuth

/-- Two clients are turned away alike: the header of both could be decoded, or that of neither,
which is all that the count of failures tells. -/
structure Proxy.RefusesAlike (px : Proxy) (c c' : ClientRequest) : Prop where
  left : px.Refuses c
  right : px.Refuses c'
  counted : (c.http.credentials px.base64Decode).isSome =
    (c'.http.credentials px.base64Decode).isSome

/-- Two events are the same but for what a refused client sends. -/
inductive ServerEvent.Alike (px : Proxy) : ServerEvent → ServerEvent → Prop
  | same (e : ServerEvent) : Alike px e e
  | refused {c c' : ClientRequest} (h : px.RefusesAlike c c') : Alike px (.request c) (.request c')

def refusal : ServerReply := .response RouteError.invalidAuth.response

/-- Two requests at one stage: the same, or refused ones. -/
structure Served.Alike (px : Proxy) (q q' : Served) : Prop where
  stage : q'.stage = q.stage
  req : q'.req = q.req ∨
    px.RefusesAlike q.req q'.req ∧ (q.stage = .start ∨ q.stage = .done refusal)

namespace Server

variable {px : Proxy} {s s' t : Server} {inp : ServerInput} {q q' : Served}
  {r : Server × ServeStage}

/-- Two states of the proxy are the same but for what refused clients sent. -/
structure Alike (px : Proxy) (s t : Server) : Prop where
  same : t = { s with reqs := t.reqs }
  reqs : List.Forall₂ (Served.Alike px) s.reqs t.reqs

/-- The same step in a proxy with other requests in its list. -/
def withReqs (reqs : List Served) (r : Server × ServeStage) : Server × ServeStage :=
  ({ r.1 with reqs }, r.2)

theorem serveBlob_withReqs (px : Proxy) (s : Server) (reqs : List Served) (r : Request)
    (head : Bool) :
    serveBlob px { s with reqs } r head = withReqs reqs (s.serveBlob px r head) := by
  unfold serveBlob
  have hst : st { s with reqs } = s.st := rfl
  rw [hst]
  generalize getHeadBlob px.streams s.st r.upstreamHost r.tail head = found
  obtain ⟨st', reply⟩ := found
  cases reply <;> rfl

theorem handle_withReqs (px : Proxy) (s : Server) (reqs : List Served) (inp : ServerInput)
    (c : ClientRequest) :
    handle px { s with reqs } inp c = withReqs reqs (s.handle px inp c) := by
  unfold handle
  split
  · unfold handleRequest
    cases handleRequestInner px.base64Decode px.config c.http with
    | error e => rfl
    | ok routed =>
      cases routed with
      | version => rfl
      | handler handler r =>
        cases handler with
        | getHeadBlob head =>
          exact serveBlob_withReqs px
            { s with metrics := s.metrics.countHandler (.getHeadBlob head) } reqs r head
        | _ => rfl
  · split
    · rfl
    · rfl

theorem serveManifestReq_withReqs (px : Proxy) (s : Server) (reqs : List Served)
    (inp : ServerInput) (accept : Option String) (m : ManifestReq) :
    serveManifestReq px { s with reqs } inp accept m =
      withReqs reqs (s.serveManifestReq px inp accept m) := by
  cases m <;> rfl

theorem afterBlobPull_withReqs (px : Proxy) (s : Server) (reqs : List Served) (inp : ServerInput)
    (d : Digest) (head : Bool) (o : PullOutcome) :
    afterBlobPull px { s with reqs } inp d head o =
      withReqs reqs (s.afterBlobPull px inp d head o) := by
  cases o with
  | panicked => rfl
  | error e => rfl
  | ok resp =>
    unfold afterBlobPull
    dsimp only
    split
    · rfl
    · split
      · rfl
      · rfl

theorem afterManifestPull_withReqs (px : Proxy) (s : Server) (reqs : List Served)
    (inp : ServerInput) (m : ManifestReq) (o : PullOutcome) :
    afterManifestPull px { s with reqs } inp m o =
      withReqs reqs (s.afterManifestPull px inp m o) := by
  cases o <;> rfl

/-- A step of a request does not look at the others. -/
theorem serve_withReqs (px : Proxy) (s : Server) (reqs : List Served) (inp : ServerInput)
    (q : Served) :
    serve px { s with reqs } inp q = (s.serve px inp q).map (withReqs reqs) := by
  have houtcome (k : ℕ) : outcome { s with reqs } k = s.outcome k := rfl
  unfold serve
  cases q.stage with
  | start => exact congrArg some (handle_withReqs px s reqs inp q.req)
  | upload u => rfl
  | manifest m => exact congrArg some (serveManifestReq_withReqs px s reqs inp q.req.accept m)
  | manifestPull m k =>
    dsimp only
    rw [houtcome]
    cases s.outcome k with
    | none => rfl
    | some o => exact congrArg some (afterManifestPull_withReqs px s reqs inp m o)
  | blobPull d head k =>
    dsimp only
    rw [houtcome]
    cases s.outcome k with
    | none => rfl
    | some o => exact congrArg some (afterBlobPull_withReqs px s reqs inp d head o)
  | done reply => rfl

/-- A refused client is told that it was refused, and at most counted. -/
theorem handle_refused {c : ClientRequest} (h : px.Refuses c) (s : Server) (inp : ServerInput) :
    s.handle px inp c =
      ({ s with metrics := s.metrics.countRefusal px.base64Decode c.http .invalidAuth },
        .done refusal) := by
  have hroute : handleRequestInner px.base64Decode px.config c.http = .error .invalidAuth := by
    simp only [handleRequestInner, h.2, bind, Except.bind]
  simp only [handle, h.1, if_true, handleRequest, hroute]
  rfl

theorem getElem?_of_alike (h : s.Alike px t) {i : ℕ} (hq : s.reqs[i]? = some q) :
    ∃ q', t.reqs[i]? = some q' ∧ q.Alike px q' := by
  have hlen := h.reqs.length_eq
  obtain ⟨hi, rfl⟩ := List.getElem?_eq_some_iff.mp hq
  exact ⟨t.reqs[i], List.getElem?_eq_getElem (hlen ▸ hi), h.reqs.get hi (hlen ▸ hi)⟩

/-- A step of a request and that of its counterpart come out alike. -/
theorem serve_alike (hq : q.Alike px q') (hs : s.serve px inp q = some r) :
    s.serve px inp q' = some r ∧ Served.Alike px { q with stage := r.2 } { q' with stage := r.2 } := by
  rcases hq.req with hreq | ⟨hrefuses, hst | hst⟩
  · obtain ⟨req, stage⟩ := q
    obtain ⟨req', stage'⟩ := q'
    obtain rfl : stage' = stage := hq.stage
    obtain rfl : req' = req := hreq
    exact ⟨hs, rfl, .inl rfl⟩
  · have hleft : s.serve px inp q = some (s.handle px inp q.req) := by simp only [serve, hst]
    have hright : s.serve px inp q' = some (s.handle px inp q'.req) := by
      simp only [serve, hq.stage, hst]
    rw [hs] at hleft
    obtain rfl := Option.some.inj hleft
    have hsame : s.handle px inp q'.req = s.handle px inp q.req := by
      rw [handle_refused hrefuses.left, handle_refused hrefuses.right]
      simp only [DockerMetrics.countRefusal, hrefuses.counted]
    refine ⟨hright.trans (congrArg some hsame), rfl, .inr ⟨hrefuses, .inr ?_⟩⟩
    rw [handle_refused hrefuses.left]
  · simp [serve, hst] at hs

theorem Alike.step {e e' : ServerEvent} (h : s.Alike px t) (he : e.Alike px e')
    (hs : s.step px e = some s') : ∃ t', t.step px e' = some t' ∧ s'.Alike px t' := by
  obtain ⟨reqs, rfl⟩ : ∃ reqs, t = { s with reqs } := ⟨t.reqs, h.same⟩
  have hreqs : List.Forall₂ (Served.Alike px) s.reqs reqs := h.reqs
  cases he with
  | refused hrefuses =>
    obtain rfl := Option.some.inj hs
    refine ⟨_, rfl, rfl, List.rel_append hreqs (.cons ⟨rfl, .inr ⟨hrefuses, .inl rfl⟩⟩ .nil)⟩
  | same e =>
    obtain ⟨now, rfl, rfl⟩ | ⟨c, rfl, rfl⟩ | ⟨i, inp, q, r, rfl, hq, hr, rfl⟩ |
      ⟨k, inp, p, r, rfl, hp, hr, rfl⟩ | ⟨j, f, fe, x, rfl, hf, hx, rfl⟩ := step_cases hs
    · exact ⟨_, rfl, rfl, hreqs⟩
    · exact ⟨_, rfl, rfl, List.rel_append hreqs (.cons ⟨rfl, .inl rfl⟩ .nil)⟩
    · obtain ⟨q', hq', hsame⟩ := getElem?_of_alike h hq
      obtain ⟨hserve, hstage⟩ := serve_alike hsame hr
      refine ⟨{ r.1 with reqs := reqs.set i { q' with stage := r.2 } }, ?_, rfl, ?_⟩
      · have hreqs' : (reqs : List Served)[i]? = some q' := hq'
        simp only [Server.step, hreqs', serve_withReqs, hserve, Option.map_some]
        rfl
      · exact forall₂_set hreqs i hstage
    · refine ⟨{ s with
          pulls := ⟨r.1, s.pulls.tasks.set k r.2⟩
          metrics := s.metrics.countPull p r.2 inp
          reqs }, ?_, rfl, hreqs⟩
      simp only [Server.step, hp, hr, Option.map_some]
    · refine ⟨{ s.setSt x.st with fills := s.fills.set j x.filling, reqs }, ?_, rfl, hreqs⟩
      have hover : px.fillStep (f.over (Server.st { s with reqs })) fe = some x := hx
      simp only [Server.step, hf, hover, Option.map_some]
      rfl

end Server

/-- Clients without credentials are invisible to the others: whatever they send, the cache, the
uploads, the tokens, the pulls and the fills are the same, every other request is at the same
stage and gets the same reply, and so do the counters. A refused client itself gets one reply,
which does not depend on the state. -/
theorem refused_clients_invisible (px : Proxy) (st : State) {events events' : List ServerEvent}
    (hevents : List.Forall₂ (ServerEvent.Alike px) events events') {s : Server}
    (hr : run (Server.step px) (.init st) events = some s) :
    ∃ s', run (Server.step px) (.init st) events' = some s' ∧
      s'.uploads = s.uploads ∧ s'.pulls = s.pulls ∧ s'.fills = s.fills ∧ s'.metrics = s.metrics ∧
      List.Forall₂ (Served.Alike px) s.reqs s'.reqs := by
  have hinit : Server.Alike px (.init st) (.init st) := ⟨rfl, .nil⟩
  have hstep (s t : Server) (e d : ServerEvent) (s' : Server) (h : s.Alike px t)
      (he : e.Alike px d) (hs : s.step px e = some s') :
      ∃ t', t.step px d = some t' ∧ s'.Alike px t' := h.step he hs
  obtain ⟨s', hr', hsame, hreqs⟩ := run_simulates hstep hinit hevents hr
  exact ⟨s', hr', by rw [hsame], by rw [hsame], by rw [hsame], by rw [hsame], hreqs⟩

/-- A proxy with one user. -/
def guardedProxy : Proxy where
  crates := tableCrates
  pullCrates := bareCrates
  streams := plainStreams
  base64Decode text := if text = "dTpw" then some (utf8 "u:p") else none
  config := ⟨[⟨"u", "p"⟩], ∅⟩
  allocatable := 2 ^ 34

/-- The user opens an upload while a stranger knocks with a request of its own. -/
def knocked (stranger : ClientRequest) : List ServerEvent :=
  [.request
      { http :=
          { method := .post, path := "/v2/self/app/blobs/uploads/", authorization := "Basic dTpw" } },
    .request stranger, .step 0 {}, .step 1 {}, .step 0 { uuid := uploadUuid }]

theorem refused_clients_invisible_knocked :
    ∃ s s', run (Server.step guardedProxy) (.init freshState)
        (knocked (clientRequest .get "/v2/self/app/manifests/latest")) = some s ∧
      run (Server.step guardedProxy) (.init freshState)
        (knocked (clientRequest .put "/v2/ghcr.io/other/manifests/latest")) = some s' ∧
      s.uploads.uploads.keys = [uploadUuid] ∧ s'.uploads = s.uploads ∧
      s'.reqs.map Served.stage = s.reqs.map Served.stage := by
  have hrun : (run (Server.step guardedProxy) (.init freshState)
      (knocked (clientRequest .get "/v2/self/app/manifests/latest"))).map
        (fun s => s.uploads.uploads.keys) = some [uploadUuid] := by decide +kernel
  obtain ⟨s, hr, hkeys⟩ := Option.map_eq_some_iff.mp hrun
  have hrefused : guardedProxy.RefusesAlike (clientRequest .get "/v2/self/app/manifests/latest")
      (clientRequest .put "/v2/ghcr.io/other/manifests/latest") :=
    ⟨⟨by decide, rfl⟩, ⟨by decide, rfl⟩, rfl⟩
  obtain ⟨s', hr', huploads, -, -, -, hreqs⟩ := refused_clients_invisible guardedProxy freshState
    (.cons (.same _) (.cons (.refused hrefused) (.cons (.same _) (.cons (.same _)
      (.cons (.same _) .nil))))) hr
  have hstages {l l' : List Served} (h : List.Forall₂ (Served.Alike guardedProxy) l l') :
      l'.map Served.stage = l.map Served.stage := by
    induction h with
    | nil => rfl
    | cons hq _ ih => rw [List.map_cons, List.map_cons, hq.stage, ih]
  exact ⟨s, s', hr, hr', hkeys, huploads, hstages hreqs⟩

end Dockfoxprox
