import Dockfoxprox.Proofs.Progress

/-! The counters on the metrics page tell what the proxy did. A handler counts a request when it
is dispatched, a pull counts its requests when it sends them, and a blob is looked up once for
each request; so at any moment of a run the counters are sums over the requests and the pulls. -/

namespace Dockfoxprox

open Machine

/-- The counter of a handler; the status of an upload has none. -/
def DockerMetrics.handled (m : DockerMetrics) : Handler → ℕ
  | .getHeadManifest false => m.dockerManifestGet
  | .getHeadManifest true => m.dockerManifestHead
  | .putManifest => m.dockerManifestPut
  | .postBlobUpload => m.dockerBlobUploadPost
  | .patchBlobUpload => m.dockerBlobUploadPatch
  | .putBlobUpload => m.dockerBlobUploadPut
  | .deleteBlobUpload => m.dockerBlobUploadDelete
  | .getBlobUploadStatus => 0
  | .getHeadBlob false => m.dockerBlobGet
  | .getHeadBlob true => m.dockerBlobHead

def DockerMetrics.blobRequests (m : DockerMetrics) : ℕ := m.dockerBlobGet + m.dockerBlobHead

def DockerMetrics.blobLookups (m : DockerMetrics) : ℕ :=
  m.dockerBlobCacheHitMemory + m.dockerBlobCacheHitDisk + m.dockerBlobCacheMiss

/-- The request is one for the handler. -/
def Proxy.routes (px : Proxy) (h : Handler) (c : ClientRequest) : Bool :=
  "/v2/".toList.isPrefixOf c.http.path.toList &&
    match handleRequestInner px.base64Decode px.config c.http with
    | .ok (.handler h' _) => h' = h
    | _ => false

def ServeStage.begun : ServeStage → Bool
  | .start => false
  | _ => true

/-- The request has been dispatched to the handler. -/
def Served.entered (px : Proxy) (h : Handler) (q : Served) : Bool :=
  q.stage.begun && px.routes h q.req

/-- The requests of a pull that could not be sent. -/
def PullTask.failures (t : PullTask) : ℕ := t.sent.countP fun a => !a.2.isOk

def PullTask.forBlob (t : PullTask) : Bool := "blobs/".toList.isPrefixOf t.call.subPath.toList

namespace Server

/-- Each counter of a handler counts the requests dispatched to it, those of the pulls count the
requests sent upstream and the ones that could not be sent, and each missed blob was pulled. -/
structure Accounts (px : Proxy) (s : Server) : Prop where
  handled : ∀ h, h ≠ .getBlobUploadStatus →
    s.metrics.handled h = (s.reqs.map fun q => (q.entered px h).toNat).sum
  requests : s.metrics.dockerUpstreamRequests = (s.pulls.tasks.map fun t => t.requests.length).sum
  errors : s.metrics.dockerUpstreamErrors = (s.pulls.tasks.map PullTask.failures).sum
  misses : s.metrics.dockerBlobCacheMiss = (s.pulls.tasks.map fun t => t.forBlob.toNat).sum
  lookups : s.metrics.blobLookups ≤ s.metrics.blobRequests

end Server

/-! The single counters. -/

namespace DockerMetrics

theorem handled_countHandler (m : DockerMetrics) {h : Handler} (h' : Handler)
    (hne : h ≠ .getBlobUploadStatus) :
    (m.countHandler h').handled h = m.handled h + (decide (h' = h)).toNat := by
  rcases h' with (_ | _) | _ | _ | _ | _ | _ | _ | (_ | _) <;>
    rcases h with (_ | _) | _ | _ | _ | _ | _ | _ | (_ | _) <;>
      first
      | rfl
      | exact absurd rfl hne

/-- Two states of the counters between which no handler, no pull and no blob was counted. -/
def Near (m m' : DockerMetrics) : Prop :=
  ∃ hit miss failures, m' = { m with
    dockerManifestCacheHit := hit, dockerManifestCacheMiss := miss, dockerAuthFailures := failures }

theorem Near.refl (m : DockerMetrics) : m.Near m := ⟨_, _, _, rfl⟩

theorem near_countRefusal (base64Decode : String → Option Bytes) (req : HttpRequest)
    (m : DockerMetrics) (e : RouteError) : m.Near (m.countRefusal base64Decode req e) := by
  cases e with
  | invalidAuth =>
    simp only [countRefusal]
    split
    · exact ⟨_, _, _, rfl⟩
    · exact .refl m
  | _ => exact .refl m

theorem near_countManifest (m : DockerMetrics) (s : State) (q : ManifestReq) :
    m.Near (m.countManifest s q) := by
  cases q with
  | lookup r d =>
    simp only [countManifest]
    split
    · exact ⟨_, _, _, rfl⟩
    · split
      · exact .refl m
      · exact ⟨_, _, _, rfl⟩
  | _ => exact .refl m

theorem Near.handled {m m' : DockerMetrics} (hm : m.Near m') (h : Handler) :
    m'.handled h = m.handled h := by
  obtain ⟨_, _, _, rfl⟩ := hm
  rcases h with (_ | _) | _ | _ | _ | _ | _ | _ | (_ | _) <;> rfl

/-- A lookup that finds the blob, or one of something the proxy would not pull. -/
theorem countBlob_of_not_miss (m : DockerMetrics) {s : State} {host digest : String}
    (h : ∀ d, Digest.fromStr digest = some d → s.blobs.lookup d = none → host = "self") :
    ∃ mem disk, m.countBlob s host digest = { m with
        dockerBlobCacheHitMemory := mem, dockerBlobCacheHitDisk := disk } ∧
      mem + disk ≤ m.dockerBlobCacheHitMemory + m.dockerBlobCacheHitDisk + 1 := by
  unfold countBlob
  cases hd : Digest.fromStr digest with
  | none => exact ⟨_, _, rfl, Nat.le_succ _⟩
  | some d =>
    dsimp only
    cases hb : s.blobs.lookup d with
    | none =>
      dsimp only
      rw [if_pos (h d hd hb)]
      exact ⟨_, _, rfl, Nat.le_succ _⟩
    | some b =>
      cases b with
      | inMemory => exact ⟨_, _, rfl, by omega⟩
      | onDisk => exact ⟨_, _, rfl, by omega⟩

end DockerMetrics

theorem forBlob_blobs (call : PullCall) {sub : String} (h : call.subPath = "blobs/" ++ sub) :
    PullTask.forBlob { call } = true := by
  rw [PullTask.forBlob, h, String.toList_append]
  rfl

theorem forBlob_manifests (call : PullCall) {sub : String}
    (h : call.subPath = "manifests/" ++ sub) : PullTask.forBlob { call } = false := by
  rw [PullTask.forBlob, h, String.toList_append]
  rfl

theorem PullTask.requests_length (t : PullTask) : t.requests.length = t.sent.length +
    match t.stage with
    | .sending _ => 1
    | _ => 0 := by
  unfold PullTask.requests
  rw [List.length_append, List.length_map]
  cases t.stage <;> rfl

/-- A step of a pull counts the requests it sends and the ones that fail. -/
theorem countPull_spec {crates : PullCrates} {tokens tokens' : DashMap TokenKey String}
    {inp : PullInput} {t t' : PullTask} (m : DockerMetrics)
    (hs : t.next crates tokens inp = some (tokens', t')) :
    ∃ sent failed, m.countPull t t' inp = { m with
        dockerUpstreamRequests := sent, dockerUpstreamErrors := failed } ∧
      sent + t.requests.length = m.dockerUpstreamRequests + t'.requests.length ∧
      failed + t.failures = m.dockerUpstreamErrors + t'.failures := by
  have hlen := t.requests_length
  have hlen' := t'.requests_length
  obtain ⟨hst, -, rfl⟩ | ⟨n, hst, -, hspec⟩ | ⟨n, ch, hst, -, hspec⟩ := PullTask.next_cases hs
  · simp only [hst] at hlen
    simp only [PullTask.begin] at hlen'
    refine ⟨m.dockerUpstreamRequests + 1, m.dockerUpstreamErrors, ?_, ?_, rfl⟩
    · simp only [DockerMetrics.countPull, hst, PullTask.begin]
    · rw [hlen, PullTask.begin, hlen']
      omega
  · have hsent : t'.sent.length = t.sent.length + 1 := by
      rw [hspec.sent, List.length_append]
      rfl
    have hfail : t'.failures = t.failures + (!inp.answer.isOk).toNat := by
      rw [PullTask.failures, hspec.sent, List.countP_append, PullTask.failures]
      cases inp.answer <;> rfl
    -- whatever the answer, no other request is on its way yet
    have hnone : t'.requests.length = t'.sent.length := by
      obtain ⟨outcome, hst'⟩ | ⟨resp, www, ch, -, -, -, -, hst'⟩ := hspec.stage <;>
        simp only [hst'] at hlen' <;> exact hlen'
    have hcount : m.countPull t t' inp = { m with
        dockerUpstreamErrors := m.dockerUpstreamErrors + (!inp.answer.isOk).toNat } := by
      obtain ⟨outcome, hst'⟩ | ⟨resp, www, ch, -, -, -, -, hst'⟩ := hspec.stage <;>
        simp only [DockerMetrics.countPull, hst, hst'] <;> cases inp.answer <;> rfl
    simp only [hst] at hlen
    refine ⟨_, _, hcount, ?_, ?_⟩
    · omega
    · omega
  · have hfail : t'.failures = t.failures := by rw [PullTask.failures, hspec.sent]; rfl
    have hsent : t'.sent.length = t.sent.length := by rw [hspec.sent]
    simp only [hst] at hlen
    have hstage : (∃ k, t'.stage = .sending k) ∨ ∃ outcome, t'.stage = .done outcome := by
      obtain ⟨-, -, outcome, hst'⟩ | ⟨fresh, -, -, -, hst'⟩ := hspec.outcome
      · exact .inr ⟨outcome, hst'⟩
      · rw [hst', PullTask.attemptStage]
        split
        · exact .inl ⟨_, rfl⟩
        · exact .inr ⟨_, rfl⟩
    obtain ⟨k, hst'⟩ | ⟨outcome, hst'⟩ := hstage
    · simp only [hst'] at hlen'
      refine ⟨m.dockerUpstreamRequests + 1, m.dockerUpstreamErrors, ?_, by omega, by rw [hfail]⟩
      simp only [DockerMetrics.countPull, hst, hst']
    · simp only [hst'] at hlen'
      refine ⟨m.dockerUpstreamRequests, m.dockerUpstreamErrors, ?_, by omega, by rw [hfail]⟩
      simp only [DockerMetrics.countPull, hst, hst']

namespace Server

variable {px : Proxy} {s s' : Server} {inp : ServerInput} {q : Served} {c : ClientRequest}
  {r : Server × ServeStage} {stage : ServeStage}

/-- What a step of a request adds to the counters, where `entered` tells which handler it was
dispatched to in the step. -/
structure Billed (s : Server) (entered : Handler → Bool) (r : Server × ServeStage) : Prop where
  begun : r.2.begun
  handled : ∀ h, h ≠ .getBlobUploadStatus →
    r.1.metrics.handled h = s.metrics.handled h + (entered h).toNat
  requests : r.1.metrics.dockerUpstreamRequests = s.metrics.dockerUpstreamRequests
  errors : r.1.metrics.dockerUpstreamErrors = s.metrics.dockerUpstreamErrors
  pulls : (r.1.pulls = s.pulls ∧ r.1.metrics.dockerBlobCacheMiss = s.metrics.dockerBlobCacheMiss) ∨
    ∃ call, r.1.pulls.tasks = s.pulls.tasks ++ [({ call } : PullTask)] ∧
      r.1.metrics.dockerBlobCacheMiss =
        s.metrics.dockerBlobCacheMiss + (PullTask.forBlob { call }).toNat
  lookups : r.1.metrics.blobLookups + s.metrics.blobRequests ≤
    s.metrics.blobLookups + r.1.metrics.blobRequests

/-- A step that looks up no blob and begins no pull. -/
theorem billed_near (hb : stage.begun) (hm : s.metrics.Near s'.metrics) (hp : s'.pulls = s.pulls) :
    Billed s (fun _ => false) (s', stage) := by
  have hhandled := hm.handled
  obtain ⟨hit, miss, failures, hm⟩ := hm
  refine ⟨hb, fun h _ => hhandled h, ?_, ?_, .inl ⟨hp, ?_⟩, ?_⟩
  · rw [hm]
  · rw [hm]
  · rw [hm]
  · rw [hm]
    exact le_refl _

/-- A pull begins for a manifest. -/
theorem billed_startPull {request : Request} {method : Method} {sub : String}
    {accept : Option String} {stage' : ℕ → ServeStage} (hb : ∀ k, (stage' k).begun) :
    Billed s (fun _ => false)
      (s.startPull px request method ("manifests/" ++ sub) accept stage') where
  begun := hb _
  handled h _ := rfl
  requests := rfl
  errors := rfl
  pulls := .inr ⟨_, rfl, by rw [forBlob_manifests _ rfl]; rfl⟩
  lookups := le_refl _

theorem serve_begun (u : UploadReq) : u.serve.begun := by cases u <;> rfl

theorem manifestServe_begun (m : ManifestReq) : m.serve.begun := by cases m <;> rfl

theorem billed_manifestStep (minp : ManifestInput) (m : ManifestReq) :
    Billed s (fun _ => false) (s.manifestStep px minp m) :=
  billed_near (manifestServe_begun _) (DockerMetrics.near_countManifest ..) rfl

/-- A blob request finds its blob, or misses it and begins its pull. -/
theorem serveBlob_counts (px : Proxy) (s : Server) (request : Request) (head : Bool) :
    (s.serveBlob px request head).2.begun ∧ ∃ mem disk miss,
      (s.serveBlob px request head).1.metrics = { s.metrics with
        dockerBlobCacheHitMemory := mem, dockerBlobCacheHitDisk := disk
        dockerBlobCacheMiss := miss } ∧
      mem + disk + miss ≤ s.metrics.blobLookups + 1 ∧
      (((s.serveBlob px request head).1.pulls = s.pulls ∧ miss = s.metrics.dockerBlobCacheMiss) ∨
        ∃ call, (s.serveBlob px request head).1.pulls.tasks =
            s.pulls.tasks ++ [({ call } : PullTask)] ∧
          miss = s.metrics.dockerBlobCacheMiss + (PullTask.forBlob { call }).toNat) := by
  by_cases hmiss : ∃ d, Digest.fromStr request.tail = some d ∧ s.st.blobs.lookup d = none ∧
      request.upstreamHost ≠ "self"
  · obtain ⟨d, hd, hb, hself⟩ := hmiss
    have hfound : getHeadBlob px.streams s.st request.upstreamHost request.tail head =
        (s.st, .miss d) := by
      simp only [getHeadBlob, hd, hb, if_neg hself]
    have hcount : s.metrics.countBlob s.st request.upstreamHost request.tail = { s.metrics with
        dockerBlobCacheMiss := s.metrics.dockerBlobCacheMiss + 1 } := by
      simp only [DockerMetrics.countBlob, hd, hb, if_neg hself]
    have he : s.serveBlob px request head = startPull px
        { s.setSt s.st with
          metrics := s.metrics.countBlob s.st request.upstreamHost request.tail }
        request (if head then .head else .get) ("blobs/" ++ d.toText) none
        (.blobPull d head) := by
      simp only [serveBlob, hfound]
    rw [he]
    exact ⟨rfl, _, _, _, hcount, le_refl _, .inr ⟨_, rfl, by rw [forBlob_blobs _ rfl]; rfl⟩⟩
  · push Not at hmiss
    obtain ⟨reply, he⟩ | ⟨d, hd, hb, hself, -⟩ := serveBlob_cases px s request head
    · rw [he]
      obtain ⟨mem, disk, hm, hle⟩ := s.metrics.countBlob_of_not_miss hmiss
      refine ⟨rfl, mem, disk, _, hm, ?_, .inl ⟨rfl, rfl⟩⟩
      rw [DockerMetrics.blobLookups]
      omega
    · exact absurd (hmiss d hd hb) hself

/-- The step that dispatches a request counts it for its handler. -/
theorem billed_dispatch (px : Proxy) (s : Server) (handler : Handler) (request : Request) :
    Billed s (fun h => decide (handler = h))
      (dispatch px { s with metrics := s.metrics.countHandler handler } handler request) := by
  have hhandled (h : Handler) (hne : h ≠ .getBlobUploadStatus) :=
    s.metrics.handled_countHandler handler hne
  cases handler with
  | getHeadBlob head =>
    obtain ⟨hb, mem, disk, miss, hm, hle, hp⟩ := serveBlob_counts px
      { s with metrics := s.metrics.countHandler (.getHeadBlob head) } request head
    refine ⟨hb, fun h hne => ?_, ?_, ?_, ?_, ?_⟩
    · rw [← hhandled h hne, dispatch, hm]
      rcases h with (_ | _) | _ | _ | _ | _ | _ | _ | (_ | _) <;> rfl
    · rw [dispatch, hm]
      cases head <;> rfl
    · rw [dispatch, hm]
      cases head <;> rfl
    · rw [dispatch, hm]
      cases head <;> exact hp
    · rw [dispatch, hm]
      cases head <;>
        simp only [DockerMetrics.blobLookups, DockerMetrics.blobRequests,
          DockerMetrics.countHandler] at hle ⊢ <;> omega
  | getHeadManifest head =>
    cases head <;> exact ⟨rfl, hhandled, rfl, rfl, .inl ⟨rfl, rfl⟩, le_refl _⟩
  | _ => exact ⟨rfl, hhandled, rfl, rfl, .inl ⟨rfl, rfl⟩, le_refl _⟩

theorem billed_handle (px : Proxy) (s : Server) (inp : ServerInput) (c : ClientRequest) :
    Billed s (fun h => px.routes h c) (s.handle px inp c) := by
  unfold handle
  cases hpre : "/v2/".toList.isPrefixOf c.http.path.toList with
  | false =>
    have hroutes : (fun h => px.routes h c) = fun _ => false := by
      funext h
      rw [Proxy.routes, hpre, Bool.false_and]
    rw [hroutes, if_neg Bool.false_ne_true]
    split
    · exact billed_near rfl (.refl _) rfl
    · exact billed_near rfl (.refl _) rfl
  | true =>
    rw [if_pos rfl, handleRequest]
    cases hroute : handleRequestInner px.base64Decode px.config c.http with
    | error e =>
      have hroutes : (fun h => px.routes h c) = fun _ => false := by
        funext h
        simp only [Proxy.routes, hpre, hroute, Bool.and_false]
      rw [hroutes]
      exact billed_near rfl (DockerMetrics.near_countRefusal ..) rfl
    | ok routed =>
      cases routed with
      | version =>
        have hroutes : (fun h => px.routes h c) = fun _ => false := by
          funext h
          simp only [Proxy.routes, hpre, hroute, Bool.and_false]
        rw [hroutes]
        exact billed_near rfl (.refl _) rfl
      | handler handler request =>
        have hroutes : (fun h => px.routes h c) = fun h => decide (handler = h) := by
          funext h
          simp only [Proxy.routes, hpre, hroute, Bool.true_and]
        rw [hroutes]
        exact billed_dispatch px s handler request

/-- The step lemma of a request. -/
theorem billed_serve (hs : s.serve px inp q = some r) :
    Billed s (fun h => !q.stage.begun && px.routes h q.req) r := by
  obtain ⟨hst, rfl⟩ | ⟨u, hst, rfl⟩ | ⟨m, hst, rfl⟩ | ⟨m, k, o, hst, -, rfl⟩ |
    ⟨d, head, k, o, hst, -, rfl⟩ := serve_cases hs <;> rw [hst]
  · exact billed_handle px s inp q.req
  · exact billed_near (serve_begun _) (.refl _) rfl
  · obtain ⟨request, rfl, he⟩ | ⟨request, d, rfl, he⟩ | he :=
      serveManifestReq_cases px s inp q.req.accept m
    · rw [he]
      exact billed_startPull fun k => rfl
    · rw [he]
      exact billed_startPull fun k => rfl
    · rw [he]
      exact billed_manifestStep _ m
  · obtain he | ⟨minp, he⟩ := afterManifestPull_cases px s inp m o
    · rw [he]
      exact billed_near rfl (.refl _) rfl
    · rw [he]
      exact billed_manifestStep minp m
  · obtain ⟨reply, he⟩ | ⟨resp, -, -, -, he⟩ := afterBlobPull_cases px s inp d head o
    · rw [he]
      exact billed_near rfl (.refl _) rfl
    · rw [he]
      exact billed_near rfl (.refl _) rfl

theorem Accounts.init (st : State) : (Server.init st).Accounts px where
  handled h _ := by rcases h with (_ | _) | _ | _ | _ | _ | _ | _ | (_ | _) <;> rfl
  requests := rfl
  errors := rfl
  misses := rfl
  lookups := le_refl _

/-- A request takes a step. -/
theorem Accounts.serve {i : ℕ} (h : s.Accounts px) (hq : s.reqs[i]? = some q)
    (hr : s.serve px inp q = some r) :
    Accounts px { r.1 with reqs := s.reqs.set i { q with stage := r.2 } } := by
  have hb := billed_serve hr
  refine ⟨fun handler hne => ?_, ?_, ?_, ?_, ?_⟩
  · have hset := sum_map_set (fun q => (Served.entered px handler q).toNat) hq
      { q with stage := r.2 }
    have hadd := hb.handled handler hne
    have hsum := h.handled handler hne
    simp only [Served.entered, hb.begun, Bool.true_and] at hset hsum ⊢
    cases hbegun : q.stage.begun with
    | false =>
      simp only [hbegun, Bool.false_and, Bool.not_false, Bool.true_and, Bool.toNat_false]
        at hset hadd
      omega
    | true =>
      simp only [hbegun, Bool.true_and, Bool.not_true, Bool.false_and, Bool.toNat_false]
        at hset hadd
      omega
  · dsimp only
    rw [hb.requests, h.requests]
    obtain ⟨hp, -⟩ | ⟨call, hp, -⟩ := hb.pulls
    · rw [hp]
    · rw [hp, List.map_append, List.sum_append]
      rfl
  · dsimp only
    rw [hb.errors, h.errors]
    obtain ⟨hp, -⟩ | ⟨call, hp, -⟩ := hb.pulls
    · rw [hp]
    · rw [hp, List.map_append, List.sum_append]
      rfl
  · dsimp only
    obtain ⟨hp, hm⟩ | ⟨call, hp, hm⟩ := hb.pulls
    · rw [hp, hm, h.misses]
    · rw [hp, hm, h.misses, List.map_append, List.sum_append]
      rfl
  · have hlook := hb.lookups
    have hle := h.lookups
    dsimp only
    omega

/-- A pull takes a step. -/
theorem Accounts.pull {k : ℕ} {pinp : PullInput} {t : PullTask}
    {r : DashMap TokenKey String × PullTask} (h : s.Accounts px)
    (ht : s.pulls.tasks[k]? = some t) (hr : t.next px.pullCrates s.pulls.tokens pinp = some r) :
    Accounts px { s with
      pulls := ⟨r.1, s.pulls.tasks.set k r.2⟩, metrics := s.metrics.countPull t r.2 pinp } := by
  obtain ⟨sent, failed, hm, hsent, hfailed⟩ := countPull_spec s.metrics hr
  rw [hm]
  refine ⟨fun handler hne => ?_, ?_, ?_, ?_, h.lookups⟩
  · rw [← h.handled handler hne]
    rcases handler with (_ | _) | _ | _ | _ | _ | _ | _ | (_ | _) <;> rfl
  · have hset := sum_map_set (fun t => t.requests.length) ht r.2
    have hsum := h.requests
    dsimp only at hset ⊢
    omega
  · have hset := sum_map_set PullTask.failures ht r.2
    have hsum := h.errors
    dsimp only
    omega
  · have hset := sum_map_set (fun t => (PullTask.forBlob t).toNat) ht r.2
    have hcall : r.2.forBlob = t.forBlob := by
      rw [PullTask.forBlob, (PullTask.next_ne_start hr).2, PullTask.forBlob]
    have hsum := h.misses
    dsimp only at hset ⊢
    rw [hcall] at hset
    omega

theorem Accounts.step {e : ServerEvent} (h : s.Accounts px) (hs : s.step px e = some s') :
    s'.Accounts px := by
  obtain ⟨now, -, rfl⟩ | ⟨c, -, rfl⟩ | ⟨i, inp, q, r, -, hq, hr, rfl⟩ |
    ⟨k, inp, t, r, -, ht, hr, rfl⟩ | ⟨j, f, fe, x, -, -, -, rfl⟩ := step_cases hs
  · exact ⟨h.handled, h.requests, h.errors, h.misses, h.lookups⟩
  · refine ⟨fun handler hne => ?_, h.requests, h.errors, h.misses, h.lookups⟩
    rw [List.map_append, List.sum_append]
    exact h.handled handler hne
  · exact h.serve hq hr
  · exact h.pull ht hr
  · exact ⟨h.handled, h.requests, h.errors, h.misses, h.lookups⟩

end Server

/-- At any moment of a run of the proxy its counters add up. -/
theorem metrics_account_for_run (px : Proxy) (st : State) {es : List ServerEvent} {s : Server}
    (hr : run (Server.step px) (.init st) es = some s) : s.Accounts px :=
  run_invariant (C := fun _ _ _ => True) (I := Server.Accounts px)
    (fun _ _ _ h _ hs => h.step hs) (.init st) (along_true _ _) hr

theorem metrics_account_for_run_tag :
    ∃ s, run (Server.step openProxy) (.init freshState) tagServed = some s ∧
      (s.metrics.dockerManifestGet, s.metrics.dockerUpstreamRequests) = (1, 2) ∧
      s.Accounts openProxy := by
  have hrun : (run (Server.step openProxy) (.init freshState) tagServed).map
      (fun s => (s.metrics.dockerManifestGet, s.metrics.dockerUpstreamRequests)) =
        some (1, 2) := by decide +kernel
  obtain ⟨s, hr, hs⟩ := Option.map_eq_some_iff.mp hrun
  exact ⟨s, hr, hs, metrics_account_for_run openProxy freshState hr⟩

end Dockfoxprox
