import Dockfoxprox.Proofs.Server
import Dockfoxprox.Proofs.Tiers
import Dockfoxprox.Proofs.Uploads

/-! What leaves the proxy. A request goes upstream only on behalf of a client that passed the
check of its credentials, only to read what its path names, and to the registry its path names;
the proxy's own registry is never asked for upstream. -/

namespace Dockfoxprox

open Machine

/-- A pull is for what a cut path names: for its manifest, the digest upstream has for its tag
and then the manifest of that digest; for its blob, the blob. -/
def Cut.Asks (cut : Cut) (call : PullCall) : Prop :=
  (cut.resource = .manifests ∧ call.method = .head ∧ Digest.fromStr cut.tail = none ∧
    call.subPath = "manifests/" ++ cut.tail) ∨
  (cut.resource = .manifests ∧ call.method = .get ∧
    ∃ d, (Digest.fromStr cut.tail = none ∨ Digest.fromStr cut.tail = some d) ∧
      call.subPath = "manifests/" ++ d.toText) ∨
  (cut.resource = .blobs ∧ (call.method = .head ∨ call.method = .get) ∧
    ∃ d, Digest.fromStr cut.tail = some d ∧ call.subPath = "blobs/" ++ d.toText)

/-- The client may ask for this pull: it passed the check, and its path names the registry, the
repository and the object. -/
structure Proxy.Vets (px : Proxy) (c : ClientRequest) (cut : Cut) (call : PullCall) : Prop where
  auth : checkAuth px.base64Decode px.config c.http = .ok ()
  path : cutPath c.http.path = .ok cut
  reads : c.http.method = .get ∨ c.http.method = .head
  registries : call.registries = px.config.registries
  host : call.upstreamHost = aliasHost px.config cut.host
  foreign : call.upstreamHost ≠ "self"
  name : call.name = cut.name
  asks : cut.Asks call

/-- The client passed the check, and `r` is the request its path is cut into. -/
structure Proxy.Cuts (px : Proxy) (c : ClientRequest) (cut : Cut) (r : Request) : Prop where
  auth : checkAuth px.base64Decode px.config c.http = .ok ()
  path : cutPath c.http.path = .ok cut
  request : r = ⟨c.http.method, aliasHost px.config cut.host, cut.name, cut.tail, c.http.query,
    c.http.contentType⟩

/-- What a dispatched request was made from. -/
theorem routes_spec {px : Proxy} {c : ClientRequest} {handler : Handler} {r : Request}
    (h : handleRequestInner px.base64Decode px.config c.http = .ok (.handler handler r)) :
    ∃ cut, px.Cuts c cut r ∧ cut.resource.handler c.http.method = some handler := by
  unfold handleRequestInner at h
  cases hauth : checkAuth px.base64Decode px.config c.http with
  | error e =>
    rw [hauth] at h
    cases h
  | ok u =>
    simp only [hauth, bind, Except.bind] at h
    split at h
    · cases h
    · cases hcut : cutPath c.http.path with
      | error e =>
        rw [hcut] at h
        cases h
      | ok cut =>
        rw [hcut] at h
        dsimp only at h
        cases hhandler : cut.resource.handler c.http.method with
        | none =>
          rw [hhandler] at h
          cases h
        | some handler' =>
          rw [hhandler] at h
          obtain ⟨rfl, rfl⟩ := Routed.handler.inj (Except.ok.inj h)
          exact ⟨cut, ⟨hauth, hcut, rfl⟩, hhandler⟩

theorem validateHost_chars {host : String} (h : validateHost host = .ok ()) :
    ∀ c ∈ host.toList, c ≠ '/' ∧ c ≠ '@' ∧ c ≠ ' ' := by
  unfold validateHost at h
  split at h
  · cases h
  · rename_i hno
    simp only [Bool.or_eq_true, List.contains_iff_mem, not_or] at hno
    intro c hc
    refine ⟨?_, ?_, ?_⟩
    · rintro rfl
      exact hno.1.1 hc
    · rintro rfl
      exact hno.1.2 hc
    · rintro rfl
      exact hno.2 hc

/-- A host that is let through has none of the characters that are rejected. -/
theorem cutPath_host {path : String} {cut : Cut} (h : cutPath path = .ok cut) :
    ∀ c ∈ cut.host.toList, c ≠ '/' ∧ c ≠ '@' ∧ c ≠ ' ' := by
  unfold cutPath at h
  cases hpre : path.toList.dropPrefix? "/v2/".toList with
  | none =>
    rw [hpre] at h
    cases h
  | some suffix =>
    rw [hpre] at h
    dsimp only at h
    cases hsplit : splitOnce '/' suffix with
    | none =>
      rw [hsplit] at h
      cases h
    | some parts =>
      obtain ⟨host, rest⟩ := parts
      rw [hsplit] at h
      dsimp only at h
      split at h
      · cases h
      · cases hvalid : validateHost (String.ofList host) with
        | error e =>
          rw [hvalid] at h
          cases h
        | ok u =>
          rw [hvalid] at h
          dsimp only at h
          cases hres : cutResource rest with
          | none =>
            rw [hres] at h
            cases h
          | some parts =>
            obtain ⟨resource, name, tail⟩ := parts
            rw [hres] at h
            obtain rfl := Except.ok.inj h
            exact validateHost_chars hvalid

def ManifestReq.request : ManifestReq → Option Request
  | .start r | .resolve r | .lookup r _ | .fetch r _ | .putBody r | .putInsert r _ | .putTag r _
  | .putDigest r _ => some r
  | .done _ => none

/-- The digest a reference stands for, if it says so itself. -/
def Request.MayMean (r : Request) (d : Digest) : Prop :=
  Digest.fromStr r.tail = none ∨ Digest.fromStr r.tail = some d

/-- A manifest request goes upstream only to read, and never for the proxy's own registry. -/
def ManifestReq.Reads : ManifestReq → Prop
  | .resolve r =>
    (r.method = .get ∨ r.method = .head) ∧ r.upstreamHost ≠ "self" ∧ Digest.fromStr r.tail = none
  | .lookup r d => (r.method = .get ∨ r.method = .head) ∧ r.MayMean d
  | .fetch r d =>
    (r.method = .get ∨ r.method = .head) ∧ r.upstreamHost ≠ "self" ∧ r.MayMean d
  | _ => True

/-- A later stage of the same request, that still only reads. -/
def ManifestReq.Follows (q q' : ManifestReq) : Prop :=
  q'.Reads ∧ ∀ r, q'.request = some r → q.request = some r

theorem ManifestReq.follows_done (q : ManifestReq) (reply : Reply) : q.Follows (.done reply) :=
  ⟨trivial, fun _ h => by cases h⟩

namespace State

variable {crates : Crates} {s : State} {r : Request} {d : Digest}

theorem startManifest_follows : (ManifestReq.start r).Follows (s.startManifest r) := by
  have hread (hm : r.method = .get ∨ r.method = .head) :
      (ManifestReq.start r).Follows (s.resolveReference r) := by
    unfold resolveReference
    cases hd : Digest.fromStr r.tail with
    | some d => exact ⟨⟨hm, .inr hd⟩, fun _ h => h⟩
    | none =>
      dsimp only
      split
      · cases s.tags.lookup (r.name, r.tail) with
        | some d => exact ⟨⟨hm, .inl hd⟩, fun _ h => h⟩
        | none => exact ManifestReq.follows_done _ _
      · rename_i hself
        exact ⟨⟨hm, hself, hd⟩, fun _ h => h⟩
  unfold startManifest
  cases hm : r.method with
  | get => exact hread (.inl hm)
  | head => exact hread (.inr hm)
  | put =>
    dsimp only
    cases ensureSelf r.upstreamHost .put with
    | error e => exact ManifestReq.follows_done _ _
    | ok u => exact ⟨trivial, fun _ h => h⟩
  | post => exact ManifestReq.follows_done _ _
  | patch => exact ManifestReq.follows_done _ _
  | delete => exact ManifestReq.follows_done _ _

theorem resolveTag_follows (h : (ManifestReq.resolve r).Reads) (answer : Answer) :
    (ManifestReq.resolve r).Follows (resolveTag crates r answer) := by
  unfold resolveTag
  cases answer with
  | error e => exact ManifestReq.follows_done _ _
  | ok resp =>
    dsimp only
    split
    · exact ManifestReq.follows_done _ _
    · cases resp.dockerContentDigest.bind Digest.fromStr with
      | none => exact ManifestReq.follows_done _ _
      | some d => exact ⟨⟨h.1, .inl h.2.2⟩, fun _ h => h⟩

theorem lookupManifest_follows (h : (ManifestReq.lookup r d).Reads) :
    (ManifestReq.lookup r d).Follows (s.lookupManifest r d).2 := by
  unfold lookupManifest
  cases s.manifests.lookup d with
  | some m => exact ManifestReq.follows_done _ _
  | none =>
    dsimp only
    split
    · exact ManifestReq.follows_done _ _
    · rename_i hself
      exact ⟨⟨h.1, hself, h.2⟩, fun _ h => h⟩

theorem fetchManifest_follows (q : ManifestReq) (answer : Answer) :
    q.Follows (s.fetchManifest crates r d answer).2 := by
  unfold fetchManifest
  cases answer with
  | error e => exact ManifestReq.follows_done _ _
  | ok resp =>
    dsimp only
    split
    · exact ManifestReq.follows_done _ _
    · cases resp.body with
      | error e => exact ManifestReq.follows_done _ _
      | ok body => exact ManifestReq.follows_done _ _

/-- A step of a manifest request goes on with the same request. -/
theorem manifestStep_follows (inp : ManifestInput) {q : ManifestReq} (h : q.Reads) :
    q.Follows (s.manifestStep crates inp q).2 := by
  cases q with
  | start r => exact startManifest_follows
  | resolve r => exact resolveTag_follows h inp.answer
  | lookup r d => exact lookupManifest_follows h
  | fetch r d => exact fetchManifest_follows _ inp.answer
  | putBody r =>
    simp only [manifestStep, putBody]
    cases readBody inp.body with
    | error e => exact ManifestReq.follows_done _ _
    | ok body => exact ⟨trivial, fun _ h => h⟩
  | putInsert r body =>
    simp only [manifestStep, putInsert]
    split
    · exact ⟨trivial, fun _ h => h⟩
    · exact ⟨trivial, fun _ h => h⟩
  | putTag r d => exact ⟨trivial, fun _ h => h⟩
  | putDigest r d => exact ManifestReq.follows_done _ _
  | done reply => exact ManifestReq.follows_done _ _

end State

/-- The handlers of manifests, and those of blobs, are for the paths of these. -/
theorem Resource.manifests_of_handler {resource : Resource} {method : Method}
    (h : (∃ head, resource.handler method = some (.getHeadManifest head)) ∨
      resource.handler method = some .putManifest) : resource = .manifests := by
  cases resource <;> cases method <;> simp_all [Resource.handler]

theorem Resource.blobs_of_handler {resource : Resource} {method : Method} {head : Bool}
    (h : resource.handler method = some (.getHeadBlob head)) :
    resource = .blobs ∧ method = if head then .head else .get := by
  cases resource <;> cases method <;> simp_all [Resource.handler]

def ServeStage.manifestReq : ServeStage → Option ManifestReq
  | .manifest m | .manifestPull m _ => some m
  | _ => none

/-- A manifest request only reads upstream, and what its path was cut into. -/
def ManifestReq.Bound (px : Proxy) (c : ClientRequest) (m : ManifestReq) : Prop :=
  m.Reads ∧ ∀ r, m.request = some r → ∃ cut, px.Cuts c cut r ∧ cut.resource = .manifests

def Served.Bound (px : Proxy) (q : Served) : Prop :=
  ∀ m, q.stage.manifestReq = some m → m.Bound px q.req

/-- A step of a request vets the pull it begins, if it begins one. -/
def Vetted (px : Proxy) (s : Server) (q : Served) (r : Server × ServeStage) : Prop :=
  Served.Bound px { q with stage := r.2 } ∧
    (r.1.pulls = s.pulls ∨ ∃ call cut, px.Vets q.req cut call ∧
      r.1.pulls = { s.pulls with tasks := s.pulls.tasks ++ [{ call }] })

namespace Server

variable {px : Proxy} {s s' : Server} {inp : ServerInput} {q : Served} {r : Server × ServeStage}

theorem vetted_of_none {stage : ServeStage} (hn : stage.manifestReq = none)
    (hp : s'.pulls = s.pulls) : Vetted px s q (s', stage) := by
  refine ⟨fun m h => ?_, .inl hp⟩
  cases hn.symm.trans h

theorem vetted_upload {u : UploadReq} (hp : s'.pulls = s.pulls) :
    Vetted px s q (s', u.serve) := by
  cases u <;> exact vetted_of_none rfl hp

/-- The next stage of a manifest request is bound to the same path. -/
theorem vetted_manifest {m m' : ManifestReq} (hf : m.Follows m') (hb : m.Bound px q.req)
    (hp : s'.pulls = s.pulls) : Vetted px s q (s', m'.serve) := by
  have hbound : m'.Bound px q.req := ⟨hf.1, fun r hr => hb.2 r (hf.2 r hr)⟩
  cases m' with
  | done reply => exact vetted_of_none rfl hp
  | _ => exact ⟨fun n h => Option.some.inj h ▸ hbound, .inl hp⟩

/-- A pull for the registry of a bound request. -/
theorem vetted_startPull {m : ManifestReq} {request : Request} {method : Method} {subPath : String}
    {accept : Option String} (hb : m.Bound px q.req) (hm : m.request = some request)
    (hself : request.upstreamHost ≠ "self") (hget : request.method = .get ∨ request.method = .head)
    (hasks : ∀ cut : Cut, cut.resource = .manifests → cut.tail = request.tail → cut.Asks
      ⟨px.config.registries, request.upstreamHost, request.name, method, subPath, accept⟩) :
    Vetted px s q (s.startPull px request method subPath accept (.manifestPull m)) := by
  obtain ⟨cut, ⟨hauth, hpath, rfl⟩, hres⟩ := hb.2 request hm
  refine ⟨fun n h => Option.some.inj h ▸ hb, .inr ⟨_, cut, ?_, rfl⟩⟩
  exact ⟨hauth, hpath, hget, rfl, rfl, hself, rfl, hasks cut hres rfl⟩

theorem vetted_handle (px : Proxy) (s : Server) (inp : ServerInput) (q : Served) :
    Vetted px s q (s.handle px inp q.req) := by
  obtain ⟨metrics, resp, he⟩ | ⟨handler, r, hroute, he⟩ := handle_cases px s inp q.req
  · rw [he]
    exact vetted_of_none rfl rfl
  rw [he]
  obtain ⟨cut, hcuts, hhandler⟩ := routes_spec hroute
  have hstart (hres : cut.resource = .manifests) (s₁ : Server) (hp : s₁.pulls = s.pulls) :
      Vetted px s q (s₁, (ManifestReq.start r).serve) :=
    vetted_manifest (m := .start r) ⟨trivial, fun _ h => h⟩
      ⟨trivial, fun r' h => ⟨cut, Option.some.inj h ▸ hcuts, hres⟩⟩ hp
  cases handler with
  | getHeadManifest head =>
    exact hstart (Resource.manifests_of_handler (.inl ⟨head, hhandler⟩)) _ rfl
  | putManifest => exact hstart (Resource.manifests_of_handler (.inr hhandler)) _ rfl
  | getHeadBlob head =>
    obtain ⟨hres, hmethod⟩ := Resource.blobs_of_handler hhandler
    obtain ⟨reply, hb⟩ | ⟨d, hd, -, hself, hb⟩ := serveBlob_cases px
      { s with metrics := s.metrics.countHandler (.getHeadBlob head) } r head
    · rw [dispatch, hb]
      exact vetted_of_none rfl rfl
    · rw [dispatch, hb]
      refine ⟨fun m h => (by cases h), .inr ⟨_, cut, ?_, rfl⟩⟩
      obtain ⟨hauth, hpath, rfl⟩ := hcuts
      have hget : (if head then Method.head else Method.get) = .head ∨
          (if head then Method.head else Method.get) = .get := by
        cases head
        · exact .inr rfl
        · exact .inl rfl
      exact ⟨hauth, hpath, hmethod ▸ hget.symm, rfl, rfl, hself, rfl,
        .inr (.inr ⟨hres, hget, d, hd, rfl⟩)⟩
  | postBlobUpload => exact vetted_upload (u := .start r) rfl
  | patchBlobUpload => exact vetted_upload (u := .start r) rfl
  | putBlobUpload => exact vetted_upload (u := .start r) rfl
  | deleteBlobUpload => exact vetted_upload (u := .start r) rfl
  | getBlobUploadStatus => exact vetted_upload (u := .start r) rfl

theorem vetted_serve (hq : q.Bound px) (hs : s.serve px inp q = some r) : Vetted px s q r := by
  obtain ⟨hst, rfl⟩ | ⟨u, hst, rfl⟩ | ⟨m, hst, rfl⟩ | ⟨m, k, o, hst, -, rfl⟩ |
    ⟨d, head, k, o, hst, -, rfl⟩ := serve_cases hs
  · exact vetted_handle px s inp q
  · exact vetted_upload rfl
  · have hb := hq m (by rw [hst]; rfl)
    obtain ⟨r, rfl, he⟩ | ⟨r, d, rfl, he⟩ | he :=
      serveManifestReq_cases px s inp q.req.accept m
    · rw [he]
      refine vetted_startPull hb rfl hb.1.2.1 hb.1.1 fun cut hres htail => ?_
      exact .inl ⟨hres, rfl, htail ▸ hb.1.2.2, by rw [htail]⟩
    · rw [he]
      refine vetted_startPull hb rfl hb.1.2.1 hb.1.1 fun cut hres htail => ?_
      exact .inr (.inl ⟨hres, rfl, d, htail ▸ hb.1.2.2, rfl⟩)
    · rw [he]
      exact vetted_manifest (State.manifestStep_follows _ hb.1) hb rfl
  · have hb := hq m (by rw [hst]; rfl)
    obtain he | ⟨minp, he⟩ := afterManifestPull_cases px s inp m o
    · rw [he]
      exact vetted_of_none rfl rfl
    · rw [he]
      exact vetted_manifest (State.manifestStep_follows _ hb.1) hb rfl
  · obtain ⟨reply, he⟩ | ⟨resp, -, -, -, he⟩ := afterBlobPull_cases px s inp d head o
    · rw [he]
      exact vetted_of_none rfl rfl
    · rw [he]
      exact vetted_of_none rfl rfl

/-- Every pull is for a client that may ask for it, and no credential is astray. -/
structure Outward (px : Proxy) (s : Server) : Prop where
  confined : s.pulls.Confined px.pullCrates
  bound : ∀ q ∈ s.reqs, q.Bound px
  vets : ∀ t ∈ s.pulls.tasks, ∃ q ∈ s.reqs, ∃ cut, px.Vets q.req cut t.call

/-- The requests stay what they are, whatever stage they get to. -/
theorem exists_req_of_set {reqs : List Served} {i : ℕ} (hi : reqs[i]? = some q)
    (stage : ServeStage) {P : ClientRequest → Prop} (h : ∃ p ∈ reqs, P p.req) :
    ∃ p ∈ reqs.set i { q with stage }, P p.req := by
  obtain ⟨p, hp, hP⟩ := h
  obtain ⟨k, hk, rfl⟩ := List.mem_iff_getElem.mp hp
  obtain ⟨hlt, rfl⟩ := List.getElem?_eq_some_iff.mp hi
  by_cases hik : i = k
  · subst hik
    exact ⟨_, List.mem_set hk _, hP⟩
  · refine ⟨reqs[k], List.mem_iff_getElem.mpr ⟨k, by simpa using hk, ?_⟩, hP⟩
    exact List.getElem_set_ne hik _

theorem Outward.step {e : ServerEvent} (h : s.Outward px) (hs : s.step px e = some s') :
    s'.Outward px := by
  obtain ⟨now, -, rfl⟩ | ⟨c, -, rfl⟩ | ⟨i, inp, q, r, -, hq, hr, rfl⟩ |
    ⟨k, inp, t, r, -, ht, hr, rfl⟩ | ⟨j, f, fe, x, -, -, -, rfl⟩ := step_cases hs
  · exact ⟨h.confined, h.bound, h.vets⟩
  · refine ⟨h.confined, fun q hq => ?_, fun t ht => ?_⟩
    · rcases List.mem_append.mp hq with hq | hq
      · exact h.bound q hq
      · obtain rfl := List.mem_singleton.mp hq
        exact fun m hm => (by cases hm)
    · obtain ⟨q, hq, hvets⟩ := h.vets t ht
      exact ⟨q, List.mem_append_left _ hq, hvets⟩
  · obtain ⟨hbound, hpulls⟩ := vetted_serve (h.bound q (List.mem_of_getElem? hq)) hr
    have hreqs : ∀ p ∈ s.reqs.set i { q with stage := r.2 }, p.Bound px :=
      forall_mem_set h.bound hbound
    have hkept (t : PullTask) (ht : t ∈ s.pulls.tasks) :
        ∃ p ∈ s.reqs.set i { q with stage := r.2 }, ∃ cut, px.Vets p.req cut t.call :=
      exists_req_of_set (P := fun c => ∃ cut, px.Vets c cut t.call) hq r.2 (h.vets t ht)
    rcases hpulls with hpulls | ⟨call, cut, hvets, hpulls⟩
    · exact ⟨hpulls ▸ h.confined, hreqs, hpulls ▸ hkept⟩
    · have hstep : s.pulls.step px.pullCrates (.call call) = some r.1.pulls := by rw [hpulls]; rfl
      refine ⟨h.confined.step hstep, hreqs, fun t ht => ?_⟩
      rcases List.mem_append.mp (hpulls ▸ ht) with ht | ht
      · exact hkept t ht
      · obtain rfl := List.mem_singleton.mp ht
        exact exists_req_of_set (P := fun c => ∃ cut, px.Vets c cut call) hq r.2
          ⟨q, List.mem_of_getElem? hq, cut, hvets⟩
  · have hstep : s.pulls.step px.pullCrates (.step k inp) =
        some ⟨r.1, s.pulls.tasks.set k r.2⟩ := by
      simp only [PullSys.step, ht, hr, Option.map_some]
    refine ⟨h.confined.step hstep, h.bound, forall_mem_set h.vets ?_⟩
    rw [(PullTask.next_ne_start hr).2]
    exact h.vets t (List.mem_of_getElem? ht)
  · exact ⟨h.confined, h.bound, h.vets⟩

theorem Outward.init (px : Proxy) (st : State) : (Server.init st).Outward px where
  confined := PullSys.Confined.init px.pullCrates
  bound q hq := by cases hq
  vets t ht := by cases ht

end Server

/-- In every run of the proxy, a request that goes upstream is made for a client that passed the
check of its credentials and asked to read. It is a GET or a HEAD, and its URL is composed of the
registry the client's host stands for, the repository and the object the client's path names; the
host has no `/`, no `@` and no blank, and the proxy's own registry is never asked for. The
credentials that go with it are those of that registry. What a URL parser makes of a backslash or of
dot segments is not looked at. -/
theorem upstream_only_for_clients (px : Proxy) (st : State) {events : List ServerEvent} {s : Server}
    (hr : run (Server.step px) (.init st) events = some s) {t : PullTask}
    (ht : t ∈ s.pulls.tasks) :
    ∃ q ∈ s.reqs, ∃ cut, px.Vets q.req cut t.call ∧
      (∀ c ∈ cut.host.toList, c ≠ '/' ∧ c ≠ '@' ∧ c ≠ ' ') ∧
      ∀ req ∈ t.requests, req.method = t.call.method ∧
        req.url = "https://" ++ aliasHost px.config cut.host ++ "/v2/" ++ cut.name ++ "/" ++
          t.call.subPath ∧
        s.pulls.Allowed px.pullCrates t req.url req.authorization := by
  have hinv := run_invariant (I := Server.Outward px) (C := fun _ _ _ => True)
    (fun _ _ _ h _ hs => h.step hs) (Server.Outward.init px st) (along_true _ _) hr
  obtain ⟨q, hq, cut, hvets⟩ := hinv.vets t ht
  refine ⟨q, hq, cut, hvets, cutPath_host hvets.path, fun req hreq => ?_⟩
  obtain ⟨token, rfl, htok⟩ := (hinv.confined.task t ht).requests req hreq
  refine ⟨rfl, ?_, PullSys.allowed_request htok⟩
  simp only [PullCall.request, PullCall.url, hvets.host, hvets.name]

/-- A proxy without users and without configured registries. -/
def openProxy : Proxy :=
  ⟨tableCrates, bareCrates, plainStreams, fun _ => none, openRouter, 2 ^ 34⟩

def clientRequest (method : Method) (path : String) : ClientRequest where
  http := { method, path }

def tagAsked : List ServerEvent :=
  [.request (clientRequest .get "/v2/docker.io/library/alpine/manifests/latest"), .step 0 {},
    .step 0 {}, .step 0 {}, .pull 0 {}]

theorem upstream_only_for_clients_tag :
    ∃ s t, run (Server.step openProxy) (.init freshState) tagAsked = some s ∧
      t ∈ s.pulls.tasks ∧ t.call.upstreamHost = "registry-1.docker.io" ∧
      t.requests.length = 1 ∧ ∃ q ∈ s.reqs, ∃ cut, openProxy.Vets q.req cut t.call := by
  have hrun : ((run (Server.step openProxy) (.init freshState) tagAsked).bind
      fun s => s.pulls.tasks[0]?).map (fun t => (t.call.upstreamHost, t.requests.length)) =
        some ("registry-1.docker.io", 1) := by decide +kernel
  obtain ⟨t, hbind, ht⟩ := Option.map_eq_some_iff.mp hrun
  obtain ⟨s, hr, hmem⟩ := Option.bind_eq_some_iff.mp hbind
  obtain ⟨hhost, hlen⟩ := Prod.mk.inj ht
  obtain ⟨q, hq, cut, hvets, -⟩ :=
    upstream_only_for_clients openProxy freshState hr (List.mem_of_getElem? hmem)
  exact ⟨s, t, hr, List.mem_of_getElem? hmem, hhost, hlen, q, hq, cut, hvets⟩

end Dockfoxprox
