import Dockfoxprox.Proofs.Outgoing
import Dockfoxprox.Proofs.Provenance

/-! What clients are served out of the blob cache hashes to the digest they asked for, whatever an
upstream sends: a fill is checked before it is cached. -/

namespace Dockfoxprox

open Machine MapSum

/-- The bytes of every cached blob, in memory or in its file, hash to its digest. -/
def State.Genuine (crates : Crates) (s : State) : Prop :=
  ∀ d v, s.value (.inl d) = some v → crates.sha256 v = d

/-- A reply with the content of `d`: it names `d`, a GET is sent bytes that hash to it, and a HEAD
none. -/
structure Carries (crates : Crates) (method : Method) (d : Digest)
    (headers : List (String × String)) (body : Bytes) : Prop where
  names : ("docker-content-digest", d.toText) ∈ headers
  get : method = .get → crates.sha256 body = d
  head : method = .head → body = []

variable {crates : Crates}

namespace State

variable {s s' : State}

theorem Genuine.of_eq (h : s.Genuine crates) (hb : s'.blobs = s.blobs) (hf : s'.files = s.files) :
    s'.Genuine crates := by
  intro d v hv
  refine h d v ?_
  rw [← hv]
  simp only [value, hb]
  cases s.blobs.lookup d with
  | none => rfl
  | some b => cases b <;> simp [blobBytes, hf]

theorem Genuine.addressed (h : s.Genuine crates) : s.BlobsAddressed crates := by
  intro d id content mt t hl
  exact h d content (by simp [value, hl, blobBytes])

/-- A new entry under `d` whose bytes, if it has any, hash to `d`. -/
theorem Genuine.insert (h : s.Genuine crates) {d : Digest} {b : Blob}
    (hs : s'.blobs = s.blobs.insert d b) (hf : s'.files = s.files)
    (hb : ∀ v, s.blobBytes b = some v → crates.sha256 v = d) : s'.Genuine crates := by
  have hbytes (b : Blob) : s'.blobBytes b = s.blobBytes b := by
    cases b <;> simp [blobBytes, hf]
  intro d' v hv
  simp only [value, hs, lookup_insert_apply] at hv
  by_cases hd : d' = d
  · subst hd
    simp only [if_true, Option.bind_some, hbytes] at hv
    exact hb v hv
  · simp only [if_neg hd] at hv
    refine h d' v ?_
    simp only [value, ← hv]
    cases s.blobs.lookup d' with
    | none => rfl
    | some b => exact (hbytes b).symm

theorem Genuine.storeBlob (h : s.Genuine crates) {d : Digest} {content : Bytes}
    (hc : crates.sha256 content = d) (mt : String) : (s.storeBlob d content mt).Genuine crates := by
  obtain ⟨usage, he⟩ := storeBlob_eq s d content mt
  rw [he]
  refine h.insert rfl rfl fun v hv => ?_
  obtain rfl := Option.some.inj hv
  exact hc

theorem Genuine.getHeadBlob (h : s.Genuine crates) (streams : Streams) (host digest : String)
    (head : Bool) : (getHeadBlob streams s host digest head).1.Genuine crates := by
  unfold Dockfoxprox.getHeadBlob
  cases Digest.fromStr digest with
  | none => exact h
  | some d =>
    dsimp only
    cases hb : s.blobs.lookup d with
    | none =>
      dsimp only
      split <;> exact h
    | some b =>
      refine h.insert rfl rfl fun v hv => h d v ?_
      simp only [value, hb, Option.bind_some, ← hv]
      cases b <;> rfl

/-- The manifest handlers leave the blobs and the files alone. -/
theorem manifestStep_blobs (crates : Crates) (s : State) (inp : ManifestInput) (q : ManifestReq) :
    (s.manifestStep crates inp q).1.blobs = s.blobs ∧
      (s.manifestStep crates inp q).1.files = s.files := by
  cases q with
  | lookup r d =>
    simp only [manifestStep, lookupManifest]
    cases s.manifests.lookup d with
    | some m => exact ⟨rfl, rfl⟩
    | none =>
      dsimp only
      split <;> exact ⟨rfl, rfl⟩
  | fetch r d =>
    simp only [manifestStep, fetchManifest]
    cases inp.answer with
    | error e => exact ⟨rfl, rfl⟩
    | ok resp =>
      dsimp only
      split
      · exact ⟨rfl, rfl⟩
      · cases resp.body with
        | error e => exact ⟨rfl, rfl⟩
        | ok body => exact ⟨rfl, rfl⟩
  | _ => exact ⟨rfl, rfl⟩

end State

theorem blobResponse_carries {streams : Streams} {mediaType : String} {d : Digest} {len : ℕ}
    {frames : List Bytes} {head : Bool} {resp : StreamedResponse}
    (hr : blobResponse streams mediaType d len frames = .response resp)
    (hget : head = false → crates.sha256 frames.flatten = d) (hhead : head = true → frames = []) :
    Carries crates (if head then .head else .get) d resp.headers resp.frames.flatten := by
  unfold blobResponse at hr
  split at hr
  · obtain rfl := BlobReply.response.inj hr
    refine ⟨by simp, fun hm => hget ?_, fun hm => ?_⟩
    · cases head
      · rfl
      · cases hm
    · have hnone : frames = [] := hhead (by cases head <;> simp_all)
      simp only [hnone, List.flatten_nil]
  · cases hr

/-- A hit carries the content of the digest the client asked for. -/
theorem getHeadBlob_carries {streams : Streams} {s : State} {host digest : String} {head : Bool}
    {resp : StreamedResponse} (h : s.Genuine crates)
    (hr : (getHeadBlob streams s host digest head).2 = .response resp) (hok : resp.status = 200) :
    ∃ d, Digest.fromStr digest = some d ∧
      Carries crates (if head then .head else .get) d resp.headers resp.frames.flatten := by
  unfold getHeadBlob at hr
  cases hd : Digest.fromStr digest with
  | none =>
    rw [hd] at hr
    obtain rfl := BlobReply.response.inj hr
    cases hok
  | some d =>
    rw [hd] at hr
    refine ⟨d, rfl, ?_⟩
    dsimp only at hr
    cases hb : s.blobs.lookup d with
    | none =>
      rw [hb] at hr
      dsimp only at hr
      split at hr <;> cases hr
    | some b =>
      rw [hb] at hr
      have hgenuine (v : Bytes) (hv : s.blobBytes b = some v) : crates.sha256 v = d :=
        h d v (by simp only [State.value, hb, Option.bind_some, hv])
      cases b with
      | inMemory id content mediaType t =>
        refine blobResponse_carries hr (fun hg => ?_) fun hh => by simp [hh]
        simpa [hg] using hgenuine content rfl
      | onDisk id size mediaType t =>
        simp only [serveDiskBlob] at hr
        cases head with
        | true => exact blobResponse_carries hr (fun hg => (by cases hg)) fun _ => rfl
        | false =>
          simp only [Bool.false_eq_true, if_false] at hr
          cases hf : s.files.lookup id with
          | none =>
            rw [hf] at hr
            obtain rfl := BlobReply.response.inj hr
            cases hok
          | some content =>
            rw [hf] at hr
            refine blobResponse_carries hr (fun _ => ?_) fun hh => (by cases hh)
            rw [streams.frames_flatten]
            exact hgenuine content hf

namespace Uploads

variable {u : Uploads}

theorem start_st (u : Uploads) (crates : Crates) (fresh : Uuid) (r : Request) :
    (u.start crates fresh r).1.st = u.st := by
  have hself {host : String} {method : Method} {k : Uploads × UploadReq} (hk : k.1.st = u.st) :
      (u.selfOnly host method k).1.st = u.st := by
    unfold selfOnly
    split
    · rfl
    · exact hk
  unfold start
  cases r.method with
  | post =>
    apply hself
    split
    · split <;> rfl
    · rfl
  | patch => exact hself rfl
  | put => exact hself rfl
  | delete =>
    apply hself
    split <;> rfl
  | get => exact hself rfl
  | head => rfl

/-- An upload request stores only what it has checked. -/
theorem step_genuine (h : u.st.Genuine crates) (inp : Input) {q : UploadReq}
    (hq : q.Checked crates) : (u.step crates inp q).1.st.Genuine crates := by
  cases q with
  | start r =>
    have hst : (u.step crates inp (.start r)).1.st = u.st := u.start_st crates inp.uuid r
    rw [hst]
    exact h
  | store name got content => exact h.storeBlob hq _
  | putLock name uuid expected upload chunk =>
    simp only [step, putSection]
    split <;> exact h
  | _ => exact h

end Uploads

/-- The buffer of a fill and its hasher agree, and what it is about to insert has been checked. -/
structure FillTask.Whole (crates : Crates) (t : FillTask) : Prop where
  agree : t.hasher.fed = t.buf
  checked : t.stage = .inserting → crates.sha256 t.buf = t.digest

/-- A fill stores only what hashes to its digest, whatever upstream sends. -/
theorem FillSys.step_genuine {x x' : FillSys} {e : FillEvent} {allocatable : ℕ}
    (h : x.st.Genuine crates) (ht : x.task.Whole crates)
    (hs : x.step crates allocatable e = some x') :
    x'.st.Genuine crates ∧ x'.task.Whole crates := by
  cases e with
  | tick now =>
    cases hs
    exact ⟨h.of_eq rfl rfl, ht⟩
  | poll =>
    simp only [step] at hs
    split at hs
    · cases hs
      exact ⟨h, ht⟩
    · cases hs
  | disconnect =>
    simp only [step] at hs
    split at hs
    · cases hs
      exact ⟨h, ht⟩
    · cases hs
  | task =>
    simp only [step] at hs
    cases hst : x.task.stage with
    | start =>
      rw [hst] at hs
      cases hs
      refine ⟨h, ht.agree, fun hins => ?_⟩
      simp only [allocate] at hins
      split at hins
      · cases hins
      · split at hins <;> cases hins
    | reading =>
      rw [hst] at hs
      cases hs
      unfold read
      cases x.task.stream.chunks with
      | cons chunk chunks =>
        refine ⟨h, by simp [ht.agree], fun hins => ?_⟩
        dsimp only at hins
        split at hins <;> cases hins
      | nil =>
        cases x.task.stream.error with
        | some e =>
          refine ⟨h, ht.agree, fun hins => ?_⟩
          dsimp only at hins
          split at hins <;> cases hins
        | none =>
          refine ⟨h, ht.agree, fun hins => ?_⟩
          dsimp only at hins ⊢
          split at hins
          · cases hins
          · rename_i hsum
            rw [← ht.agree]
            exact not_not.mp hsum
    | sending frame =>
      rw [hst] at hs
      have hafter : afterSend frame ≠ .inserting := by cases frame <;> simp [afterSend]
      simp only [send] at hs
      split at hs
      · split at hs
        · cases hs
          exact ⟨h, ht.agree, fun hins => absurd hins hafter⟩
        · cases hs
      · cases hs
        exact ⟨h, ht.agree, fun hins => absurd hins hafter⟩
    | inserting =>
      rw [hst] at hs
      cases hs
      exact ⟨h.storeBlob (ht.checked hst) _, ht.agree, fun hins => (by cases hins)⟩
    | finished | panicked | aborted =>
      rw [hst] at hs
      cases hs

/-- What a request is about to store has been checked, and the reply it got from the cache carries
the blob its path names. -/
def Served.BlobGenuine (px : Proxy) (q : Served) : Prop :=
  match q.stage with
  | .upload u => u.Checked px.crates
  | .done (.streamed resp) => resp.status = 200 →
    ∃ cut d, cutPath q.req.http.path = .ok cut ∧ cut.resource = .blobs ∧
      Digest.fromStr cut.tail = some d ∧
      Carries px.crates q.req.http.method d resp.headers resp.frames.flatten
  | _ => True

def ServeStage.FinalizesWhole (crates : Crates) (u : Uploads) : ServeStage → Prop
  | .upload q => q.FinalizesWhole crates u
  | _ => True

instance (crates : Crates) (u : Uploads) (stage : ServeStage) :
    Decidable (stage.FinalizesWhole crates u) :=
  match stage with
  | .upload q => inferInstanceAs (Decidable (q.FinalizesWhole crates u))
  | .start | .manifest _ | .manifestPull _ _ | .blobPull _ _ _ | .done _ => isTrue trivial

namespace Server

/-- No upload is finalized again after bytes were taken out of it. -/
def TakenOnce (px : Proxy) (s : Server) (e : ServerEvent) (_ : Server) : Prop :=
  match e with
  | .step i _ => ∀ q ∈ s.reqs[i]?, q.stage.FinalizesWhole px.crates s.uploads
  | _ => True

instance (px : Proxy) (s : Server) (e : ServerEvent) (s' : Server) :
    Decidable (TakenOnce px s e s') :=
  match e with
  | .step i _ => inferInstanceAs
      (Decidable (∀ q ∈ s.reqs[i]?, q.stage.FinalizesWhole px.crates s.uploads))
  | .tick _ | .request _ | .pull _ _ | .fill _ _ => isTrue trivial

/-- The shared part of the proxy: what is cached is genuine, and so is what the uploads and the
fills under way are going to store. -/
structure BlobsSound (px : Proxy) (s : Server) : Prop where
  uploads : s.uploads.Whole px.crates
  genuine : s.st.Genuine px.crates
  fills : ∀ f ∈ s.fills, f.task.Whole px.crates

variable {px : Proxy} {s s' : Server} {inp : ServerInput} {q : Served} {r : Server × ServeStage}

/-- The cache changes; uploads and fills do not. -/
theorem BlobsSound.setSt (h : s.BlobsSound px) {st : State} (hst : st.Genuine px.crates)
    (hu : s'.uploads = { s.uploads with st := st }) (hf : s'.fills = s.fills) :
    s'.BlobsSound px where
  uploads := by
    rw [hu]
    exact ⟨hst.addressed, h.uploads.agree⟩
  genuine := by
    rw [Server.st, hu]
    exact hst
  fills := by
    rw [hf]
    exact h.fills

theorem BlobsSound.of_eq (h : s.BlobsSound px) (hu : s'.uploads = s.uploads)
    (hf : s'.fills = s.fills) : s'.BlobsSound px :=
  h.setSt h.genuine (by rw [hu]; rfl) hf

theorem serveBlob_streamed {request : Request} {head : Bool} {resp : StreamedResponse}
    (hr : (s.serveBlob px request head).2 = .done (.streamed resp)) :
    (getHeadBlob px.streams s.st request.upstreamHost request.tail head).2 = .response resp := by
  unfold serveBlob at hr
  cases hfound : (getHeadBlob px.streams s.st request.upstreamHost request.tail head).2 with
  | response resp' =>
    simp only [hfound] at hr
    obtain rfl := ServerReply.streamed.inj (ServeStage.done.inj hr)
    rfl
  | panic =>
    simp only [hfound] at hr
    cases hr
  | notFound =>
    simp only [hfound] at hr
    cases hr
  | miss d =>
    simp only [hfound] at hr
    cases hr

theorem BlobsSound.handle (h : s.BlobsSound px) (inp : ServerInput) (q : Served) :
    (s.handle px inp q.req).1.BlobsSound px ∧
      Served.BlobGenuine px { q with stage := (s.handle px inp q.req).2 } := by
  obtain ⟨metrics, resp, he⟩ | ⟨handler, request, hroute, he⟩ := handle_cases px s inp q.req
  · rw [he]
    exact ⟨h.of_eq rfl rfl, trivial⟩
  rw [he]
  have hcounted (metrics : DockerMetrics) : ({ s with metrics } : Server).BlobsSound px :=
    h.of_eq rfl rfl
  cases handler with
  | getHeadManifest head => exact ⟨hcounted _, trivial⟩
  | putManifest => exact ⟨hcounted _, trivial⟩
  | getHeadBlob head =>
    obtain ⟨cut, hcuts, hhandler⟩ := routes_spec hroute
    obtain ⟨hres, hmethod⟩ := Resource.blobs_of_handler hhandler
    obtain ⟨reply, hb⟩ | ⟨d, -, -, -, hb⟩ := serveBlob_cases px
      { s with metrics := s.metrics.countHandler (.getHeadBlob head) } request head
    · refine ⟨?_, ?_⟩
      · rw [dispatch, hb]
        exact h.setSt (h.genuine.getHeadBlob px.streams _ _ head) rfl rfl
      · rw [dispatch]
        cases reply with
        | streamed resp =>
          rw [hb]
          intro hok
          have hfound := serveBlob_streamed (congrArg Prod.snd hb)
          obtain ⟨d, hd, hcarries⟩ := getHeadBlob_carries h.genuine hfound hok
          refine ⟨cut, d, hcuts.path, hres, ?_, hmethod ▸ hcarries⟩
          rw [← hd, hcuts.request]
        | _ =>
          rw [hb]
          trivial
    · rw [dispatch, hb]
      exact ⟨h.of_eq rfl rfl, trivial⟩
  | _ => exact ⟨hcounted _, trivial⟩

theorem BlobsSound.manifestStep (h : s.BlobsSound px) (inp : ManifestInput) (m : ManifestReq) :
    (s.manifestStep px inp m).1.BlobsSound px ∧
      Served.BlobGenuine px { q with stage := (s.manifestStep px inp m).2 } := by
  obtain ⟨hb, hf⟩ := State.manifestStep_blobs px.crates s.st inp m
  refine ⟨h.setSt (h.genuine.of_eq hb hf) rfl rfl, ?_⟩
  unfold Server.manifestStep
  dsimp only
  cases (s.st.manifestStep px.crates inp m).2 <;> trivial

/-- After a pull nothing is served from the cache. -/
theorem afterBlobPull_ne (px : Proxy) (s : Server) (inp : ServerInput) (d : Digest) (head : Bool)
    (o : PullOutcome) (resp : StreamedResponse) :
    (s.afterBlobPull px inp d head o).2 ≠ .done (.streamed resp) := by
  unfold afterBlobPull
  cases o with
  | ok resp =>
    dsimp only
    split
    · simp
    · split <;> simp
  | _ => simp

theorem BlobsSound.serve (h : s.BlobsSound px) (hq : q.BlobGenuine px)
    (hc : q.stage.FinalizesWhole px.crates s.uploads)
    (hs : s.serve px inp q = some r) :
    r.1.BlobsSound px ∧ Served.BlobGenuine px { q with stage := r.2 } := by
  obtain ⟨hst, rfl⟩ | ⟨u, hst, rfl⟩ | ⟨m, hst, rfl⟩ | ⟨m, k, o, hst, -, rfl⟩ |
    ⟨d, head, k, o, hst, -, rfl⟩ := serve_cases hs
  · exact h.handle inp q
  · have hchecked : u.Checked px.crates := by simpa only [Served.BlobGenuine, hst] using hq
    rw [hst] at hc
    obtain ⟨hwhole, hnext⟩ := h.uploads.step ⟨inp.uuid, inp.body⟩ hchecked hc
    refine ⟨⟨hwhole, Uploads.step_genuine h.genuine _ hchecked, h.fills⟩, ?_⟩
    unfold uploadStep
    dsimp only
    generalize (s.uploads.step px.crates ⟨inp.uuid, inp.body⟩ u).2 = u' at hnext
    cases u' with
    | done reply => trivial
    | _ => exact hnext
  · obtain ⟨request, rfl, he⟩ | ⟨request, d, rfl, he⟩ | he :=
      serveManifestReq_cases px s inp q.req.accept m
    · rw [he]
      exact ⟨h.of_eq rfl rfl, trivial⟩
    · rw [he]
      exact ⟨h.of_eq rfl rfl, trivial⟩
    · rw [he]
      exact h.manifestStep _ m
  · obtain he | ⟨minp, he⟩ := afterManifestPull_cases px s inp m o
    · rw [he]
      exact ⟨h, trivial⟩
    · rw [he]
      exact h.manifestStep minp m
  · obtain ⟨reply, he⟩ | ⟨resp, -, -, -, he⟩ := afterBlobPull_cases px s inp d head o
    · have hne := afterBlobPull_ne px s inp d head o
      rw [he] at hne ⊢
      refine ⟨h, ?_⟩
      cases reply with
      | streamed resp => exact absurd rfl (hne resp)
      | _ => trivial
    · rw [he]
      refine ⟨⟨h.uploads, h.genuine, fun f hf => ?_⟩, trivial⟩
      rcases List.mem_append.mp hf with hf | hf
      · exact h.fills f hf
      · obtain rfl := List.mem_singleton.mp hf
        exact ⟨rfl, fun hins => (by cases hins)⟩

/-- The whole proxy: what is cached is genuine, and so is what was served out of the cache. -/
structure BlobsGenuine (px : Proxy) (s : Server) : Prop where
  sound : s.BlobsSound px
  reqs : ∀ q ∈ s.reqs, q.BlobGenuine px

theorem BlobsGenuine.step {e : ServerEvent} (h : s.BlobsGenuine px) (hc : TakenOnce px s e s')
    (hs : s.step px e = some s') : s'.BlobsGenuine px := by
  obtain ⟨now, -, rfl⟩ | ⟨c, -, rfl⟩ | ⟨i, inp, q, r, rfl, hq, hr, rfl⟩ |
    ⟨k, inp, t, r, -, -, -, rfl⟩ | ⟨j, f, fe, x, -, hf, hx, rfl⟩ := step_cases hs
  · have hgenuine : State.Genuine px.crates { s.st with now := now } :=
      h.sound.genuine.of_eq rfl rfl
    exact ⟨h.sound.setSt hgenuine rfl rfl, h.reqs⟩
  · refine ⟨h.sound.of_eq rfl rfl, fun q hq => ?_⟩
    rcases List.mem_append.mp hq with hq | hq
    · exact h.reqs q hq
    · obtain rfl := List.mem_singleton.mp hq
      trivial
  · obtain ⟨hsound, hgenuine⟩ := h.sound.serve (h.reqs q (List.mem_of_getElem? hq)) (hc q hq) hr
    exact ⟨hsound.of_eq rfl rfl, forall_mem_set h.reqs hgenuine⟩
  · exact ⟨h.sound.of_eq rfl rfl, h.reqs⟩
  · have hwhole := h.sound.fills f (List.mem_of_getElem? hf)
    obtain ⟨hx, -⟩ := Option.filter_eq_some_iff.mp hx
    obtain ⟨hgenuine, hwhole⟩ := FillSys.step_genuine h.sound.genuine hwhole hx
    have hset : (s.setSt x.st).BlobsSound px := h.sound.setSt hgenuine rfl rfl
    exact ⟨⟨hset.uploads, hset.genuine, forall_mem_set h.sound.fills hwhole⟩, h.reqs⟩

theorem BlobsGenuine.init {st : State} (h : st.Genuine px.crates) :
    (Server.init st).BlobsGenuine px where
  sound := ⟨⟨h.addressed, fun _ _ => rfl⟩, h, fun f hf => (by cases hf)⟩
  reqs q hq := by cases hq

end Server

/-- No client can be served a wrong blob from the cache, whatever upstream sends. In every run of
the proxy from genuine content in which no upload is finalized again after bytes were taken out of
it, all cached bytes hash to their digests, and every 200 from the cache is for the digest that the
client's path names: a GET is sent bytes that hash to it, a HEAD none. -/
theorem cached_blobs_served_genuine (px : Proxy) {st : State} (hst : st.Genuine px.crates)
    {events : List ServerEvent} {s : Server}
    (hc : Along (Server.step px) (Server.TakenOnce px) (.init st) events)
    (hr : run (Server.step px) (.init st) events = some s) :
    s.st.Genuine px.crates ∧
    ∀ q ∈ s.reqs, ∀ resp, q.stage = .done (.streamed resp) → resp.status = 200 →
      ∃ cut d, cutPath q.req.http.path = .ok cut ∧ cut.resource = .blobs ∧
        Digest.fromStr cut.tail = some d ∧
        Carries px.crates q.req.http.method d resp.headers resp.frames.flatten := by
  have hinv := run_invariant (I := Server.BlobsGenuine px) (C := Server.TakenOnce px)
    (fun _ _ _ h hc hs => h.step hc hs) (Server.BlobsGenuine.init hst) hc hr
  refine ⟨hinv.sound.genuine, fun q hq resp hdone hok => ?_⟩
  have hgenuine := hinv.reqs q hq
  rw [Served.BlobGenuine, hdone] at hgenuine
  exact hgenuine hok

/-- A client is streamed a blob while it is filled; the next one gets it from the cache. -/
def blobPulled : List ServerEvent :=
  let path := "/v2/docker.io/library/alpine/blobs/" ++ letterDigest.toText
  [.request (clientRequest .get path), .step 0 {}, .pull 0 {},
    .pull 0 { answer := .ok ⟨200, none⟩ }, .step 0 { head := { stream := ⟨[utf8 "a"], none⟩ } },
    .fill 0 .task, .fill 0 .task, .fill 0 .task, .fill 0 .task, .fill 0 .task,
    .request (clientRequest .get path), .step 1 {}]

theorem cached_blobs_served_genuine_pulled :
    ∃ s q resp, run (Server.step openProxy) (.init freshState) blobPulled = some s ∧
      s.reqs[1]? = some q ∧ q.stage = .done (.streamed resp) ∧ resp.frames = [utf8 "a"] ∧
      ∃ d, Carries openProxy.crates q.req.http.method d resp.headers resp.frames.flatten := by
  have hrun : ((run (Server.step openProxy) (.init freshState) blobPulled).bind
      fun s => s.reqs[1]?).bind (fun q => match q.stage with
        | .done (.streamed resp) => some (resp.status, resp.frames)
        | _ => none) = some (200, [utf8 "a"]) := by decide +kernel
  obtain ⟨q, hbind, hq⟩ := Option.bind_eq_some_iff.mp hrun
  obtain ⟨s, hr, hmem⟩ := Option.bind_eq_some_iff.mp hbind
  split at hq
  · rename_i resp hdone
    obtain ⟨hok, hframes⟩ := Prod.mk.inj (Option.some.inj hq)
    obtain ⟨-, hserved⟩ := cached_blobs_served_genuine openProxy
      (fun d v hv => by cases hv) (by decide +kernel) hr
    obtain ⟨cut, d, -, -, -, hcarries⟩ :=
      hserved q (List.mem_of_getElem? hmem) resp hdone hok
    exact ⟨s, q, resp, hr, hmem, hdone, hframes, d, hcarries⟩
  · cases hq

end Dockfoxprox
