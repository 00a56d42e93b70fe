import Dockfoxprox.Model.Server
import Dockfoxprox.Proofs.Credentials
import Dockfoxprox.Proofs.Router

/-! The steps of the front end by what they do. Every invariant of the proxy is a case analysis
of these lists: one of the steps of the system, and one for each stage of a request. -/

namespace Dockfoxprox

open Machine

namespace Server

variable {px : Proxy} {s s' : Server} {e : ServerEvent}

@[simp] theorem setSt_pulls (s : Server) (st : State) : (s.setSt st).pulls = s.pulls := rfl

@[simp] theorem setSt_reqs (s : Server) (st : State) : (s.setSt st).reqs = s.reqs := rfl

@[simp] theorem setSt_fills (s : Server) (st : State) : (s.setSt st).fills = s.fills := rfl

@[simp] theorem setSt_metrics (s : Server) (st : State) : (s.setSt st).metrics = s.metrics := rfl

@[simp] theorem setSt_st (s : Server) (st : State) : (s.setSt st).st = st := rfl

/-- What a step of the proxy can be. -/
theorem step_cases (hs : s.step px e = some s') :
    (∃ now, e = .tick now ∧ s' = s.setSt { s.st with now := now }) ∨
    (∃ c, e = .request c ∧ s' = { s with reqs := s.reqs ++ [{ req := c }] }) ∨
    (∃ i inp q r, e = .step i inp ∧ s.reqs[i]? = some q ∧ s.serve px inp q = some r ∧
      s' = { r.1 with reqs := s.reqs.set i { q with stage := r.2 } }) ∨
    (∃ k inp t r, e = .pull k inp ∧ s.pulls.tasks[k]? = some t ∧
      t.next px.pullCrates s.pulls.tokens inp = some r ∧
      s' = { s with
        pulls := ⟨r.1, s.pulls.tasks.set k r.2⟩, metrics := s.metrics.countPull t r.2 inp }) ∨
    ∃ j f fe x, e = .fill j fe ∧ s.fills[j]? = some f ∧
      px.fillStep (f.over s.st) fe = some x ∧
      s' = { s.setSt x.st with fills := s.fills.set j x.filling } := by
  cases e with
  | tick now => exact .inl ⟨now, rfl, (Option.some.inj hs).symm⟩
  | request c => exact .inr (.inl ⟨c, rfl, (Option.some.inj hs).symm⟩)
  | step i inp =>
    simp only [step] at hs
    cases hq : s.reqs[i]? with
    | none =>
      rw [hq] at hs
      cases hs
    | some q =>
      rw [hq] at hs
      obtain ⟨r, hr, he⟩ := Option.map_eq_some_iff.mp hs
      exact .inr (.inr (.inl ⟨i, inp, q, r, rfl, hq, hr, he.symm⟩))
  | pull k inp =>
    simp only [step] at hs
    cases ht : s.pulls.tasks[k]? with
    | none =>
      rw [ht] at hs
      cases hs
    | some t =>
      rw [ht] at hs
      obtain ⟨r, hr, he⟩ := Option.map_eq_some_iff.mp hs
      exact .inr (.inr (.inr (.inl ⟨k, inp, t, r, rfl, ht, hr, he.symm⟩)))
  | fill j fe =>
    simp only [step] at hs
    cases hf : s.fills[j]? with
    | none =>
      rw [hf] at hs
      cases hs
    | some f =>
      rw [hf] at hs
      obtain ⟨x, hx, he⟩ := Option.map_eq_some_iff.mp hs
      exact .inr (.inr (.inr (.inr ⟨j, f, fe, x, rfl, hf, hx, he.symm⟩)))

variable {inp : ServerInput} {q : Served} {c : ClientRequest} {r : Server × ServeStage}

/-- What a step of a request can be, by its stage. -/
theorem serve_cases (hs : s.serve px inp q = some r) :
    (q.stage = .start ∧ r = s.handle px inp q.req) ∨
    (∃ u, q.stage = .upload u ∧ r = s.uploadStep px inp u) ∨
    (∃ m, q.stage = .manifest m ∧ r = s.serveManifestReq px inp q.req.accept m) ∨
    (∃ m k o, q.stage = .manifestPull m k ∧ s.outcome k = some o ∧
      r = s.afterManifestPull px inp m o) ∨
    ∃ d head k o, q.stage = .blobPull d head k ∧ s.outcome k = some o ∧
      r = s.afterBlobPull px inp d head o := by
  unfold serve at hs
  cases hst : q.stage with
  | start =>
    rw [hst] at hs
    exact .inl ⟨rfl, (Option.some.inj hs).symm⟩
  | upload u =>
    rw [hst] at hs
    exact .inr (.inl ⟨u, rfl, (Option.some.inj hs).symm⟩)
  | manifest m =>
    rw [hst] at hs
    exact .inr (.inr (.inl ⟨m, rfl, (Option.some.inj hs).symm⟩))
  | manifestPull m k =>
    rw [hst] at hs
    obtain ⟨o, ho, he⟩ := Option.map_eq_some_iff.mp hs
    exact .inr (.inr (.inr (.inl ⟨m, k, o, rfl, ho, he.symm⟩)))
  | blobPull d head k =>
    rw [hst] at hs
    obtain ⟨o, ho, he⟩ := Option.map_eq_some_iff.mp hs
    exact .inr (.inr (.inr (.inr ⟨d, head, k, o, rfl, ho, he.symm⟩)))
  | done reply =>
    rw [hst] at hs
    cases hs

/-- The first step of a request: it is answered, with at most a counter changed, or dispatched. -/
theorem handle_cases (px : Proxy) (s : Server) (inp : ServerInput) (c : ClientRequest) :
    (∃ metrics resp, s.handle px inp c = ({ s with metrics }, .done (.response resp))) ∨
    ∃ handler r, handleRequestInner px.base64Decode px.config c.http = .ok (.handler handler r) ∧
      s.handle px inp c =
        dispatch px { s with metrics := s.metrics.countHandler handler } handler r := by
  unfold handle
  split
  · unfold handleRequest
    cases hroute : handleRequestInner px.base64Decode px.config c.http with
    | error e => exact .inl ⟨_, _, rfl⟩
    | ok routed =>
      cases routed with
      | version => exact .inl ⟨s.metrics, _, rfl⟩
      | handler handler r => exact .inr ⟨handler, r, rfl, rfl⟩
  · split
    · exact .inl ⟨s.metrics, _, rfl⟩
    · exact .inl ⟨s.metrics, _, rfl⟩

theorem blobResponse_ne_miss (streams : Streams) (mediaType : String) (digest d : Digest) (len : ℕ)
    (frames : List Bytes) : blobResponse streams mediaType digest len frames ≠ .miss d := by
  unfold blobResponse
  split <;> simp

/-- A blob is missed only where it is not cached and not the proxy's own. -/
theorem getHeadBlob_miss {streams : Streams} {st : State} {host digest : String} {head : Bool}
    {d : Digest} (h : (getHeadBlob streams st host digest head).2 = .miss d) :
    Digest.fromStr digest = some d ∧ st.blobs.lookup d = none ∧ host ≠ "self" ∧
      (getHeadBlob streams st host digest head).1 = st := by
  unfold getHeadBlob at h ⊢
  cases hd : Digest.fromStr digest with
  | none =>
    rw [hd] at h
    cases h
  | some d' =>
    rw [hd] at h
    dsimp only at h ⊢
    cases hb : st.blobs.lookup d' with
    | none =>
      rw [hb] at h
      dsimp only at h
      by_cases hself : host = "self"
      · rw [if_pos hself] at h
        cases h
      · rw [if_neg hself] at h
        obtain rfl := BlobReply.miss.inj h
        exact ⟨rfl, hb, hself, by simp [hself]⟩
    | some b =>
      rw [hb] at h
      cases b with
      | inMemory id content mediaType t => exact absurd h (blobResponse_ne_miss _ _ _ _ _ _)
      | onDisk id size mediaType t =>
        simp only [serveDiskBlob] at h
        split at h
        · exact absurd h (blobResponse_ne_miss _ _ _ _ _ _)
        · split at h
          · cases h
          · exact absurd h (blobResponse_ne_miss _ _ _ _ _ _)

/-- A blob request is answered from the cache, or begins a pull for what it misses. -/
theorem serveBlob_cases (px : Proxy) (s : Server) (r : Request) (head : Bool) :
    (∃ reply, s.serveBlob px r head =
      ({ s.setSt (getHeadBlob px.streams s.st r.upstreamHost r.tail head).1 with
          metrics := s.metrics.countBlob s.st r.upstreamHost r.tail }, .done reply)) ∨
    ∃ d, Digest.fromStr r.tail = some d ∧ s.st.blobs.lookup d = none ∧ r.upstreamHost ≠ "self" ∧
      s.serveBlob px r head =
        startPull px { s with metrics := s.metrics.countBlob s.st r.upstreamHost r.tail } r
          (if head then .head else .get) ("blobs/" ++ d.toText) none (.blobPull d head) := by
  unfold serveBlob
  generalize hfound : getHeadBlob px.streams s.st r.upstreamHost r.tail head = found
  obtain ⟨st, reply⟩ := found
  cases reply with
  | response resp => exact .inl ⟨_, rfl⟩
  | panic => exact .inl ⟨_, rfl⟩
  | notFound => exact .inl ⟨_, rfl⟩
  | miss d =>
    obtain ⟨hd, hb, hself, hst⟩ := getHeadBlob_miss (congrArg Prod.snd hfound)
    rw [hfound] at hst
    subst hst
    exact .inr ⟨d, hd, hb, hself, rfl⟩

/-- A manifest request begins a pull or takes a step of its own. -/
theorem serveManifestReq_cases (px : Proxy) (s : Server) (inp : ServerInput)
    (clientAccept : Option String) (m : ManifestReq) :
    (∃ r, m = .resolve r ∧ s.serveManifestReq px inp clientAccept m =
      s.startPull px r .head ("manifests/" ++ r.tail) (some (manifestAccept clientAccept))
        (.manifestPull m)) ∨
    (∃ r d, m = .fetch r d ∧ s.serveManifestReq px inp clientAccept m =
      s.startPull px r .get ("manifests/" ++ d.toText) (some (manifestAccept clientAccept))
        (.manifestPull m)) ∨
    s.serveManifestReq px inp clientAccept m = s.manifestStep px { body := inp.body } m := by
  cases m with
  | resolve r => exact .inl ⟨r, rfl, rfl⟩
  | fetch r d => exact .inr (.inl ⟨r, d, rfl, rfl⟩)
  | start r => exact .inr (.inr rfl)
  | lookup r d => exact .inr (.inr rfl)
  | putBody r => exact .inr (.inr rfl)
  | putInsert r body => exact .inr (.inr rfl)
  | putTag r d => exact .inr (.inr rfl)
  | putDigest r d => exact .inr (.inr rfl)
  | done reply => exact .inr (.inr rfl)

theorem afterManifestPull_cases (px : Proxy) (s : Server) (inp : ServerInput) (m : ManifestReq)
    (o : PullOutcome) :
    s.afterManifestPull px inp m o = (s, .done .panicked) ∨
    ∃ minp, s.afterManifestPull px inp m o = s.manifestStep px minp m := by
  cases o with
  | panicked => exact .inl rfl
  | error e => exact .inr ⟨_, rfl⟩
  | ok resp => exact .inr ⟨_, rfl⟩

/-- After its pull a blob request is answered; one that is to be streamed leaves a fill. -/
theorem afterBlobPull_cases (px : Proxy) (s : Server) (inp : ServerInput) (d : Digest)
    (head : Bool) (o : PullOutcome) :
    (∃ reply, s.afterBlobPull px inp d head o = (s, .done reply)) ∨
    ∃ resp, o = .ok resp ∧ isSuccess resp.status ∧ head = false ∧
      s.afterBlobPull px inp d head o =
        ({ s with fills := s.fills ++ [{ task := inp.head.fill d }] },
          .done (.filling (inp.head.missHeaders d) s.fills.length)) := by
  cases o with
  | panicked => exact .inl ⟨_, rfl⟩
  | error e => exact .inl ⟨_, rfl⟩
  | ok resp =>
    cases hok : isSuccess resp.status with
    | false => exact .inl ⟨_, by simp only [afterBlobPull, hok]; rfl⟩
    | true =>
      cases head with
      | true => exact .inl ⟨_, by simp only [afterBlobPull, hok]; rfl⟩
      | false => exact .inr ⟨resp, rfl, hok, rfl, by simp only [afterBlobPull, hok]; rfl⟩

end Server

end Dockfoxprox
