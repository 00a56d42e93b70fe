import Dockfoxprox.Proofs.Calls
import Dockfoxprox.Proofs.Outgoing
import Mathlib.Algebra.Order.BigOperators.Group.List
import Mathlib.Algebra.Order.Group.Nat

/-! How much work a client can cause. Each stage of a request and of a pull has a number of steps
that are left; a request begins at most two pulls, and one that waits does so for a pull that can
move or is over. -/

namespace Dockfoxprox

open Machine

def UploadReq.left : UploadReq → ℕ
  | .start _ => 5
  | .putBody .. => 4
  | .putLock .. => 3
  | .putRemove .. | .postBody .. | .patchBody .. => 2
  | .patchLock .. | .store .. | .statusLock .. => 1
  | .done _ => 0

/-- The steps a manifest request has left, those after a pull included. -/
def ManifestReq.left : ManifestReq → ℕ
  | .start _ => 5
  | .resolve _ | .putBody _ => 4
  | .putInsert .. => 3
  | .putTag .. | .lookup .. => 2
  | .putDigest .. | .fetch .. => 1
  | .done _ => 0

/-- The pulls a manifest request may still begin. -/
def ManifestReq.starts : ManifestReq → ℕ
  | .start _ | .resolve _ => 2
  | .lookup .. | .fetch .. => 1
  | _ => 0

/-- The stages of a manifest request that go upstream. -/
def ManifestReq.Asks : ManifestReq → Prop
  | .resolve _ | .fetch .. => True
  | _ => False

namespace ServeStage

def left : ServeStage → ℕ
  | .start => 7
  | .upload u => u.left + 1
  | .manifest m => m.left + 1
  | .manifestPull m _ => m.left
  | .blobPull .. => 1
  | .done _ => 0

def starts : ServeStage → ℕ
  | .start => 2
  | .manifest m => m.starts
  | .manifestPull m _ => m.starts - 1
  | _ => 0

def waits : ServeStage → Option ℕ
  | .manifestPull _ pull | .blobPull _ _ pull => some pull
  | _ => none

/-- A request waits for one of `n` pulls, and only where it goes upstream. -/
def Awaits (n : ℕ) : ServeStage → Prop
  | .manifestPull m pull => m.Asks ∧ pull < n
  | .blobPull _ _ pull => pull < n
  | _ => True

theorem Awaits.mono {n n' : ℕ} {stage : ServeStage} (h : stage.Awaits n) (hn : n ≤ n') :
    stage.Awaits n' := by
  cases stage with
  | manifestPull m pull => exact ⟨h.1, Nat.lt_of_lt_of_le h.2 hn⟩
  | blobPull d head pull => exact Nat.lt_of_lt_of_le h hn
  | _ => trivial

end ServeStage

namespace Uploads

variable {crates : Crates} {u : Uploads} {r : Request}

theorem withBody_left {body : Except String Bytes} {k : Bytes → UploadReq} {n : ℕ}
    (h : ∀ chunk, (k chunk).left ≤ n) : (UploadReq.withBody body k).left ≤ n := by
  unfold UploadReq.withBody
  split
  · exact Nat.zero_le _
  · exact h _

theorem selfOnly_left {host : String} {method : Method} {k : Uploads × UploadReq} {n : ℕ}
    (h : k.2.left ≤ n) : (u.selfOnly host method k).2.left ≤ n := by
  unfold selfOnly
  split
  · exact Nat.zero_le _
  · exact h

theorem find_left {text : String} {k : Uuid → ℕ → UploadReq} {n : ℕ}
    (h : ∀ uuid upload, (k uuid upload).left ≤ n) : (u.find crates text k).left ≤ n := by
  unfold find
  split
  · exact Nat.zero_le _
  · split
    · exact Nat.zero_le _
    · exact h _ _

theorem start_left (fresh : Uuid) : (u.start crates fresh r).2.left ≤ 4 := by
  unfold start
  cases r.method with
  | post =>
    apply selfOnly_left
    split
    · split <;> simp [UploadReq.left, UploadReq.refuse]
    · simp [UploadReq.left, UploadReq.respond]
  | patch => exact selfOnly_left (find_left fun uuid upload => by simp [UploadReq.left])
  | put =>
    apply selfOnly_left
    repeat' split
    all_goals simp [UploadReq.left, UploadReq.refuse]
  | delete =>
    apply selfOnly_left
    split <;> simp [UploadReq.left, UploadReq.refuse, UploadReq.respond]
  | get => exact selfOnly_left (find_left fun uuid upload => by simp [UploadReq.left])
  | head => exact Nat.zero_le _

/-- A step leaves an upload request fewer steps. -/
theorem step_left (u : Uploads) (crates : Crates) (inp : Input) (q : UploadReq) :
    (u.step crates inp q).2.left ≤ q.left - 1 := by
  cases q with
  | start r => exact start_left inp.uuid
  | postBody name expected =>
    refine withBody_left fun body => ?_
    unfold postCheck
    split <;> simp [UploadReq.left, UploadReq.refuse]
  | patchBody name uuid upload => exact withBody_left fun chunk => by simp [UploadReq.left]
  | putBody name uuid expected upload => exact withBody_left fun chunk => by simp [UploadReq.left]
  | putLock name uuid expected upload chunk =>
    simp only [step, putSection]
    split <;> simp [UploadReq.left, UploadReq.refuse]
  | putRemove name uuid got buf => exact Nat.le_refl 1
  | _ => exact Nat.zero_le _

end Uploads

namespace State

variable {crates : Crates} {s : State} {r : Request}

theorem startManifest_left (s : State) (r : Request) :
    (s.startManifest r).left ≤ 4 ∧ (s.startManifest r).starts ≤ 2 := by
  have hresolve : (s.resolveReference r).left ≤ 4 ∧ (s.resolveReference r).starts ≤ 2 := by
    unfold resolveReference
    repeat' split
    all_goals simp [ManifestReq.left, ManifestReq.starts]
  unfold startManifest
  cases r.method with
  | get => exact hresolve
  | head => exact hresolve
  | put =>
    dsimp only
    split <;> simp [ManifestReq.left, ManifestReq.starts]
  | _ => exact ⟨Nat.zero_le _, Nat.zero_le _⟩

/-- A step leaves a manifest request fewer steps, and no more pulls to begin. -/
theorem manifestStep_left (s : State) (crates : Crates) (inp : ManifestInput)
    (m : ManifestReq) :
    (s.manifestStep crates inp m).2.left ≤ m.left - 1 ∧
      (s.manifestStep crates inp m).2.starts ≤ m.starts := by
  cases m with
  | start r => exact startManifest_left s r
  | resolve r =>
    simp only [manifestStep, resolveTag]
    cases inp.answer with
    | error e => exact ⟨Nat.zero_le _, Nat.zero_le _⟩
    | ok resp =>
      dsimp only
      repeat' split
      all_goals simp [ManifestReq.left, ManifestReq.starts]
  | lookup r d =>
    simp only [manifestStep, lookupManifest]
    repeat' split
    all_goals simp [ManifestReq.left, ManifestReq.starts]
  | fetch r d =>
    simp only [manifestStep, fetchManifest]
    cases inp.answer with
    | error e => exact ⟨Nat.zero_le _, Nat.zero_le _⟩
    | ok resp =>
      dsimp only
      repeat' split
      all_goals simp [ManifestReq.left, ManifestReq.starts]
  | putBody r =>
    simp only [manifestStep, putBody]
    split <;> simp [ManifestReq.left, ManifestReq.starts]
  | putInsert r body =>
    simp only [manifestStep, putInsert]
    split <;> simp [ManifestReq.left, ManifestReq.starts]
  | putTag r d => exact ⟨Nat.le_refl 1, Nat.le_refl 0⟩
  | putDigest r d => exact ⟨Nat.zero_le _, Nat.zero_le _⟩
  | done reply => exact ⟨Nat.zero_le _, Nat.zero_le _⟩

/-- After a pull for its tag a manifest request goes on to its lookup; after the pull for its
body it is answered. -/
theorem manifestStep_asks (s : State) (crates : Crates) (inp : ManifestInput) {m : ManifestReq}
    (hm : m.Asks) :
    (∃ reply, (s.manifestStep crates inp m).2 = .done reply) ∨
      (s.manifestStep crates inp m).2.left + 1 < m.left ∧
        (s.manifestStep crates inp m).2.starts ≤ m.starts - 1 := by
  cases m with
  | resolve r =>
    simp only [manifestStep, resolveTag]
    cases inp.answer with
    | error e => exact .inl ⟨_, rfl⟩
    | ok resp =>
      dsimp only
      split
      · exact .inl ⟨_, rfl⟩
      · split
        · exact .inl ⟨_, rfl⟩
        · exact .inr ⟨by simp [ManifestReq.left], Nat.le_refl 1⟩
  | fetch r d =>
    simp only [manifestStep, fetchManifest]
    cases inp.answer with
    | error e => exact .inl ⟨_, rfl⟩
    | ok resp =>
      dsimp only
      repeat' split
      all_goals exact .inl ⟨_, rfl⟩
  | _ => exact hm.elim

end State

namespace PullTask

variable {crates : PullCrates} {tokens : DashMap TokenKey String} {t : PullTask} {inp : PullInput}

/-- The steps a pull has left: two for each attempt, of which there are three. -/
def left (t : PullTask) : ℕ :=
  match t.stage with
  | .start => 7
  | .sending n => 2 * (3 - n)
  | .fetching n _ => 2 * (3 - n) - 1
  | .done _ => 0

/-- A pull moves on whatever it is answered, until it is over. -/
theorem next_of_not_done (h : ∀ outcome, t.stage ≠ .done outcome) (inp : PullInput) :
    (t.next crates tokens inp).isSome := by
  unfold next
  cases hst : t.stage with
  | done outcome => exact absurd hst (h outcome)
  | _ => rfl

end PullTask

namespace Server

variable {px : Proxy} {s s' : Server} {inp : ServerInput} {q : Served} {r : Server × ServeStage}

/-- A step of a request leaves it fewer steps; a pull it begins is one it had left, and it waits
only for a pull that exists. -/
structure Moved (s : Server) (stage : ServeStage) (r : Server × ServeStage) : Prop where
  left : r.2.left < stage.left
  starts : r.1.pulls.tasks.length + r.2.starts ≤ s.pulls.tasks.length + stage.starts
  pulls : r.1.pulls.tasks = s.pulls.tasks ∨
    ∃ call, r.1.pulls.tasks = s.pulls.tasks ++ [({ call } : PullTask)]
  awaits : r.2.Awaits r.1.pulls.tasks.length

theorem moved_done {stage : ServeStage} {reply : ServerReply} (hleft : 0 < stage.left)
    (hp : s'.pulls = s.pulls) : Moved s stage (s', .done reply) where
  left := hleft
  starts := by rw [hp]; exact Nat.le_add_right _ _
  pulls := .inl (by rw [hp])
  awaits := trivial

theorem Moved.grows {stage : ServeStage} (h : Moved s stage r) :
    s.pulls.tasks.length ≤ r.1.pulls.tasks.length := by
  obtain hp | ⟨call, hp⟩ := h.pulls
  · rw [hp]
  · rw [hp, List.length_append]
    exact Nat.le_add_right _ _

theorem moved_upload {stage : ServeStage} {u : UploadReq} (hlt : u.left < stage.left)
    (hleft : u.left ≠ 0 → u.left + 1 < stage.left) (hp : s'.pulls = s.pulls) :
    Moved s stage (s', u.serve) := by
  cases u with
  | done reply => exact moved_done hlt hp
  | _ =>
    exact ⟨hleft (Nat.succ_ne_zero _), by rw [hp]; exact Nat.le_add_right _ _,
      .inl (by rw [hp]), trivial⟩

theorem moved_manifest {stage : ServeStage} {m : ManifestReq} (hlt : m.left < stage.left)
    (hleft : m.left ≠ 0 → m.left + 1 < stage.left) (hstarts : m.starts ≤ stage.starts)
    (hp : s'.pulls = s.pulls) : Moved s stage (s', m.serve) := by
  cases m with
  | done reply => exact moved_done hlt hp
  | _ =>
    exact ⟨hleft (Nat.succ_ne_zero _), by rw [hp]; exact Nat.add_le_add_left hstarts _,
      .inl (by rw [hp]), trivial⟩

/-- A pull begins, and the request waits for it. -/
theorem moved_startPull (px : Proxy) {stage : ServeStage} {request : Request} {method : Method}
    {subPath : String} {accept : Option String} {stage' : ℕ → ServeStage}
    (hp : s'.pulls = s.pulls)
    (hpull : ∀ n, (stage' n).left < stage.left ∧ (stage' n).starts < stage.starts ∧
      (stage' n).Awaits (n + 1)) :
    Moved s stage (s'.startPull px request method subPath accept stage') := by
  obtain ⟨hleft, hstarts, hawaits⟩ := hpull s'.pulls.tasks.length
  have hlen : (s'.startPull px request method subPath accept stage').1.pulls.tasks.length =
      s.pulls.tasks.length + 1 := by
    simp [startPull, hp]
  refine ⟨hleft, ?_, .inr ⟨_, by rw [← hp]; rfl⟩, ?_⟩
  · rw [hlen]
    simp only [startPull]
    omega
  · rw [hlen, ← hp]
    exact hawaits

theorem moved_handle (px : Proxy) (s : Server) (inp : ServerInput) (c : ClientRequest) :
    Moved s .start (s.handle px inp c) := by
  obtain ⟨metrics, resp, he⟩ | ⟨handler, request, -, he⟩ := handle_cases px s inp c
  · rw [he]
    exact moved_done (Nat.succ_pos 6) rfl
  rw [he]
  cases handler with
  | getHeadManifest head =>
    exact moved_manifest (m := .start request) (Nat.le_succ 6) (fun _ => Nat.le_refl 7)
      (Nat.le_refl 2) rfl
  | putManifest =>
    exact moved_manifest (m := .start request) (Nat.le_succ 6) (fun _ => Nat.le_refl 7)
      (Nat.le_refl 2) rfl
  | getHeadBlob head =>
    obtain ⟨reply, hb⟩ | ⟨d, -, -, -, hb⟩ := serveBlob_cases px
      { s with metrics := s.metrics.countHandler (.getHeadBlob head) } request head
    · rw [dispatch, hb]
      exact moved_done (Nat.succ_pos 6) rfl
    · rw [dispatch, hb]
      refine moved_startPull px rfl fun n => ⟨?_, ?_, Nat.lt_succ_self n⟩
      · exact Nat.succ_lt_succ (Nat.succ_pos 5)
      · exact Nat.succ_pos 1
  | _ => exact moved_upload (u := .start request) (Nat.le_succ 6) (fun _ => Nat.le_refl 7) rfl

theorem moved_manifestReq (px : Proxy) (s : Server) (inp : ServerInput) (accept : Option String)
    (m : ManifestReq) : Moved s (.manifest m) (s.serveManifestReq px inp accept m) := by
  obtain ⟨request, rfl, he⟩ | ⟨request, d, rfl, he⟩ | he :=
    serveManifestReq_cases px s inp accept m
  · rw [he]
    exact moved_startPull px rfl fun n => ⟨Nat.lt_succ_self 4, Nat.lt_succ_self 1, trivial,
      Nat.lt_succ_self n⟩
  · rw [he]
    exact moved_startPull px rfl fun n => ⟨Nat.lt_succ_self 1, Nat.lt_succ_self 0, trivial,
      Nat.lt_succ_self n⟩
  · rw [he]
    obtain ⟨hleft, hstarts⟩ := s.st.manifestStep_left px.crates { body := inp.body } m
    exact moved_manifest (by simp only [ServeStage.left]; omega)
      (fun hne => by simp only [ServeStage.left]; omega) hstarts rfl

theorem moved_afterManifestPull {m : ManifestReq} (hm : m.Asks) (px : Proxy) (s : Server)
    (inp : ServerInput) (k : ℕ) (o : PullOutcome) :
    Moved s (.manifestPull m k) (s.afterManifestPull px inp m o) := by
  have hpos : 0 < m.left := by
    cases m with
    | resolve r => exact Nat.succ_pos 3
    | fetch r d => exact Nat.succ_pos 0
    | _ => exact hm.elim
  obtain he | ⟨minp, he⟩ := afterManifestPull_cases px s inp m o
  · rw [he]
    exact moved_done hpos rfl
  · rw [he]
    obtain ⟨reply, hr⟩ | ⟨hleft, hstarts⟩ := s.st.manifestStep_asks px.crates minp hm
    · rw [manifestStep, hr]
      exact moved_done hpos rfl
    · exact moved_manifest (Nat.lt_of_succ_lt hleft) (fun _ => hleft) hstarts rfl

theorem moved_serve (hq : q.stage.Awaits s.pulls.tasks.length) (hs : s.serve px inp q = some r) :
    Moved s q.stage r := by
  obtain ⟨hst, rfl⟩ | ⟨u, hst, rfl⟩ | ⟨m, hst, rfl⟩ | ⟨m, k, o, hst, -, rfl⟩ |
    ⟨d, head, k, o, hst, -, rfl⟩ := serve_cases hs
  · rw [hst]
    exact moved_handle px s inp q.req
  · rw [hst]
    have hstep := s.uploads.step_left px.crates ⟨inp.uuid, inp.body⟩ u
    exact moved_upload (by simp only [ServeStage.left]; omega)
      (fun hne => by simp only [ServeStage.left]; omega) rfl
  · rw [hst]
    exact moved_manifestReq px s inp q.req.accept m
  · rw [hst] at hq ⊢
    exact moved_afterManifestPull hq.1 px s inp k o
  · rw [hst]
    obtain ⟨reply, he⟩ | ⟨resp, -, -, -, he⟩ := afterBlobPull_cases px s inp d head o
    · rw [he]
      exact moved_done (Nat.succ_pos 0) rfl
    · rw [he]
      exact moved_done (Nat.succ_pos 0) rfl

/-- The requests wait for pulls that exist, and the pulls are no more than two for each. -/
structure Orderly (s : Server) : Prop where
  awaits : ∀ q ∈ s.reqs, q.stage.Awaits s.pulls.tasks.length
  starts : s.pulls.tasks.length + (s.reqs.map fun q => q.stage.starts).sum ≤ 2 * s.reqs.length
  counted : ∀ t ∈ s.pulls.tasks, t.Counted

theorem Orderly.init (st : State) : (Server.init st).Orderly where
  awaits q hq := by cases hq
  starts := Nat.le_refl 0
  counted t ht := by cases ht

theorem Orderly.step {e : ServerEvent} (h : s.Orderly) (hs : s.step px e = some s') :
    s'.Orderly := by
  obtain ⟨now, -, rfl⟩ | ⟨c, -, rfl⟩ | ⟨i, inp, q, r, -, hq, hr, rfl⟩ |
    ⟨k, inp, t, r, -, ht, hr, rfl⟩ | ⟨j, f, fe, x, -, -, -, rfl⟩ := step_cases hs
  · exact ⟨h.awaits, h.starts, h.counted⟩
  · refine ⟨fun q hq => ?_, ?_, h.counted⟩
    · rcases List.mem_append.mp hq with hq | hq
      · exact h.awaits q hq
      · obtain rfl := List.mem_singleton.mp hq
        trivial
    · have hstarts := h.starts
      have hfresh : ServeStage.start.starts = 2 := rfl
      simp only [List.map_append, List.sum_append, List.map_cons, List.map_nil, List.sum_cons,
        List.sum_nil, List.length_append, List.length_singleton]
      omega
  · have hmoved := moved_serve (h.awaits q (List.mem_of_getElem? hq)) hr
    refine ⟨?_, ?_, ?_⟩
    · exact forall_mem_set (fun p hp => (h.awaits p hp).mono hmoved.grows) hmoved.awaits
    · have hsum := sum_map_set (fun q : Served => q.stage.starts) hq { q with stage := r.2 }
      have hstarts := h.starts
      have hmore := hmoved.starts
      simp only [List.length_set]
      dsimp only at hsum
      omega
    · intro t ht
      obtain hp | ⟨call, hp⟩ := hmoved.pulls
      · exact h.counted t (hp ▸ ht)
      · rcases List.mem_append.mp (hp ▸ ht) with ht | ht
        · exact h.counted t ht
        · obtain rfl := List.mem_singleton.mp ht
          exact ⟨rfl, rfl⟩
  · have hlen : (s.pulls.tasks.set k r.2).length = s.pulls.tasks.length := List.length_set
    refine ⟨fun q hq => ?_, ?_, ?_⟩
    · rw [hlen]
      exact h.awaits q hq
    · rw [hlen]
      exact h.starts
    · exact forall_mem_set h.counted ((h.counted t (List.mem_of_getElem? ht)).next hr)
  · exact ⟨h.awaits, h.starts, h.counted⟩

/-- The steps request `i` has left; one that has not come yet has all of them. -/
def reqLeft (i : ℕ) (s : Server) : ℕ := (s.reqs[i]?).elim 7 fun q => q.stage.left

def pullLeft (k : ℕ) (s : Server) : ℕ := (s.pulls.tasks[k]?).elim 7 PullTask.left

end Server

/-- The event is a step of request `i`. -/
def ServerEvent.moves (i : ℕ) : ServerEvent → Bool
  | .step j _ => i == j
  | _ => false

/-- The event is a step of pull `k`. -/
def ServerEvent.pulls (k : ℕ) : ServerEvent → Bool
  | .pull j _ => k == j
  | _ => false

namespace Server

variable {px : Proxy} {s s' : Server} {e : ServerEvent}

/-- A request that is not answered can move, or waits for a pull that can. -/
theorem Orderly.moves (h : s.Orderly) (px : Proxy) {i : ℕ} {q : Served} (hq : s.reqs[i]? = some q) :
    (∃ reply, q.stage = .done reply) ∨ (∀ inp, (s.step px (.step i inp)).isSome) ∨
      ∃ k, q.stage.waits = some k ∧ ∀ inp, (s.step px (.pull k inp)).isSome := by
  have hawaits := h.awaits q (List.mem_of_getElem? hq)
  -- a request at a pull goes on with its outcome, or else the pull moves
  have hwaits (k : ℕ) (hk : k < s.pulls.tasks.length)
      (hserve : ∀ o, s.outcome k = some o → ∀ inp, (s.serve px inp q).isSome) :
      (∀ inp, (s.step px (.step i inp)).isSome) ∨ ∀ inp, (s.step px (.pull k inp)).isSome := by
    have ht : s.pulls.tasks[k]? = some s.pulls.tasks[k] := List.getElem?_eq_getElem hk
    by_cases hdone : ∃ o, s.pulls.tasks[k].stage = .done o
    · obtain ⟨o, hst⟩ := hdone
      have ho : s.outcome k = some o := by
        simp only [outcome, ht, Option.bind_some, hst]
      refine .inl fun inp => ?_
      simp only [Server.step, hq, Option.isSome_map]
      exact hserve o ho inp
    · refine .inr fun inp => ?_
      simp only [Server.step, ht, Option.isSome_map]
      exact PullTask.next_of_not_done (fun o hst => hdone ⟨o, hst⟩) inp
  cases hst : q.stage with
  | done reply => exact .inl ⟨reply, rfl⟩
  | manifestPull m k =>
    rw [hst] at hawaits
    refine .inr ((hwaits k hawaits.2 fun o ho inp => ?_).imp_right fun hk => ⟨k, rfl, hk⟩)
    simp only [serve, hst, ho, Option.map_some, Option.isSome_some]
  | blobPull d head k =>
    rw [hst] at hawaits
    refine .inr ((hwaits k hawaits fun o ho inp => ?_).imp_right fun hk => ⟨k, rfl, hk⟩)
    simp only [serve, hst, ho, Option.map_some, Option.isSome_some]
  | _ =>
    refine .inr (.inl fun inp => ?_)
    simp only [Server.step, hq, serve, hst, Option.map_some, Option.isSome_some]

/-- What a request has left, with the steps of the pull it waits for. -/
def workLeft (i : ℕ) (s : Server) : ℕ :=
  8 * s.reqLeft i + ((s.reqs[i]?).bind fun q => q.stage.waits).elim 7 s.pullLeft

def Answered (s : Server) (i : ℕ) : Prop :=
  ∃ q reply, s.reqs[i]? = some q ∧ q.stage = .done reply

end Server

/-- A client asks for a tag, which upstream resolves and sends: the request takes all its steps. -/
def tagServed : List ServerEvent :=
  tagAsked ++
    [.pull 0 { answer := .ok ⟨200, none⟩ },
      .step 0 { head := { dockerContentDigest := some letterDigest.toText } },
      .step 0 {}, .step 0 {}, .pull 1 {}, .pull 1 { answer := .ok ⟨200, none⟩ }, .step 0 {}]

end Dockfoxprox
