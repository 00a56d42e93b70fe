import Dockfoxprox.Lib.Machine
import Dockfoxprox.Model.Fill
import Dockfoxprox.Proofs.State
import Dockfoxprox.Proofs.Uploads

/-! A fill caches the whole of a blob or nothing, whatever its client does. The bytes it has
read and those to come are the content of the stream, and the frames a client that is still
there has been sent and those it is owed are the frames of the stream. -/

namespace Dockfoxprox

open Machine

namespace FillSys

/-- The frames that a client which stays has still to be sent. -/
def owed (x : FillSys) : List BodyFrame :=
  match x.task.stage with
  | .start | .reading | .panicked | .aborted => x.task.stream.frames
  | .sending (.ok chunk) => .ok chunk :: x.task.stream.frames
  | .sending (.error e) => [.error e]
  | .inserting | .finished => []

variable {crates : Crates} {s : State} {digest : Digest} {mediaType : String}
  {contentLength : Option String} {stream : BodyStream} {x x' : FillSys} {allocatable : ℕ}

/-- The buffer of that `Content-Length` can be had. -/
def Allocatable (allocatable : ℕ) (contentLength : Option String) : Prop :=
  contentLengthHint contentLength ≤ isizeMax ∧ contentLengthHint contentLength ≤ allocatable

/-- What each stage stands for. -/
def StageOk (crates : Crates) (allocatable : ℕ) (s : State) (stream : BodyStream) (x : FillSys) :
    Prop :=
  match x.task.stage with
  | .start | .reading | .sending (.ok _) => x.st.blobs = s.blobs
  | .sending (.error e) =>
    x.st.blobs = s.blobs ∧ x.task.stream.chunks = [] ∧ stream.error = some e
  | .inserting =>
    x.st.blobs = s.blobs ∧ x.task.stream.chunks = [] ∧ stream.Fills crates x.task.digest
  | .finished =>
    x.task.stream.chunks = [] ∧
    (stream.Fills crates x.task.digest → ∃ now, x.st.blobs = s.blobs.insert x.task.digest
      (.inMemory s.nextId stream.chunks.flatten x.task.mediaType now)) ∧
    (¬ stream.Fills crates x.task.digest → x.st.blobs = s.blobs)
  | .panicked | .aborted =>
    x.st.blobs = s.blobs ∧ ¬ Allocatable allocatable x.task.contentLength

structure Going (crates : Crates) (allocatable : ℕ) (s : State) (digest : Digest)
    (mediaType : String) (contentLength : Option String) (stream : BodyStream) (x : FillSys) :
    Prop where
  digest : x.task.digest = digest
  mediaType : x.task.mediaType = mediaType
  contentLength : x.task.contentLength = contentLength
  error : x.task.stream.error = stream.error
  hasher : x.task.hasher.fed = x.task.buf
  content : x.task.buf ++ x.task.stream.chunks.flatten = stream.chunks.flatten
  nextId : ¬ x.task.Done → x.st.nextId = s.nextId
  stage : StageOk crates allocatable s stream x
  alive : x.receiver = true → x.task.clientAlive = true
  sent : x.receiver = true → x.received ++ x.channel ++ x.owed = stream.frames
  left : x.receiver = false → x.channel = [] ∧ x.received <+: stream.frames ∧
    (¬ x.task.Done → x.received <+: stream.chunks.map .ok)
  room : x.channel.length ≤ capacity

theorem Going.init (crates : Crates) (allocatable : ℕ) (s : State) (digest : Digest)
    (mediaType : String) (contentLength : Option String) (stream : BodyStream) :
    Going crates allocatable s digest mediaType contentLength stream
      (.init s digest mediaType contentLength stream) where
  digest := rfl
  mediaType := rfl
  contentLength := rfl
  error := rfl
  hasher := rfl
  content := rfl
  nextId _ := rfl
  stage := rfl
  alive _ := rfl
  sent _ := rfl
  left := nofun
  room := Nat.zero_le _

/-- Until the task is done, no error frame has been sent. -/
theorem Going.unfinished (h : Going crates allocatable s digest mediaType contentLength stream x)
    (hd : ¬ x.task.Done) : x.received ++ x.channel <+: stream.chunks.map .ok := by
  cases hr : x.receiver with
  | false =>
    obtain ⟨hc, -, hp⟩ := h.left hr
    rw [hc, List.append_nil]
    exact hp hd
  | true =>
    have hsent := h.sent hr
    have hok := h.stage
    have cancel {before : List BodyFrame} (heq : x.received ++ x.channel ++
        (before ++ stream.error.toList.map .error) = stream.frames) :
        x.received ++ x.channel <+: stream.chunks.map .ok := by
      rw [BodyStream.frames, ← List.append_assoc] at heq
      exact ⟨before, List.append_cancel_right heq⟩
    unfold owed at hsent
    unfold StageOk at hok
    split at hsent
    iterate 2 exact cancel (by rw [← hsent, BodyStream.frames, h.error])
    · exact absurd (.inr (.inl ‹_›)) hd
    · exact absurd (.inr (.inr ‹_›)) hd
    · rename_i chunk hst
      refine @cancel (.ok chunk :: x.task.stream.chunks.map .ok) ?_
      rw [← hsent, BodyStream.frames, h.error, List.cons_append]
    · rename_i e hst
      rw [hst] at hok
      exact @cancel [] (by rw [← hsent, hok.2.2]; rfl)
    · rename_i hst
      rw [hst] at hok
      exact @cancel [] (by rw [← hsent, hok.2.2.1]; rfl)
    · exact absurd (.inl ‹_›) hd

/-- The task moves on by itself. -/
theorem Going.go (h : Going crates allocatable s digest mediaType contentLength stream x)
    (hd : ¬ x.task.Done) {chunks : List Bytes} {buf : Bytes} {hasher : Hasher} (stage : FillStage)
    {y : FillSys} (hy : y = { x with task := { x.task with
      stream := { x.task.stream with chunks := chunks }, buf := buf, hasher := hasher,
      stage := stage } })
    (hhash : hasher.fed = buf) (hcontent : buf ++ chunks.flatten = stream.chunks.flatten)
    (hok : StageOk crates allocatable s stream y) (howed : x.receiver = true → y.owed = x.owed) :
    Going crates allocatable s digest mediaType contentLength stream y := by
  subst hy
  exact ⟨h.digest, h.mediaType, h.contentLength, h.error, hhash, hcontent, fun _ => h.nextId hd,
    hok, h.alive, fun hr => by rw [howed hr]; exact h.sent hr,
    fun hr => ⟨(h.left hr).1, (h.left hr).2.1, fun _ => (h.left hr).2.2 hd⟩, h.room⟩

theorem Going.allocate (h : Going crates allocatable s digest mediaType contentLength stream x)
    (hst : x.task.stage = .start) :
    Going crates allocatable s digest mediaType contentLength stream (x.allocate allocatable) := by
  have hok := h.stage
  have hd : ¬ x.task.Done := by simp [FillTask.Done, hst]
  simp only [StageOk, hst] at hok
  by_cases hint : isizeMax < contentLengthHint x.task.contentLength
  · have hno : ¬ Allocatable allocatable x.task.contentLength := fun ha => absurd hint ha.1.not_gt
    refine h.go hd .panicked ?_ h.hasher h.content ?_ ?_
    · simp [FillSys.allocate, hint]
    · simpa [StageOk, FillSys.allocate, hint] using ⟨hok, hno⟩
    · simp [owed, FillSys.allocate, hint, hst]
  · by_cases hmem : allocatable < contentLengthHint x.task.contentLength
    · have hno : ¬ Allocatable allocatable x.task.contentLength := fun ha => absurd hmem ha.2.not_gt
      refine h.go hd .aborted ?_ h.hasher h.content ?_ ?_
      · simp [FillSys.allocate, hint, hmem]
      · simpa [StageOk, FillSys.allocate, hint, hmem] using ⟨hok, hno⟩
      · simp [owed, FillSys.allocate, hint, hmem, hst]
    · refine h.go hd .reading ?_ h.hasher h.content ?_ ?_
      · simp [FillSys.allocate, hint, hmem]
      · simpa [StageOk, FillSys.allocate, hint, hmem] using hok
      · simp [owed, FillSys.allocate, hint, hmem, hst]

theorem Going.read (h : Going crates allocatable s digest mediaType contentLength stream x)
    (hst : x.task.stage = .reading) :
    Going crates allocatable s digest mediaType contentLength stream (x.read crates) := by
  have hok := h.stage
  have hd : ¬ x.task.Done := by simp [FillTask.Done, hst]
  simp only [StageOk, hst] at hok
  unfold FillSys.read
  cases hc : x.task.stream.chunks with
  | cons chunk chunks =>
    refine h.go hd _ rfl (by rw [Hasher.fed_update, h.hasher]) ?_ ?_ fun hr => ?_
    · rw [← h.content, hc, List.flatten_cons, List.append_assoc]
    · cases ha : x.task.clientAlive <;> simpa [StageOk] using hok
    · simp [owed, hst, hc, h.alive hr, BodyStream.frames]
  | nil =>
    have hcontent := h.content
    rw [hc, List.flatten_nil, List.append_nil] at hcontent
    cases he : x.task.stream.error with
    | some e =>
      have herror : stream.error = some e := h.error.symm.trans he
      refine h.go hd _ rfl h.hasher h.content ?_ fun hr => ?_
      · have hno : ¬ stream.Fills crates x.task.digest := fun hf => by
          rw [hf.1] at herror
          cases herror
        cases ha : x.task.clientAlive with
        | true => simpa [StageOk] using ⟨hok, hc, herror⟩
        | false => simpa [StageOk, hno] using ⟨hc, hok⟩
      · simp [owed, hst, hc, he, h.alive hr, BodyStream.frames]
    | none =>
      have herror : stream.error = none := h.error.symm.trans he
      have hsum : x.task.hasher.finalize crates = crates.sha256 stream.chunks.flatten := by
        rw [Hasher.finalize, h.hasher, hcontent]
      refine h.go hd _ rfl h.hasher h.content ?_ fun hr => ?_
      · by_cases hm : x.task.hasher.finalize crates = x.task.digest
        · simp only [StageOk, hm, ne_eq, not_true_eq_false, if_false]
          exact ⟨hok, hc, herror, hsum.symm.trans hm⟩
        · simp only [StageOk, ne_eq, hm, not_false_eq_true, if_true]
          exact ⟨hc, fun hf => absurd (hsum.trans hf.2) hm, fun _ => hok⟩
      · by_cases hm : x.task.hasher.finalize crates = x.task.digest <;>
          simp [owed, hst, hc, he, hm, BodyStream.frames]

theorem Going.send (h : Going crates allocatable s digest mediaType contentLength stream x)
    {frame : BodyFrame}
    (hst : x.task.stage = .sending frame) (hs : x.send frame = some x') :
    Going crates allocatable s digest mediaType contentLength stream x' := by
  have hok := h.stage
  have hd : ¬ x.task.Done := by simp [FillTask.Done, hst]
  -- the stage that follows is as good as the one before
  have hnext {st : State} {task : FillTask} {channel received : List BodyFrame} {receiver : Bool}
      (hb : st = x.st) (ht : task.stage = afterSend frame) (hstr : task.stream = x.task.stream)
      (hdig : task.digest = x.task.digest) :
      StageOk crates allocatable s stream ⟨st, task, channel, receiver, received⟩ := by
    cases frame with
    | ok chunk =>
      simp only [StageOk, hst, ht, hb, afterSend] at hok ⊢
      exact hok
    | error e =>
      simp only [StageOk, hst, ht, hb, hstr, hdig, afterSend] at hok ⊢
      refine ⟨hok.2.1, fun hf => ?_, fun _ => hok.1⟩
      have herror := hok.2.2.symm.trans hf.1
      cases herror
  unfold FillSys.send at hs
  split at hs
  · rename_i hr
    split at hs
    · rename_i hroom
      cases hs
      refine ⟨h.digest, h.mediaType, h.contentLength, h.error, h.hasher, h.content,
        fun _ => h.nextId hd, hnext rfl rfl rfl rfl, h.alive, fun _ => ?_,
        fun hr' => ?_, ?_⟩
      · have hsent := h.sent hr
        cases frame with
        | ok chunk => simpa [owed, hst, afterSend] using hsent
        | error e => simpa [owed, hst, afterSend] using hsent
      · simp [hr] at hr'
      · rw [List.length_append]
        exact hroom
    · cases hs
  · rename_i hr
    cases hs
    exact ⟨h.digest, h.mediaType, h.contentLength, h.error, h.hasher, h.content,
      fun _ => h.nextId hd, hnext rfl rfl rfl rfl, fun hr' => absurd hr' hr,
      fun hr' => absurd hr' hr,
      fun hr' => ⟨(h.left hr').1, (h.left hr').2.1, fun _ => (h.left hr').2.2 hd⟩, h.room⟩

theorem Going.insert (h : Going crates allocatable s digest mediaType contentLength stream x)
    (hst : x.task.stage = .inserting) :
    Going crates allocatable s digest mediaType contentLength stream x.insert := by
  have hok := h.stage
  have hd : ¬ x.task.Done := by simp [FillTask.Done, hst]
  simp only [StageOk, hst] at hok
  obtain ⟨hb, hc, hf⟩ := hok
  have hcontent := h.content
  rw [hc, List.flatten_nil, List.append_nil] at hcontent
  have hblobs : x.insert.st.blobs = s.blobs.insert x.task.digest
      (.inMemory s.nextId stream.chunks.flatten x.task.mediaType x.st.now) := by
    obtain ⟨usage, hins⟩ := storeBlob_eq x.st x.task.digest x.task.buf x.task.mediaType
    rw [FillSys.insert, hins]
    simp only [hb, h.nextId hd, hcontent]
  have hdone : x.insert.task.Done := .inl rfl
  refine ⟨h.digest, h.mediaType, h.contentLength, h.error, h.hasher, h.content,
    fun hn => absurd hdone hn, ⟨hc, fun _ => ⟨_, hblobs⟩, fun hn => absurd hf hn⟩, h.alive,
    fun hr => ?_, fun hr => ⟨(h.left hr).1, (h.left hr).2.1, fun hn => absurd hdone hn⟩, h.room⟩
  have hsent := h.sent hr
  simpa [owed, hst, FillSys.insert] using hsent

/-- One step of the fill, its client or the clock. -/
theorem Going.step (h : Going crates allocatable s digest mediaType contentLength stream x)
    {e : FillEvent} (hs : x.step crates allocatable e = some x') :
    Going crates allocatable s digest mediaType contentLength stream x' := by
  cases e with
  | tick now =>
    cases hs
    exact ⟨h.digest, h.mediaType, h.contentLength, h.error, h.hasher, h.content, h.nextId, h.stage,
      h.alive, h.sent, h.left, h.room⟩
  | task =>
    simp only [FillSys.step] at hs
    split at hs
    · cases hs
      exact h.allocate ‹_›
    · cases hs
      exact h.read ‹_›
    · exact h.send ‹_› hs
    · cases hs
      exact h.insert ‹_›
    · cases hs
    · cases hs
    · cases hs
  | poll =>
    simp only [FillSys.step] at hs
    split at hs
    · rename_i frame channel hc
      cases hs
      refine ⟨h.digest, h.mediaType, h.contentLength, h.error, h.hasher, h.content, h.nextId,
        h.stage, h.alive, fun hr => ?_, fun hr => ?_, ?_⟩
      · have hsent := h.sent hr
        simpa [owed, hc] using hsent
      · rw [(h.left hr).1] at hc
        cases hc
      · have hroom := h.room
        rw [hc, List.length_cons] at hroom
        exact Nat.le_of_succ_le hroom
    · cases hs
  | disconnect =>
    simp only [FillSys.step] at hs
    split at hs
    · rename_i hr
      cases hs
      refine ⟨h.digest, h.mediaType, h.contentLength, h.error, h.hasher, h.content, h.nextId,
        h.stage, nofun, nofun, fun _ => ⟨rfl, ?_, fun hd => ?_⟩, Nat.zero_le _⟩
      · rw [← h.sent hr, List.append_assoc]
        exact List.prefix_append _ _
      · exact (List.prefix_append _ _).trans (h.unfinished hd)
    · cases hs

/-- The task is finished, or blocked on a client that is there and has frames to poll, or it
has a step. -/
theorem not_stuck (crates : Crates) (allocatable : ℕ) (x : FillSys) :
    x.task.Done ∨ (x.step crates allocatable .task).isSome ∨
      x.receiver = true ∧ (x.step crates allocatable .poll).isSome := by
  cases hst : x.task.stage with
  | start | reading | inserting => exact .inr (.inl (by simp [FillSys.step, hst]))
  | finished => exact .inl (.inl hst)
  | panicked => exact .inl (.inr (.inl hst))
  | aborted => exact .inl (.inr (.inr hst))
  | sending frame =>
    refine .inr ?_
    by_cases hr : x.receiver = true
    · by_cases hroom : x.channel.length < capacity
      · exact .inl (by simp [FillSys.step, hst, FillSys.send, hr, hroom])
      · cases hc : x.channel with
        | nil => simp [hc, capacity] at hroom
        | cons frame channel => exact .inr ⟨hr, by simp [FillSys.step, hc]⟩
    · exact .inl (by simp [FillSys.step, hst, FillSys.send, hr])

/-- A bound on the steps the task has yet to take. -/
def stepsLeft (t : FillTask) : ℕ :=
  match t.stage with
  | .start | .sending (.ok _) => 2 * t.stream.chunks.length + 4
  | .reading => 2 * t.stream.chunks.length + 3
  | .sending (.error _) | .inserting => 1
  | .finished | .panicked | .aborted => 0

theorem stepsLeft_read (hst : x.task.stage = .reading) :
    stepsLeft (x.read crates).task < stepsLeft x.task := by
  have hleft : stepsLeft x.task = 2 * x.task.stream.chunks.length + 3 := by simp [stepsLeft, hst]
  rw [hleft, FillSys.read]
  cases hc : x.task.stream.chunks with
  | cons chunk chunks =>
    rw [List.length_cons]
    cases x.task.clientAlive <;> simp only [stepsLeft, Bool.false_eq_true, if_false, if_true] <;>
      omega
  | nil =>
    cases he : x.task.stream.error with
    | some e =>
      cases x.task.clientAlive <;> simp [stepsLeft]
    | none =>
      by_cases hm : x.task.hasher.finalize crates = x.task.digest <;> simp [hm, stepsLeft]

theorem stepsLeft_send {frame : BodyFrame} (hst : x.task.stage = .sending frame)
    (hs : x.send frame = some x') : stepsLeft x'.task < stepsLeft x.task := by
  have hnext : x'.task.stage = afterSend frame ∧ x'.task.stream = x.task.stream := by
    unfold FillSys.send at hs
    split at hs
    · split at hs <;> cases hs
      exact ⟨rfl, rfl⟩
    · cases hs
      exact ⟨rfl, rfl⟩
  cases frame <;> simp [stepsLeft, hst, hnext.1, hnext.2, afterSend]

theorem stepsLeft_task (hs : x.step crates allocatable .task = some x') :
    stepsLeft x'.task < stepsLeft x.task := by
  simp only [FillSys.step] at hs
  split at hs
  · rename_i hst
    cases hs
    rw [FillSys.allocate]
    split
    · simp [stepsLeft, hst]
    · split <;> simp [stepsLeft, hst]
  · cases hs
    exact stepsLeft_read ‹_›
  · exact stepsLeft_send ‹_› hs
  · rename_i hst
    cases hs
    simp [stepsLeft, hst, FillSys.insert]
  · cases hs
  · cases hs
  · cases hs

/-- Only the task's own steps count. -/
theorem stepsLeft_step {e : FillEvent} (hs : x.step crates allocatable e = some x') :
    [e].count .task + stepsLeft x'.task ≤ stepsLeft x.task := by
  cases e with
  | task =>
    have hlt := stepsLeft_task hs
    rw [List.count_singleton_self]
    omega
  | tick now =>
    cases hs
    exact Nat.le_of_eq (Nat.zero_add _)
  | poll =>
    simp only [FillSys.step] at hs
    split at hs <;> cases hs
    exact Nat.le_of_eq (Nat.zero_add _)
  | disconnect =>
    simp only [FillSys.step] at hs
    split at hs <;> cases hs
    exact Nat.le_of_eq (Nat.zero_add _)

theorem stepsLeft_run {events : List FillEvent}
    (hr : run (FillSys.step crates allocatable) x events = some x') :
    events.count .task + stepsLeft x'.task ≤ stepsLeft x.task := by
  induction events generalizing x with
  | nil =>
    cases hr
    simp
  | cons e events ih =>
    obtain ⟨m, hm, hr⟩ := run_cons.mp hr
    have hstep := stepsLeft_step hm
    have hrest := ih hr
    rw [← List.singleton_append, List.count_append]
    omega

/-- A client that has gone gets nothing more. -/
theorem received_step {e : FillEvent} (h : x.receiver = false ∧ x.channel = [])
    (hs : x.step crates allocatable e = some x') :
    (x'.receiver = false ∧ x'.channel = []) ∧ x'.received = x.received := by
  obtain ⟨hr, hc⟩ := h
  cases e with
  | tick now =>
    cases hs
    exact ⟨⟨hr, hc⟩, rfl⟩
  | poll => simp [FillSys.step, hc] at hs
  | disconnect => simp [FillSys.step, hr] at hs
  | task =>
    simp only [FillSys.step] at hs
    split at hs
    · cases hs
      exact ⟨⟨hr, hc⟩, rfl⟩
    · cases hs
      unfold FillSys.read
      split
      · exact ⟨⟨hr, hc⟩, rfl⟩
      · split <;> exact ⟨⟨hr, hc⟩, rfl⟩
    · simp only [FillSys.send, hr, Bool.false_eq_true, if_false] at hs
      cases hs
      exact ⟨⟨rfl, hc⟩, rfl⟩
    · cases hs
      exact ⟨⟨hr, hc⟩, rfl⟩
    · cases hs
    · cases hs
    · cases hs

theorem received_run {events : List FillEvent} (h : x.receiver = false ∧ x.channel = [])
    (hr : run (FillSys.step crates allocatable) x events = some x') : x'.received = x.received := by
  have hkeep := run_invariant_of_mem
    (I := fun y => (y.receiver = false ∧ y.channel = []) ∧ y.received = x.received)
    (fun _ _ _ hi _ hs => ⟨(received_step hi.1 hs).1, (received_step hi.1 hs).2.trans hi.2⟩)
    ⟨h, rfl⟩ (fun _ _ => trivial) hr
  exact hkeep.2

/-- All of it or nothing, unless the buffer could not be allocated. -/
theorem Going.allOrNothing (h : Going crates allocatable s digest mediaType contentLength stream x)
    (hp : x.task.stage = .panicked ∨ x.task.stage = .aborted →
      ¬ stream.Fills crates digest ∧ stream.frames = []) :
    x.AllOrNothing crates s digest mediaType stream := by
  have hok := h.stage
  have hdig := h.digest
  have hmt := h.mediaType
  subst hdig hmt
  refine ⟨fun hd => ?_, fun hd hf => ?_, fun hd hf => ?_, ?_, h.unfinished, fun hd hr => ?_,
    fun hr => (h.left hr).1⟩
  · unfold StageOk at hok
    split at hok
    iterate 3 exact hok
    · exact hok.1
    · exact hok.1
    · exact absurd (.inl ‹_›) hd
    · exact hok.1
    · exact hok.1
  · obtain hst | hst := hd
    · simp only [StageOk, hst] at hok
      exact hok.2.1 hf
    · exact absurd hf (hp hst).1
  · obtain hst | hst | hst := hd <;> simp only [StageOk, hst] at hok
    · exact hok.2.2 hf
    · exact hok.1
    · exact hok.1
  · cases hr : x.receiver with
    | true =>
      rw [← h.sent hr, List.append_assoc]
      exact List.prefix_append _ _
    | false => exact (h.left hr).2.1
  · have hsent := h.sent hr
    obtain hst | hst := hd
    · simpa [owed, hst] using hsent
    · rw [(hp hst).2] at hsent ⊢
      exact (List.append_eq_nil_iff.mp hsent).1

end FillSys

open FillSys in
/-- A fill takes boundedly many steps and waits only for a client that has frames to poll; it
stores the whole content of a clean stream that has the digest it is for, and nothing else,
whatever the client does; and a client that stays is sent every frame. All of this holds if and
only if the buffer can be allocated, or there is nothing to store and nothing to send. -/
theorem fill_all_or_nothing_iff (crates : Crates) (allocatable : ℕ) (digest : Digest)
    (mediaType : String) (contentLength : Option String) (stream : BodyStream) :
    (∀ s events x, run (FillSys.step crates allocatable)
        (.init s digest mediaType contentLength stream) events = some x →
      (events.count .task ≤ 2 * stream.chunks.length + 4 ∧
        (x.task.Done ∨ (x.step crates allocatable .task).isSome ∨
          x.receiver = true ∧ (x.step crates allocatable .poll).isSome) ∧
        (x.receiver = false → ∀ later y,
          run (FillSys.step crates allocatable) x later = some y → y.received = x.received)) ∧
      x.AllOrNothing crates s digest mediaType stream) ↔
    contentLengthHint contentLength ≤ isizeMax ∧ contentLengthHint contentLength ≤ allocatable ∨
      stream.chunks = [] ∧ stream.error = none ∧ crates.sha256 [] ≠ digest := by
  constructor
  · intro hall
    by_contra hno
    rw [not_or] at hno
    obtain ⟨hlen, hother⟩ := hno
    let s : State := State.new ⟨0, none, 0⟩ 0
    let x₀ : FillSys := .init s digest mediaType contentLength stream
    -- the first step ends the task, with nothing sent and nothing stored
    have hdone : (x₀.allocate allocatable).task.Done := by
      have hlen : ¬ Allocatable allocatable x₀.task.contentLength := hlen
      unfold FillSys.allocate FillTask.Done
      split
      · exact .inr (.inl rfl)
      · split
        · exact .inr (.inr rfl)
        · exact absurd ⟨not_lt.mp ‹_›, not_lt.mp ‹_›⟩ hlen
    have hrun : run (FillSys.step crates allocatable) x₀ [.task] =
        some (x₀.allocate allocatable) := rfl
    have hright := (hall s _ _ hrun).2
    have hframes : stream.frames = [] := (hright.all hdone rfl).symm
    obtain ⟨hc, he⟩ : stream.chunks = [] ∧ stream.error = none := by
      simpa [BodyStream.frames] using hframes
    have hf : stream.Fills crates digest := by
      refine ⟨he, ?_⟩
      rw [hc]
      exact not_not.mp fun hd => hother ⟨hc, he, hd⟩
    obtain ⟨now, hb⟩ := hright.stored hdone hf
    have hl := congrArg (AList.lookup digest) hb
    rw [AList.lookup_insert] at hl
    cases hl
  · intro hcond s events x hr
    have h : Going crates allocatable s digest mediaType contentLength stream x :=
      run_invariant_of_mem (fun _ _ _ hi _ hs => hi.step hs)
        (.init crates allocatable s digest mediaType contentLength stream) (fun _ _ => trivial) hr
    refine ⟨⟨?_, not_stuck crates allocatable x, fun hgone later y hy => ?_⟩,
      h.allOrNothing fun hst => ?_⟩
    · exact (Nat.le_add_right _ _).trans (stepsLeft_run hr)
    · exact received_run ⟨hgone, (h.left hgone).1⟩ hy
    · have hok := h.stage
      obtain hlen | ⟨hc, he, hd⟩ := hcond
      · rcases hst with hst | hst <;> rw [StageOk, hst, h.contentLength] at hok <;>
          exact absurd hlen hok.2
      · simp [BodyStream.Fills, BodyStream.frames, hc, he, hd]

/-- A chunk and then an error, under a `Content-Length` of 2^63. -/
def brokenStream : BodyStream := ⟨[utf8 "a"], some "connection closed"⟩

/-- The task panics over its buffer, and a client that is there gets neither the chunk nor the
error. -/
theorem fill_panics_over_length :
    ∃ x, run (FillSys.step tableCrates (2 ^ 34))
        (.init freshState letterDigest "" (some "9223372036854775808") brokenStream) [.task] =
          some x ∧
      x.task.stage = .panicked ∧ x.receiver = true ∧ x.received ++ x.channel = [] ∧
      brokenStream.frames = [.ok (utf8 "a"), .error "connection closed"] ∧
      ¬ x.AllOrNothing tableCrates freshState letterDigest "" brokenStream := by
  have hint : isizeMax < contentLengthHint (some "9223372036854775808") := by decide +kernel
  refine ⟨_, rfl, ?_⟩
  simp only [FillSys.allocate, FillSys.init, hint, if_true]
  refine ⟨trivial, trivial, rfl, rfl, fun h => ?_⟩
  have hall := h.all (.inr (.inl rfl)) rfl
  cases hall

end Dockfoxprox
