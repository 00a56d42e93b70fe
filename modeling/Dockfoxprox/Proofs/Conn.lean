import Dockfoxprox.Lib.Machine
import Dockfoxprox.Model.Conn
import Dockfoxprox.Proofs.Resp

/-! What a connection sends: how many replies, which of them are well-formed, and what a
client that has not authenticated can learn and change. -/

namespace Dockfoxprox

/-- One well-formed RESP2 reply. -/
inductive WellFormedReply : Bytes → Prop
  | simple {s : Bytes} (hcr : 13 ∉ s) (hlf : 10 ∉ s) : WellFormedReply (43 :: s ++ [13, 10])
  | error {s : Bytes} (hcr : 13 ∉ s) (hlf : 10 ∉ s) : WellFormedReply (45 :: s ++ [13, 10])
  | integer (n : ℤ) : WellFormedReply (58 :: utf8 (toString n) ++ [13, 10])
  | bulk (b : Bytes) :
    WellFormedReply (36 :: utf8 (Nat.repr b.length) ++ [13, 10] ++ b ++ [13, 10])
  | nil : WellFormedReply (utf8 "$-1\r\n")
  | array (items : List Bytes) (h : ∀ i ∈ items, WellFormedReply i) :
    WellFormedReply (42 :: utf8 (Nat.repr items.length) ++ [13, 10] ++ items.flatten)

/-- The verb of a command is text with a line break in it. -/
def BreaksLine (args : List Bytes) : Prop :=
  ∃ verb ∈ args.head?, (fromUtf8 verb).isSome ∧ (13 ∈ verb ∨ 10 ∈ verb)

/-- The number of commands that get a reply: those up to the first QUIT. -/
def answered : List (List Bytes) → ℕ
  | [] => 0
  | args :: rest => if Verb.of (cmdOf args) = .quit then 1 else answered rest + 1

def Authenticates (password : Bytes) (args : List Bytes) : Prop :=
  Verb.of (cmdOf args) = .auth ∧ (args.length = 2 ∧ args[1]? = some password ∨
    args.length = 3 ∧ args[2]? = some password)

/-- A control character is the uppercase of itself only. -/
theorem toAsciiUppercase_eq_iff {b x : UInt8} (hx : x < 32) : toAsciiUppercase b = x ↔ b = x := by
  unfold toAsciiUppercase
  split
  · rename_i hb
    rw [UInt8.le_iff_toNat_le, UInt8.le_iff_toNat_le] at hb
    rw [UInt8.lt_iff_toNat_lt] at hx
    have h32 : (32 : UInt8) ≤ b := UInt8.le_iff_toNat_le.mpr (Nat.le_trans (by decide) hb.1)
    have hsub : (b - 32).toNat = b.toNat - 32 := UInt8.toNat_sub_of_le _ _ h32
    have h97 : 97 ≤ b.toNat := hb.1
    have hx' : x.toNat < 32 := hx
    constructor <;> rintro rfl <;> omega
  · rfl

theorem breaksLine_iff {args : List Bytes} :
    BreaksLine args ↔ 13 ∈ cmdOf args ∨ 10 ∈ cmdOf args := by
  have hmem {v : Bytes} {x : UInt8} (hx : x < 32) : x ∈ v.map toAsciiUppercase ↔ x ∈ v := by
    simp [toAsciiUppercase_eq_iff hx]
  cases args with
  | nil => simp [BreaksLine, cmdOf]
  | cons v rest =>
    by_cases hv : (fromUtf8 v).isSome
    · simp [BreaksLine, cmdOf, hv, Option.filter, hmem]
    · simp [BreaksLine, cmdOf, hv, Option.filter]

theorem verbs_oneLine : ∀ v ∈ verbs, 13 ∉ utf8 v.1 ∧ 10 ∉ utf8 v.1 := by decide +kernel

/-- A verb with an arm of its own has no line break. -/
theorem not_breaksLine_of_verb {args : List Bytes} (h : Verb.of (cmdOf args) ≠ .unknown) :
    ¬ BreaksLine args := by
  unfold Verb.of at h
  cases hf : verbs.find? fun v => utf8 v.1 = cmdOf args with
  | none => rw [hf] at h; exact absurd rfl h
  | some v =>
    have hv := verbs_oneLine v (List.mem_of_find?_eq_some hf)
    have hcmd : utf8 v.1 = cmdOf args := by simpa using List.find?_some hf
    rw [breaksLine_iff, ← hcmd]
    simp [hv.1, hv.2]

instance (args : List Bytes) : Decidable (BreaksLine args) := decidable_of_iff _ breaksLine_iff.symm

/-- An unknown verb is echoed in one line exactly when it has no line break. -/
theorem wellFormed_unknownCommand {args : List Bytes} :
    WellFormedReply (Conn.unknownCommand (cmdOf args)) ↔ ¬ BreaksLine args := by
  rw [breaksLine_iff, not_or]
  constructor
  · intro h
    generalize hb : Conn.unknownCommand (cmdOf args) = b at h
    cases h with
    | @error s hcr hlf =>
      have hs : utf8 "ERR unknown command '" ++ cmdOf args ++ utf8 "'" = s :=
        List.append_cancel_right (List.cons.inj hb).2
      subst hs
      exact ⟨fun hm => hcr (by simp [hm]), fun hm => hlf (by simp [hm])⟩
    | nil => cases hb
    | _ => cases hb
  · rintro ⟨hcr, hlf⟩
    have hpre : 13 ∉ utf8 "ERR unknown command '" ∧ 10 ∉ utf8 "ERR unknown command '" := by
      decide +kernel
    have hpost : 13 ∉ utf8 "'" ∧ 10 ∉ utf8 "'" := by decide +kernel
    exact .error (by simp [hcr, hpre.1, hpost.1]) (by simp [hlf, hpre.2, hpost.2])

namespace Conn

variable {password : Option Bytes} {s : State} {c : Conn} {args : List Bytes}

/-- What a command leaves of the connection that was ready for it. -/
inductive Outcome (c : Conn) (args : List Bytes) : Conn → Prop
  | replied (b : Bytes) (authed : Bool) (hv : Verb.of (cmdOf args) ≠ .quit)
      (hb : WellFormedReply b ↔ ¬ (c.authed ∧ BreaksLine args)) :
    Outcome c args { c.reply b with authed := authed }
  | quit (hv : Verb.of (cmdOf args) = .quit) :
    Outcome c args { c.reply (writeSimple (utf8 "OK")) with phase := .closed }
  | getting (key : Bytes) (hv : Verb.of (cmdOf args) = .get) :
    Outcome c args { c with phase := .getting (.start key) }

/-- A reply of an arm with a verb of its own. -/
theorem Outcome.known {v : Verb} {b : Bytes} (hv : Verb.of (cmdOf args) = v) (hq : v ≠ .quit)
    (hu : v ≠ .unknown) (hb : WellFormedReply b) : Outcome c args (c.reply b) :=
  .replied b c.authed (hv ▸ hq)
    (iff_of_true hb fun h => not_breaksLine_of_verb (hv ▸ hu) h.2)

theorem authedCommand_outcome (ha : c.authed) (hq : Verb.of (cmdOf args) ≠ .quit) :
    Outcome c args (c.authedCommand s args).2 := by
  have hok : WellFormedReply (writeSimple (utf8 "OK")) :=
    .simple (by decide +kernel) (by decide +kernel)
  unfold authedCommand
  cases hv : Verb.of (cmdOf args) with
  | get =>
    match args with
    | [_, key] => exact .getting key hv
    | [] | [_] | _ :: _ :: _ :: _ =>
      exact .known hv (by decide) (by decide) (.error (by decide +kernel) (by decide +kernel))
  | set =>
    match args with
    | _ :: key :: value :: _ => exact .known hv (by decide) (by decide) hok
    | [] | [_] | [_, _] =>
      exact .known hv (by decide) (by decide) (.error (by decide +kernel) (by decide +kernel))
  | del => exact .known hv (by decide) (by decide) (.integer _)
  | «exists» => exact .known hv (by decide) (by decide) (.integer _)
  | flush => exact .known hv (by decide) (by decide) hok
  | select => exact .known hv (by decide) (by decide) hok
  | info => exact .known hv (by decide) (by decide) (.bulk [])
  | dbsize => exact .known hv (by decide) (by decide) (.integer _)
  | quit => exact absurd hv hq
  | _ => exact .replied _ c.authed hq (by simp [wellFormed_unknownCommand, ha])

theorem checkPassword_outcome {given : Bytes} (hv : Verb.of (cmdOf args) = .auth) :
    Outcome c args (c.checkPassword password given) := by
  cases password with
  | none => exact .known hv (by decide) (by decide) (.error (by decide +kernel) (by decide +kernel))
  | some p =>
    by_cases hp : given = p
    · simp only [checkPassword, if_pos hp]
      refine .replied _ true (by rw [hv]; decide) (iff_of_true ?_ fun h => ?_)
      · exact .simple (by decide +kernel) (by decide +kernel)
      · exact not_breaksLine_of_verb (by rw [hv]; decide) h.2
    · simp only [checkPassword, if_neg hp]
      exact .known hv (by decide) (by decide) (.error (by decide +kernel) (by decide +kernel))

theorem auth_outcome (hv : Verb.of (cmdOf args) = .auth) :
    Outcome c args (c.auth password args) := by
  match args with
  | [_, given] => exact checkPassword_outcome hv
  | [_, _, given] => exact checkPassword_outcome hv
  | [] | [_] | _ :: _ :: _ :: _ :: _ =>
    exact .known hv (by decide) (by decide) (.error (by decide +kernel) (by decide +kernel))

/-- Every command has one of these outcomes. -/
theorem dispatch_outcome (password : Option Bytes) (s : State) (c : Conn) (args : List Bytes) :
    Outcome c args (c.dispatch password s args).2 := by
  unfold dispatch
  cases hv : Verb.of (cmdOf args) with
  | ping =>
    match args with
    | _ :: msg :: _ => exact .known hv (by decide) (by decide) (.bulk msg)
    | [] | [_] =>
      exact .known hv (by decide) (by decide) (.simple (by decide +kernel) (by decide +kernel))
  | quit => exact .quit hv
  | hello => exact .known hv (by decide) (by decide) (.error (by decide +kernel) (by decide +kernel))
  | command => exact .known hv (by decide) (by decide) (.array [] (by simp))
  | auth => exact auth_outcome hv
  | _ =>
    by_cases ha : c.authed
    · simp only [if_pos ha]
      exact authedCommand_outcome ha (by rw [hv]; decide)
    · simp only [if_neg ha]
      refine .replied _ c.authed (by rw [hv]; decide) (iff_of_true ?_ fun h => ha h.1)
      exact .error (by decide +kernel) (by decide +kernel)

/-- The next command would be answered with a broken line. -/
def Breaks (c : Conn) : Prop :=
  c.phase = .ready ∧ c.authed ∧ ∃ args ∈ c.input.head?, BreaksLine args

instance (c : Conn) : Decidable c.Breaks :=
  inferInstanceAs (Decidable (c.phase = .ready ∧ c.authed ∧ ∃ args ∈ c.input.head?, BreaksLine args))

/-- The replies the connection has yet to send. -/
def outstanding (c : Conn) : ℕ :=
  match c.phase with
  | .ready => answered c.input
  | .getting _ => answered c.input + 1
  | .closed => 0

/-- What is true of a connection between two steps: nothing is left to flush, and every
command to come has a verb. -/
structure Wf (c : Conn) : Prop where
  buf : c.buf = []
  input : ∀ args ∈ c.input, args ≠ []

/-- One step sends at most one reply, a well-formed one unless the command breaks it. -/
inductive Sends (c c' : Conn) : Prop
  | nothing (hw : c'.Wf) (hs : c'.sent = c.sent) (hn : c'.outstanding = c.outstanding)
      (hb : ¬ c.Breaks)
  | reply (b : Bytes) (hw : c'.Wf) (hs : c'.sent = c.sent ++ [b])
      (hn : c'.outstanding + 1 = c.outstanding) (hb : WellFormedReply b ↔ ¬ c.Breaks)

theorem wellFormed_getBytes (r : Option Bytes) : WellFormedReply (getBytes r) := by
  cases r with
  | none => exact .nil
  | some value => exact .bulk value

/-- The step that handles a command. -/
theorem Outcome.sends {rest : List (List Bytes)} {c' : Conn} (hw : c.Wf) (hp : c.phase = .ready)
    (hi : c.input = args :: rest) (h : Outcome { c with input := rest } args c') : Sends c c' := by
  have hrest : ∀ a ∈ rest, a ≠ [] := fun a ha => hw.input a (by simp [hi, ha])
  have hbr : c.Breaks ↔ c.authed ∧ BreaksLine args := by simp [Breaks, hp, hi]
  have hout : c.outstanding = if Verb.of (cmdOf args) = .quit then 1 else answered rest + 1 := by
    simp [outstanding, hp, hi, answered]
  cases h with
  | replied b a hv hb =>
    refine .reply b ⟨rfl, hrest⟩ ?_ ?_ (by rw [hb, hbr])
    · simp [Conn.reply, Conn.flush, Conn.write, hw.buf]
    · rw [hout, if_neg hv]
      rfl
  | quit hv =>
    refine .reply (writeSimple (utf8 "OK")) ⟨rfl, hrest⟩ ?_ ?_ ?_
    · simp [Conn.reply, Conn.flush, Conn.write, hw.buf]
    · rw [hout, if_pos hv]
      rfl
    · rw [hbr]
      refine iff_of_true (.simple (by decide +kernel) (by decide +kernel)) fun h => ?_
      exact not_breaksLine_of_verb (by rw [hv]; decide) h.2
  | getting key hv =>
    refine .nothing ⟨hw.buf, hrest⟩ rfl ?_ ?_
    · rw [hout, if_neg (by rw [hv]; decide)]
      rfl
    · rw [hbr]
      exact fun h => not_breaksLine_of_verb (by rw [hv]; decide) h.2

theorem getStep_sends {g : Get} (hw : c.Wf) (hp : c.phase = .getting g) :
    Sends c (c.getStep s g).2 := by
  have hb : ¬ c.Breaks := fun h => by cases h.1.symm.trans hp
  have hout : c.outstanding = answered c.input + 1 := by simp [outstanding, hp]
  unfold getStep
  cases (g.step s).2 with
  | done r =>
    refine .reply (getBytes r) ⟨rfl, hw.input⟩ ?_ ?_ (iff_of_true (wellFormed_getBytes r) hb)
    · simp [Conn.reply, Conn.flush, Conn.write, hw.buf]
    · rw [hout]
      rfl
  | _ => exact .nothing ⟨hw.buf, hw.input⟩ rfl (by rw [hout]; rfl) hb

theorem step_sends (password : Option Bytes) (s : State) (hw : c.Wf) (ho : c.phase ≠ .closed) :
    Sends c (c.step password s).2 := by
  cases hp : c.phase with
  | closed => exact absurd hp ho
  | getting g =>
    simp only [step, hp]
    exact getStep_sends hw hp
  | ready =>
    simp only [step, hp]
    match hi : c.input with
    | [] =>
      refine .nothing ⟨hw.buf, by simp⟩ rfl ?_ ?_
      · simp [outstanding, hp, hi, answered]
      · rintro ⟨-, -, args, ha, -⟩
        simp [hi] at ha
    | [] :: rest => exact absurd rfl (hw.input [] (by simp [hi]))
    | (v :: args) :: rest => exact Outcome.sends hw hp hi (dispatch_outcome ..)

end Conn

/-- No command is about to break its reply. -/
def ConnSys.Unbroken (x : ConnSys) (e : ConnEvent) (_ : ConnSys) : Prop :=
  match e with
  | .go => ¬ x.conn.Breaks
  | .other _ => True

instance (x : ConnSys) (e : ConnEvent) (x' : ConnSys) : Decidable (x.Unbroken e x') :=
  match e with
  | .go => inferInstanceAs (Decidable (¬ x.conn.Breaks))
  | .other _ => isTrue trivial

theorem ConnSys.go_eq_some {password : Option Bytes} {x x' : ConnSys}
    (h : x.step password .go = some x') :
    x.conn.phase ≠ .closed ∧ x'.conn = (x.conn.step password x.st).2 := by
  simp only [ConnSys.step] at h
  split at h
  · cases h
  · cases h
    exact ⟨‹_›, rfl⟩

/-- The number of replies sent and outstanding stays what it was at the start. -/
theorem ConnSys.run_count {password : Option Bytes} {x t : ConnSys} {es : List ConnEvent}
    (hw : x.conn.Wf) (hr : Machine.run (ConnSys.step password) x es = some t) :
    t.conn.Wf ∧ t.conn.sent.length + t.conn.outstanding =
      x.conn.sent.length + x.conn.outstanding := by
  refine Machine.run_invariant (C := fun _ _ _ => True)
    (I := fun y : ConnSys => y.conn.Wf ∧ y.conn.sent.length + y.conn.outstanding =
      x.conn.sent.length + x.conn.outstanding) (fun y e y' hi _ hs => ?_) ⟨hw, rfl⟩
    (Machine.along_true _ _) hr
  cases e with
  | other s =>
    cases hs
    exact hi
  | go =>
    obtain ⟨ho, hc⟩ := ConnSys.go_eq_some hs
    rw [hc, ← hi.2]
    cases Conn.step_sends password y.st hi.1 ho with
    | nothing hw hsent hn hb => exact ⟨hw, by rw [hsent, hn]⟩
    | reply b hw hsent hn hb => exact ⟨hw, by rw [hsent, ← hn]; simp; omega⟩

/-- The replies are well-formed at the end of a run exactly when they were at its start and
no command of the run broke its reply. -/
theorem ConnSys.run_wellFormed {password : Option Bytes} {x t : ConnSys} {es : List ConnEvent}
    (hw : x.conn.Wf) (hr : Machine.run (ConnSys.step password) x es = some t) :
    (∀ b ∈ t.conn.sent, WellFormedReply b) ↔ (∀ b ∈ x.conn.sent, WellFormedReply b) ∧
      Machine.Along (ConnSys.step password) ConnSys.Unbroken x es := by
  refine Machine.run_iff_along (I := fun y : ConnSys => y.conn.Wf)
    (Q := fun y : ConnSys => ∀ b ∈ y.conn.sent, WellFormedReply b) (fun y e y' hi hs => ?_) hw hr
  cases e with
  | other s =>
    cases hs
    exact ⟨hi, by simp [ConnSys.Unbroken]⟩
  | go =>
    obtain ⟨ho, hc⟩ := ConnSys.go_eq_some hs
    rw [hc]
    cases Conn.step_sends password y.st hi ho with
    | nothing hw hsent hn hb => exact ⟨hw, by simp [hsent, ConnSys.Unbroken, hb]⟩
    | reply b hw hsent hn hb => exact ⟨hw, by simp [hsent, ConnSys.Unbroken, hb, or_imp, forall_and]⟩

/-- The steps a GET has at most before it. -/
def Get.left : Get → ℕ
  | .start _ => 3
  | .cloned _ _ => 2
  | _ => 1

/-- A bound on the steps a connection has before it. -/
def Conn.left (c : Conn) : ℕ :=
  match c.phase with
  | .closed => 0
  | .ready => 5 * c.input.length + 1
  | .getting g => 5 * c.input.length + 1 + g.left

theorem Get.left_step (s : State) (g : Get) :
    (∃ r, (g.step s).2 = .done r) ∨ (g.step s).2.left < g.left := by
  cases g with
  | start key =>
    simp only [Get.step]
    split
    · exact .inl ⟨_, rfl⟩
    · exact .inl ⟨_, rfl⟩
    · exact .inr (Nat.lt_succ_self 2)
  | cloned key id =>
    simp only [Get.step]
    split <;> exact .inr (Nat.lt_succ_self 1)
  | loaded key value => exact .inl ⟨_, rfl⟩
  | failed key => exact .inl ⟨_, rfl⟩
  | done r => exact .inl ⟨_, rfl⟩

theorem Conn.Outcome.left_le {c c' : Conn} {args : List Bytes} (h : Outcome c args c') :
    c'.left ≤ 5 * c.input.length + 4 := by
  cases h with
  | replied b a hv hb => exact Nat.add_le_add_left (by decide) _
  | quit hv => exact Nat.zero_le _
  | getting key hv => exact Nat.le_refl _

theorem Conn.left_getStep (s : State) (c : Conn) (g : Get) :
    (c.getStep s g).2.left < 5 * c.input.length + 1 + g.left := by
  have hpos : 0 < g.left := by cases g <;> exact Nat.succ_pos _
  have hstep := g.left_step s
  unfold getStep
  generalize (g.step s).2 = g' at hstep
  cases g' with
  | done r => exact Nat.lt_add_of_pos_right hpos
  | _ =>
    obtain ⟨r, hr⟩ | hlt := hstep
    · cases hr
    · exact Nat.add_lt_add_left hlt _

theorem Conn.left_step (password : Option Bytes) (s : State) {c : Conn} (ho : c.phase ≠ .closed) :
    (c.step password s).2.left < c.left := by
  cases hp : c.phase with
  | closed => exact absurd hp ho
  | getting g =>
    have hl : c.left = 5 * c.input.length + 1 + g.left := by simp [left, hp]
    simp only [step, hp, hl]
    exact left_getStep s c g
  | ready =>
    have hl : c.left = 5 * c.input.length + 1 := by simp [left, hp]
    simp only [step, hp, hl]
    match hi : c.input with
    | [] => exact Nat.succ_pos _
    | [] :: rest => simp [left]
    | (v :: args) :: rest =>
      have := (dispatch_outcome password s { c with input := rest, phase := .ready }
        (v :: args)).left_le
      simp only [List.length_cons] at this ⊢
      omega

/-- Left to itself, a connection comes to its end. -/
theorem ConnSys.exists_closed (password : Option Bytes) (x : ConnSys) :
    ∃ es t, Machine.run (ConnSys.step password) x es = some t ∧ t.conn.phase = .closed := by
  generalize hn : x.conn.left = n
  induction n using Nat.strong_induction_on generalizing x with
  | _ n ih =>
    by_cases ho : x.conn.phase = .closed
    · exact ⟨[], x, rfl, ho⟩
    · have hlt := x.conn.left_step password x.st ho
      obtain ⟨es, t, hr, hc⟩ := ih _ (hn ▸ hlt) ⟨_, (x.conn.step password x.st).2⟩ rfl
      exact ⟨.go :: es, t, Machine.run_cons.mpr ⟨_, if_neg ho, hr⟩, hc⟩

/-- A connection beside any other tasks comes to its end, and has then sent one reply for
each command up to the first QUIT; all of them are well-formed exactly when no command with
a line break in its verb was handled while the connection was authenticated. -/
theorem replies_wellFormed_iff (password : Option Bytes) (s : State) (authed : Bool)
    (cmds : List (List Bytes)) (hne : ∀ args ∈ cmds, args ≠ []) :
    let x : ConnSys := ⟨s, ⟨authed, .ready, cmds, [], []⟩⟩
    (∃ es t, Machine.run (ConnSys.step password) x es = some t ∧ t.conn.phase = .closed) ∧
    ∀ es t, Machine.run (ConnSys.step password) x es = some t → t.conn.phase = .closed →
      ((t.conn.sent.length = answered cmds ∧ ∀ b ∈ t.conn.sent, WellFormedReply b) ↔
        Machine.Along (ConnSys.step password) ConnSys.Unbroken x es) := by
  intro x
  refine ⟨x.exists_closed password, fun es t hr hc => ?_⟩
  have hw : x.conn.Wf := ⟨rfl, hne⟩
  have hcount : t.conn.sent.length = answered cmds := by
    simpa [Conn.outstanding, hc, x] using (ConnSys.run_count hw hr).2
  rw [and_iff_right hcount, ConnSys.run_wellFormed hw hr]
  simp [x]

/-- A connection with no password whose client sends `PING` and an unknown verb. -/
theorem replies_wellFormed_iff_ping :
    ∃ es t, Machine.run (ConnSys.step none)
        ⟨State.new ⟨0, none, 0⟩ 0, ⟨true, .ready, [[utf8 "ping"], [utf8 "foo"]], [], []⟩⟩ es =
          some t ∧
      t.conn.phase = .closed ∧ t.conn.sent.length = answered [[utf8 "ping"], [utf8 "foo"]] ∧
      ∀ b ∈ t.conn.sent, WellFormedReply b := by
  have hne : ∀ args ∈ [[utf8 "ping"], [utf8 "foo"]], args ≠ [] := by decide +kernel
  have hrun : ((Machine.run (ConnSys.step none)
      ⟨State.new ⟨0, none, 0⟩ 0, ⟨true, .ready, [[utf8 "ping"], [utf8 "foo"]], [], []⟩⟩
      [.go, .go, .go]).map fun t => t.conn.phase) = some .closed := by decide +kernel
  obtain ⟨t, hr, hc⟩ := Option.map_eq_some_iff.mp hrun
  have h := (replies_wellFormed_iff none _ true _ hne).2 _ t hr hc
  exact ⟨_, t, hr, hc, h.mpr (by decide +kernel)⟩

/-- A client sends one command, `a` CR LF, and gets a line that ends before its reply does. -/
theorem reply_broken_by_verb :
    ¬ ∀ (password : Option Bytes) (s : State) (authed : Bool) (cmds : List (List Bytes))
        (es : List ConnEvent) (t : ConnSys), (∀ args ∈ cmds, args ≠ []) →
      Machine.run (ConnSys.step password) ⟨s, ⟨authed, .ready, cmds, [], []⟩⟩ es = some t →
      t.conn.phase = .closed →
      t.conn.sent.length = answered cmds ∧ ∀ b ∈ t.conn.sent, WellFormedReply b := by
  intro h
  have hrun : ((Machine.run (ConnSys.step none)
      ⟨State.new ⟨0, none, 0⟩ 0, ⟨true, .ready, [[utf8 "a\r\n"]], [], []⟩⟩ [.go, .go]).map
        ConnSys.conn) = some ⟨true, .closed, [], [], [Conn.unknownCommand (cmdOf [utf8 "a\r\n"])]⟩ := by
    decide +kernel
  obtain ⟨t, hr, ht⟩ := Option.map_eq_some_iff.mp hrun
  have hw := (h none _ true [[utf8 "a\r\n"]] _ t (by decide +kernel) hr (by rw [ht])).2
  rw [ht] at hw
  have hbad : BreaksLine [utf8 "a\r\n"] := breaksLine_iff.mpr (by decide +kernel)
  exact wellFormed_unknownCommand.mp (hw _ (List.mem_singleton_self _)) hbad

/-! A client that does not know the password. -/

/-- A connection that is not authenticated and will not be. -/
structure Conn.Locked (password : Bytes) (c : Conn) : Prop where
  authed : c.authed = false
  idle : ∀ g, c.phase ≠ .getting g
  input : ∀ args ∈ c.input, ¬ Authenticates password args

/-- The steps a locked connection has before it. -/
def Conn.remaining (c : Conn) : ℕ := if c.phase = .closed then 0 else c.input.length + 1

theorem Conn.Locked.auth {password : Bytes} {c : Conn} {args : List Bytes}
    (hv : Verb.of (cmdOf args) = .auth) (hn : ¬ Authenticates password args) :
    ∃ b, c.auth (some password) args = c.reply b := by
  unfold Conn.auth
  match args with
  | [a, given] =>
    refine ⟨_, if_neg ?_⟩
    rintro rfl
    exact hn ⟨hv, .inl ⟨rfl, rfl⟩⟩
  | [a, user, given] =>
    refine ⟨_, if_neg ?_⟩
    rintro rfl
    exact hn ⟨hv, .inr ⟨rfl, rfl⟩⟩
  | [] | [_] | _ :: _ :: _ :: _ :: _ => exact ⟨_, rfl⟩

/-- A command on a locked connection leaves the state alone, and its reply does not depend
on it. -/
theorem Conn.Locked.dispatch {password : Bytes} {c : Conn} {args : List Bytes}
    (ha : c.authed = false) (hn : ¬ Authenticates password args) :
    ∃ b ph, (ph = .ready ∨ ph = .closed) ∧
      ∀ s, c.dispatch (some password) s args = (s, { c.reply b with phase := ph }) := by
  unfold Conn.dispatch
  cases hv : Verb.of (cmdOf args) with
  | ping =>
    match args with
    | _ :: msg :: _ => exact ⟨writeBulk msg, .ready, .inl rfl, fun _ => rfl⟩
    | [] | [_] => exact ⟨_, .ready, .inl rfl, fun _ => rfl⟩
  | quit => exact ⟨_, .closed, .inr rfl, fun _ => rfl⟩
  | hello => exact ⟨_, .ready, .inl rfl, fun _ => rfl⟩
  | command => exact ⟨_, .ready, .inl rfl, fun _ => rfl⟩
  | auth =>
    obtain ⟨b, hb⟩ := Conn.Locked.auth (c := c) hv hn
    exact ⟨b, .ready, .inl rfl, fun _ => by rw [hb]; rfl⟩
  | _ => exact ⟨_, .ready, .inl rfl, fun _ => by simp only [ha]; rfl⟩

/-- A locked connection moves the same way over every state, leaves it alone and stays
locked. -/
theorem Conn.Locked.step {password : Bytes} {c : Conn} (h : c.Locked password) :
    ∃ c', (∀ s, c.step (some password) s = (s, c')) ∧ c'.Locked password ∧
      c'.remaining ≤ c.remaining - 1 := by
  unfold Conn.step
  cases hp : c.phase with
  | getting g => exact absurd hp (h.idle g)
  | closed => exact ⟨c, fun _ => rfl, h, by simp [remaining, hp]⟩
  | ready =>
    match hi : c.input with
    | [] =>
      refine ⟨_, fun _ => rfl, ⟨h.authed, fun g => ConnPhase.noConfusion, ?_⟩, by simp [remaining]⟩
      simp
    | [] :: rest =>
      refine ⟨_, fun _ => rfl, ⟨h.authed, fun g => ConnPhase.noConfusion, fun args ha => ?_⟩, ?_⟩
      · exact h.input args (by simp [hi, show args ∈ rest from ha])
      · simp [remaining, hp, hi]
    | (v :: args) :: rest =>
      obtain ⟨b, ph, hph, hd⟩ := Conn.Locked.dispatch (c := { c with input := rest, phase := .ready })
        h.authed (h.input (v :: args) (by simp [hi]))
      refine ⟨_, hd, ⟨h.authed, fun g => ?_, fun args ha => ?_⟩, ?_⟩
      · rcases hph with rfl | rfl <;> exact ConnPhase.noConfusion
      · exact h.input args (by simp [hi, show args ∈ rest from ha])
      · rcases hph with rfl | rfl <;>
          simp [remaining, hp, hi, Conn.reply, Conn.flush, Conn.write]

/-- The connection over `s` after `n` of its steps, with the state it leaves. -/
def Conn.after (password : Option Bytes) (s : State) (cmds : List (List Bytes)) (n : ℕ) :
    State × Conn :=
  (fun x : State × Conn => x.2.step password x.1)^[n] (s, Conn.fresh password cmds)

theorem Conn.Locked.iterate {password : Bytes} {c : Conn} (h : c.Locked password) (n : ℕ) :
    ∃ c', (∀ s, (fun x : State × Conn => x.2.step (some password) x.1)^[n] (s, c) = (s, c')) ∧
      c'.remaining ≤ c.remaining - n := by
  induction n generalizing c with
  | zero => exact ⟨c, fun _ => rfl, by simp⟩
  | succ n ih =>
    obtain ⟨c₁, hs, hl, hr⟩ := h.step
    obtain ⟨c₂, hn, hr₂⟩ := ih hl
    refine ⟨c₂, fun s => ?_, by omega⟩
    rw [Function.iterate_succ_apply]
    show (fun x : State × Conn => x.2.step (some password) x.1)^[n] (c.step (some password) s) = _
    rw [hs, hn]

/-- Noninterference of the authentication gate: a client that never gives the password gets
the same bytes over any two states, changes neither of them, and is served to its end. -/
theorem unauthenticated_noninterference (password : Bytes) (s₁ s₂ : State)
    {cmds : List (List Bytes)} (h : ∀ args ∈ cmds, ¬ Authenticates password args) (n : ℕ) :
    (Conn.after (some password) s₁ cmds n).2 = (Conn.after (some password) s₂ cmds n).2 ∧
    (Conn.after (some password) s₁ cmds n).1 = s₁ ∧
    (Conn.after (some password) s₂ cmds n).1 = s₂ ∧
    (cmds.length < n → (Conn.after (some password) s₁ cmds n).2.phase = .closed) := by
  have hl : (Conn.fresh (some password) cmds).Locked password :=
    ⟨rfl, fun g => ConnPhase.noConfusion, h⟩
  obtain ⟨c, hc, hr⟩ := hl.iterate n
  simp only [Conn.after, hc, true_and]
  intro hn
  have hf : (Conn.fresh (some password) cmds).remaining = cmds.length + 1 := rfl
  have hz : c.remaining = 0 := by omega
  by_contra hcl
  simp [Conn.remaining, hcl] at hz

/-- A wrong password and a GET, over an empty state and over one that holds the key. -/
theorem unauthenticated_noninterference_get :
    (Conn.after (some (utf8 "pw")) (State.new ⟨0, none, 0⟩ 0) [[utf8 "AUTH", utf8 "x"],
      [utf8 "GET", utf8 "k"]] 3).2 =
    (Conn.after (some (utf8 "pw")) ((State.new ⟨0, none, 0⟩ 0).insertRedis (utf8 "k") (utf8 "v"))
      [[utf8 "AUTH", utf8 "x"], [utf8 "GET", utf8 "k"]] 3).2 :=
  (unauthenticated_noninterference (utf8 "pw") _ _ (by unfold Authenticates; decide +kernel) 3).1

end Dockfoxprox
