import Dockfoxprox.Model.Wire
import Dockfoxprox.Proofs.Alloc
import Dockfoxprox.Proofs.Conn

/-! A connection on the bytes of its socket executes the commands of the stream it is sent, in
whatever pieces they come: a reader that has what it needs does not look further, and what it finds
wrong stays wrong. A command that is cut off is not executed. -/

namespace Dockfoxprox

open Machine Reader

/-- A reader waits on these errors until the client hangs up. -/
def IoError.AtEnd (e : IoError) : Prop := e.kind = .unexpectedEof

theorem steady_liftM {α : Type} (x : Except IoError α) :
    Steady IoError.AtEnd (liftM x : Reader UInt8 IoError α) := by
  cases x with
  | error e => exact .throw e
  | ok a => exact .pure a

/-- A line that was read, or was found to be wrong, stays so; there is none only at the end. -/
theorem readHeaderLine_more {s : Bytes} :
    (∀ line rest, readHeaderLine s = .ok (some line, rest) →
      ∀ more, readHeaderLine (s ++ more) = .ok (some line, rest ++ more)) ∧
    (∀ rest, readHeaderLine s = .ok (none, rest) → s = []) ∧
    ∀ e, readHeaderLine s = .error e → ¬ e.AtEnd →
      ∀ more, readHeaderLine (s ++ more) = .error e := by
  refine ⟨fun line rest h more => ?_, fun rest h => ?_, fun e h hne more => ?_⟩
  · obtain ⟨hlf, rfl⟩ := readHeaderLine_eq_some.mp h
    exact readHeaderLine_eq_some.mpr ⟨hlf, by simp⟩
  · cases s with
    | nil => rfl
    | cons b s => exact absurd h readHeaderLine_ne_none
  · obtain h | ⟨buf, m, hr, h⟩ := bind_eq_error.mp h
    · cases h
    have hcut : cutAfter 10 s = (buf, m) := Except.ok.inj hr
    split at h
    · cases h
    · rename_i hbuf
      split at h
      · obtain rfl := Except.error.inj h
        exact absurd rfl hne
      · rename_i hlast
        have hmore := cutAfter_more (by rw [hcut]; exact not_not.mp hlast) more
        rw [hcut] at hmore
        refine bind_eq_error.mpr (.inr ⟨buf, m ++ more, congrArg Except.ok hmore, ?_⟩)
        split at h
        · rename_i hbad
          obtain rfl := Except.error.inj h
          rw [if_neg hbuf, if_neg hlast, if_pos hbad]
          rfl
        · cases h

theorem steady_readBulkBody (len : Bytes) : Steady IoError.AtEnd (readBulkBody len) := by
  have hend : IoError.AtEnd earlyEof := rfl
  refine (steady_liftM _).bind fun n => (Steady.readExact hend n).bind fun buf =>
    (Steady.readExact hend 2).bind fun c => ?_
  split
  · exact .throw _
  · exact .pure _

theorem steady_readBulk : Steady IoError.AtEnd readBulk := by
  have hline (line : Bytes) : Steady IoError.AtEnd
      (if line.head? ≠ some 36 then throw ⟨.invalidData, "expected bulk string"⟩
        else readBulkBody line.tail : Reader UInt8 IoError Bytes) := by
    split
    · exact .throw _
    · exact steady_readBulkBody _
  constructor
  · intro s arg rest h more
    obtain ⟨line, m, hl, h⟩ := bind_eq_ok.mp h
    cases line with
    | none => exact absurd h throw_ne_ok
    | some line =>
      exact bind_eq_ok.mpr ⟨some line, m ++ more, readHeaderLine_more.1 line m hl more,
        (hline line).ok h more⟩
  · intro s e h hne more
    rcases bind_eq_error.mp h with h | ⟨line, m, hl, h⟩
    · exact bind_eq_error.mpr (.inl (readHeaderLine_more.2.2 e h hne more))
    · cases line with
      | none =>
        obtain rfl := Except.error.inj h
        exact absurd rfl hne
      | some line =>
        exact bind_eq_error.mpr (.inr ⟨some line, m ++ more, readHeaderLine_more.1 line m hl more,
          (hline line).error h hne more⟩)

/-- The arguments of a command whose first line was read. -/
def readArguments : Bytes → Reader UInt8 IoError (Option (List Bytes))
  | [] => pure (some [])
  | b :: line =>
    if b ≠ 42 then
      match fromUtf8 (b :: line) with
      | none => throw ⟨.invalidData, "bad inline command"⟩
      | some s => pure (some ((splitWhitespace s).map fun p => utf8 (String.ofList p)))
    else do
      let n ← liftM (parseLen line)
      let args ← times readBulk n
      pure (some args)

theorem readCommand_eq :
    readCommand = readHeaderLine >>= fun line => line.elim (pure none) readArguments := by
  unfold readCommand
  congr 1
  funext line
  rcases line with _ | _ | ⟨b, line⟩ <;> rfl

theorem readArguments_eq_ok {line s rest : Bytes} {x : Option (List Bytes)}
    (h : readArguments line s = .ok (x, rest)) :
    (∃ args, x = some args) ∧ rest.length ≤ s.length := by
  cases line with
  | nil =>
    obtain ⟨rfl, rfl⟩ := pure_eq_ok.mp h
    exact ⟨⟨[], rfl⟩, Nat.le_refl _⟩
  | cons b line =>
    simp only [readArguments] at h
    split at h
    · cases htext : fromUtf8 (b :: line) with
      | none =>
        rw [htext] at h
        exact absurd h throw_ne_ok
      | some text =>
        rw [htext] at h
        obtain ⟨rfl, rfl⟩ := pure_eq_ok.mp h
        exact ⟨⟨_, rfl⟩, Nat.le_refl _⟩
    · have harr := (accepts_liftM (parseLen line)).bind fun n =>
        (accepts_readBulk.times n).bind fun args => Accepts.pure (ε := IoError) (some args)
      obtain ⟨u, ⟨n, v, w, -, ⟨args, y, z, -, ⟨rfl, -⟩, -⟩, -⟩, rfl⟩ := (harr s x rest).mp h
      exact ⟨⟨args, rfl⟩, by simp⟩

theorem steady_readArguments (line : Bytes) : Steady IoError.AtEnd (readArguments line) := by
  cases line with
  | nil => exact .pure _
  | cons b line =>
    simp only [readArguments]
    split
    · split
      · exact .throw _
      · exact .pure _
    · exact (steady_liftM _).bind fun n => (steady_readBulk.times n).bind fun args => .pure _

/-- A command that was read, or was found to be wrong, stays so; there is none only at the end. -/
theorem readCommand_more {s : Bytes} :
    (∀ args rest, readCommand s = .ok (some args, rest) →
      ∀ more, readCommand (s ++ more) = .ok (some args, rest ++ more)) ∧
    (∀ rest, readCommand s = .ok (none, rest) → s = []) ∧
    ∀ e, readCommand s = .error e → ¬ e.AtEnd → ∀ more, readCommand (s ++ more) = .error e := by
  rw [readCommand_eq]
  refine ⟨fun args rest h more => ?_, fun rest h => ?_, fun e h hne more => ?_⟩
  · obtain ⟨line, m, hl, h⟩ := bind_eq_ok.mp h
    cases line with
    | none => cases (pure_eq_ok.mp h).1
    | some line =>
      exact bind_eq_ok.mpr ⟨some line, m ++ more, readHeaderLine_more.1 line m hl more,
        (steady_readArguments line).ok h more⟩
  · obtain ⟨line, m, hl, h⟩ := bind_eq_ok.mp h
    cases line with
    | none => exact readHeaderLine_more.2.1 m hl
    | some line =>
      obtain ⟨args, hargs⟩ := (readArguments_eq_ok h).1
      cases hargs
  · rcases bind_eq_error.mp h with h | ⟨line, m, hl, h⟩
    · exact bind_eq_error.mpr (.inl (readHeaderLine_more.2.2 e h hne more))
    · cases line with
      | none => cases h
      | some line =>
        exact bind_eq_error.mpr (.inr ⟨some line, m ++ more, readHeaderLine_more.1 line m hl more,
          (steady_readArguments line).error h hne more⟩)

/-- A command takes a byte at least. -/
theorem readCommand_length_lt {s rest : Bytes} {args : List Bytes}
    (h : readCommand s = .ok (some args, rest)) : rest.length < s.length := by
  rw [readCommand_eq] at h
  obtain ⟨line, m, hl, hargs⟩ := bind_eq_ok.mp h
  cases line with
  | none => cases (pure_eq_ok.mp hargs).1
  | some line =>
    obtain ⟨-, rfl⟩ := readHeaderLine_eq_some.mp hl
    have hle := (readArguments_eq_ok hargs).2
    simp only [List.length_append, crlf, List.length_cons]
    omega

/-! The commands of a stream. -/

theorem commandsIn_eq {n : ℕ} {s : Bytes} (h : s.length ≤ n) : commandsIn n s = commands s := by
  have hmain (n : ℕ) : ∀ m s, s.length ≤ n → s.length ≤ m → commandsIn n s = commandsIn m s := by
    induction n with
    | zero =>
      intro m s hn _
      obtain rfl := List.length_eq_zero_iff.mp (Nat.le_zero.mp hn)
      cases m <;> rfl
    | succ n ih =>
      intro m s hn hm
      cases m with
      | zero =>
        obtain rfl := List.length_eq_zero_iff.mp (Nat.le_zero.mp hm)
        rfl
      | succ m =>
        unfold commandsIn
        split
        · rename_i args rest hr
          have hlt := readCommand_length_lt hr
          rw [ih m rest (by omega) (by omega)]
        · rfl
  exact hmain n s.length s h (Nat.le_refl _)

theorem commands_of_ok {s rest : Bytes} {args : List Bytes}
    (h : readCommand s = .ok (some args, rest)) : commands s = args :: commands rest := by
  have hlt := readCommand_length_lt h
  cases hn : s.length with
  | zero => omega
  | succ n =>
    have hs : commands s = commandsIn (n + 1) s := (commandsIn_eq (by omega)).symm
    rw [hs]
    simp only [commandsIn, h]
    rw [commandsIn_eq (by omega)]

/-- A stream that does not begin with a command has none. -/
theorem commands_of_ne_ok {s : Bytes} (h : ∀ args rest, readCommand s ≠ .ok (some args, rest)) :
    commands s = [] := by
  unfold commands
  cases s.length with
  | zero => rfl
  | succ n =>
    unfold commandsIn
    split
    · rename_i args rest hr
      exact absurd hr (h args rest)
    · rfl

/-- What follows whole commands is read as on a stream of its own. -/
theorem commands_rendered {cmds : List (List Bytes)} (h : ∀ args ∈ cmds, Sized args)
    (suffix : Bytes) :
    commands (cmds.flatMap renderCommand ++ suffix) = cmds ++ commands suffix := by
  induction cmds with
  | nil => rfl
  | cons args cmds ih =>
    have hfirst : readCommand (renderCommand args ++ (cmds.flatMap renderCommand ++ suffix)) =
        .ok (some args, cmds.flatMap renderCommand ++ suffix) :=
      readCommand_star.mpr ⟨args, _, rfl, arrayShape_renderCommand (h args (by simp)), rfl⟩
    rw [List.flatMap_cons, List.append_assoc, commands_of_ok hfirst,
      ih fun args' ha => h args' (by simp [ha]), List.cons_append]

/-- A rendering that is cut off holds no command. -/
theorem commands_cut {args : List Bytes} (h : Sized args) {cut : Bytes}
    (hunder : cut <+: renderCommand args) (hne : cut ≠ renderCommand args) : commands cut = [] := by
  refine commands_of_ne_ok fun args' rest hr => hne ?_
  obtain ⟨more, hmore⟩ := hunder
  have hcut := readCommand_more.1 args' rest hr more
  rw [hmore] at hcut
  have hwhole : readCommand (renderCommand args ++ []) = .ok (some args, []) :=
    readCommand_star.mpr ⟨args, _, rfl, arrayShape_renderCommand h, rfl⟩
  rw [List.append_nil, hcut] at hwhole
  have hrest : rest ++ more = [] := (Prod.mk.inj (Except.ok.inj hwhole)).2
  rw [← hmore, (List.append_eq_nil_iff.mp hrest).2, List.append_nil]

/-! The commands still to come do not matter to the one that is handled. -/

namespace Conn

variable {password : Option Bytes} {s : State} {c : Conn} {args : List Bytes}
  (later : List (List Bytes))

theorem checkPassword_later (given : Bytes) :
    ({ c with input := later } : Conn).checkPassword password given =
      { c.checkPassword password given with input := later } := by
  cases password with
  | none => rfl
  | some p =>
    by_cases hp : given = p
    · simp only [checkPassword, if_pos hp]
      rfl
    · simp only [checkPassword, if_neg hp]
      rfl

theorem auth_later : ({ c with input := later } : Conn).auth password args =
    { c.auth password args with input := later } := by
  match args with
  | [_, given] => exact checkPassword_later later given
  | [_, _, given] => exact checkPassword_later later given
  | [] | [_] | _ :: _ :: _ :: _ :: _ => rfl

theorem authedCommand_later : ({ c with input := later } : Conn).authedCommand s args =
    ((c.authedCommand s args).1, { (c.authedCommand s args).2 with input := later }) := by
  unfold authedCommand
  cases Verb.of (cmdOf args) with
  | get =>
    match args with
    | [_, key] => rfl
    | [] | [_] | _ :: _ :: _ :: _ => rfl
  | set =>
    match args with
    | _ :: key :: value :: _ => rfl
    | [] | [_] | [_, _] => rfl
  | _ => rfl

theorem dispatch_later : ({ c with input := later } : Conn).dispatch password s args =
    ((c.dispatch password s args).1, { (c.dispatch password s args).2 with input := later }) := by
  unfold dispatch
  cases Verb.of (cmdOf args) with
  | ping =>
    match args with
    | _ :: msg :: _ => rfl
    | [] | [_] => rfl
  | quit => rfl
  | hello => rfl
  | command => rfl
  | auth => exact Prod.ext rfl (auth_later later)
  | _ =>
    by_cases ha : c.authed
    · simp only [if_pos ha]
      exact authedCommand_later later
    · simp only [if_neg ha]
      rfl

theorem getStep_later (g : Get) : ({ c with input := later } : Conn).getStep s g =
    ((c.getStep s g).1, { (c.getStep s g).2 with input := later }) := by
  unfold getStep
  cases (g.step s).2 <;> rfl

end Conn

/-- A step is one of a GET, takes a command from the stream, or closes the connection where there
is none. -/
theorem WireConn.step_cases {password : Option Bytes} {s s' : State} {w w' : WireConn}
    (h : w.step password s = some (s', w')) :
    (∃ g, w.conn.phase = .getting g ∧ s' = (w.conn.getStep s g).1 ∧
      w' = { w with conn := (w.conn.getStep s g).2 }) ∨
    (w.conn.phase = .ready ∧ ∃ rest, readCommand w.unread = .ok (some [], rest) ∧ s' = s ∧
      w' = { w with unread := rest }) ∨
    (w.conn.phase = .ready ∧ ∃ v args rest, readCommand w.unread = .ok (some (v :: args), rest) ∧
      s' = (w.conn.dispatch password s (v :: args)).1 ∧
      w' = { w with conn := (w.conn.dispatch password s (v :: args)).2, unread := rest }) ∨
    w.conn.phase = .ready ∧ s' = s ∧ w' = w.close ∧
      ((∃ rest, readCommand w.unread = .ok (none, rest) ∧ w.eof) ∨
        ∃ e, readCommand w.unread = .error e ∧ (e.AtEnd → w.eof)) := by
  unfold WireConn.step at h
  cases hp : w.conn.phase with
  | closed =>
    rw [hp] at h
    cases h
  | getting g =>
    rw [hp] at h
    obtain ⟨rfl, rfl⟩ := Prod.mk.inj (Option.some.inj h)
    exact .inl ⟨g, rfl, rfl, rfl⟩
  | ready =>
    rw [hp] at h
    right
    match hr : readCommand w.unread with
    | .ok (some [], rest) =>
      simp only [hr] at h
      obtain ⟨rfl, rfl⟩ := Prod.mk.inj (Option.some.inj h)
      exact .inl ⟨rfl, rest, rfl, rfl, rfl⟩
    | .ok (some (v :: args), rest) =>
      simp only [hr] at h
      obtain ⟨rfl, rfl⟩ := Prod.mk.inj (Option.some.inj h)
      exact .inr (.inl ⟨rfl, v, args, rest, rfl, rfl, rfl⟩)
    | .ok (none, rest) =>
      simp only [hr] at h
      split at h
      · rename_i heof
        obtain ⟨rfl, rfl⟩ := Prod.mk.inj (Option.some.inj h)
        exact .inr (.inr ⟨rfl, rfl, rfl, .inl ⟨rest, rfl, heof⟩⟩)
      · cases h
    | .error e =>
      simp only [hr] at h
      split at h
      · cases h
      · rename_i hgoes
        obtain ⟨rfl, rfl⟩ := Prod.mk.inj (Option.some.inj h)
        refine .inr (.inr ⟨rfl, rfl, rfl, .inr ⟨e, rfl, fun he => ?_⟩⟩)
        by_contra hopen
        exact hgoes ⟨he, Bool.eq_false_iff.mpr hopen⟩

/-- A step of the connection on its socket is one on the commands of the stream, whatever comes
after what was received. -/
theorem WireConn.step_commands {password : Option Bytes} {s s' : State} {w w' : WireConn}
    (h : w.step password s = some (s', w')) (later : Bytes) (heof : w.eof → later = []) :
    w.conn.phase ≠ .closed ∧ w'.eof = w.eof ∧
    ({ w.conn with input := commands (w.unread ++ later) } : Conn).step password s =
      (s', { w'.conn with input := commands (w'.unread ++ later) }) := by
  have hready (hp : w.conn.phase = .ready) : w.conn.phase ≠ .closed := fun hc => by
    cases hp.symm.trans hc
  obtain ⟨hsome, -, herror⟩ := readCommand_more (s := w.unread)
  obtain ⟨g, hp, rfl, rfl⟩ | ⟨hp, rest, hr, rfl, rfl⟩ | ⟨hp, v, args, rest, hr, rfl, rfl⟩ |
    ⟨hp, rfl, rfl, hend⟩ := step_cases h
  · refine ⟨fun hc => (by cases hp.symm.trans hc), rfl, ?_⟩
    simp only [Conn.step, hp]
    exact Conn.getStep_later _ g
  · refine ⟨hready hp, rfl, ?_⟩
    simp only [commands_of_ok (hsome [] rest hr later), Conn.step, hp]
  · refine ⟨hready hp, rfl, ?_⟩
    simp only [commands_of_ok (hsome (v :: args) rest hr later), Conn.step, hp]
    exact Conn.dispatch_later _
  · -- where the connection closes, no command is left in the stream
    have hnone (args : List Bytes) (rest : Bytes) :
        readCommand (w.unread ++ later) ≠ .ok (some args, rest) := by
      intro hok
      rcases hend with ⟨_, hr, hclosed⟩ | ⟨e, hr, hclosed⟩
      · rw [heof hclosed, List.append_nil, hr] at hok
        cases hok
      · by_cases he : e.AtEnd
        · rw [heof (hclosed he), List.append_nil, hr] at hok
          cases hok
        · rw [herror e hr he later] at hok
          cases hok
    refine ⟨hready hp, rfl, ?_⟩
    simp only [WireConn.close, commands_of_ne_ok hnone, Conn.step, hp]

/-- A connection whose client hung up waits for nothing. -/
theorem WireConn.exists_step (password : Option Bytes) (s : State) {w : WireConn} (heof : w.eof)
    (ho : w.conn.phase ≠ .closed) : ∃ r, w.step password s = some r := by
  unfold WireConn.step
  cases hp : w.conn.phase with
  | closed => exact absurd hp ho
  | getting g => exact ⟨_, rfl⟩
  | ready =>
    match hr : readCommand w.unread with
    | .ok (none, _) => exact ⟨_, if_pos heof⟩
    | .ok (some [], rest) => exact ⟨_, rfl⟩
    | .ok (some (v :: args), rest) => exact ⟨_, rfl⟩
    | .error e => exact ⟨_, if_neg fun h => by simp [heof] at h⟩

/-- The steps of the connection and of the other tasks, without those of the client. -/
def WireEvent.shown : WireEvent → List ConnEvent
  | .go => [.go]
  | .other s => [.other s]
  | _ => []

/-- A client that hung up sends nothing more. -/
theorem received_of_eof {password : Option Bytes} {x t : WireSys} {es : List WireEvent}
    (hr : Machine.run (WireSys.step password) x es = some t) (heof : x.wire.eof) :
    received es = [] := by
  induction es generalizing x with
  | nil => rfl
  | cons e es ih =>
    obtain ⟨m, hm, hr⟩ := Machine.run_cons.mp hr
    cases e with
    | receive chunk => simp [WireSys.step, heof] at hm
    | go =>
      obtain ⟨r, hstep, rfl⟩ := Option.map_eq_some_iff.mp hm
      have hsame := (WireConn.step_commands hstep [] fun _ => rfl).2.1
      exact ih hr (hsame.trans heof)
    | hangup =>
      cases hm
      exact ih hr rfl
    | _ =>
      cases hm
      exact ih hr heof

theorem received_replicate_go (n : ℕ) : received (List.replicate n .go) = [] := by
  induction n with
  | zero => rfl
  | succ n ih => exact ih

/-- A connection over the commands of its stream is where the one on the socket is, or where that
one was aborted. -/
structure WireSys.Follows (password : Option Bytes) (aborted : Prop) (es : List WireEvent)
    (x : WireSys) (y : ConnSys) : Prop where
  st : y.st = x.st
  conn : y.conn = { x.wire.conn with input := commands (x.wire.unread ++ received es) } ∨
    aborted ∧ x.wire.conn.phase = .closed ∧
      y.conn = { x.wire.conn with phase := y.conn.phase, input := y.conn.input }
  abort : .abort ∈ es → aborted
  runs : ∃ t, Machine.run (WireSys.step password) x es = some t

theorem WireSys.Follows.step {password : Option Bytes} {aborted : Prop} {e : WireEvent}
    {es : List WireEvent} {x x' : WireSys} {y : ConnSys}
    (h : WireSys.Follows password aborted (e :: es) x y) (hs : x.step password e = some x') :
    ∃ y', Machine.run (ConnSys.step password) y e.shown = some y' ∧
      WireSys.Follows password aborted es x' y' := by
  obtain ⟨t, hr⟩ := h.runs
  obtain ⟨m, hm, hrest⟩ := Machine.run_cons.mp hr
  obtain rfl := Option.some.inj (hm.symm.trans hs)
  have habort : .abort ∈ es → aborted := fun ha => h.abort (List.mem_cons_of_mem e ha)
  cases e with
  | receive chunk =>
    simp only [WireSys.step] at hm
    split at hm
    · cases hm
    · obtain rfl := Option.some.inj hm
      refine ⟨y, rfl, h.st, ?_, habort, t, hrest⟩
      simpa only [received, List.append_assoc] using h.conn
  | hangup =>
    cases hm
    exact ⟨y, rfl, h.st, h.conn, habort, t, hrest⟩
  | abort =>
    cases hm
    refine ⟨y, rfl, h.st, .inr ⟨h.abort List.mem_cons_self, rfl, ?_⟩, habort, t, hrest⟩
    rcases h.conn with hc | ⟨-, -, hc⟩
    · rw [hc]
      rfl
    · exact hc
  | other s =>
    cases hm
    exact ⟨⟨s, y.conn⟩, rfl, rfl, h.conn, habort, t, hrest⟩
  | go =>
    obtain ⟨⟨s', w'⟩, hstep, rfl⟩ := Option.map_eq_some_iff.mp hm
    have hlater (heof : x.wire.eof) : received (.go :: es) = [] := received_of_eof hr heof
    obtain ⟨hopen, -, hc⟩ := WireConn.step_commands hstep _ hlater
    rcases h.conn with hy | ⟨-, hclosed, -⟩
    · have hmove : y.conn.step password y.st =
          (s', { w'.conn with input := commands (w'.unread ++ received es) }) := by
        rw [hy, h.st]
        exact hc
      refine ⟨_, Machine.run_cons.mpr ⟨_, if_neg ?_, rfl⟩, ?_⟩
      · rw [hy]
        exact hopen
      · rw [hmove]
        exact ⟨rfl, .inl rfl, habort, t, hrest⟩
    · exact absurd hclosed hopen

theorem WireSys.run_follows {password : Option Bytes} {s : State} {es : List WireEvent}
    {t : WireSys} (hr : Machine.run (WireSys.step password) ⟨s, .fresh password⟩ es = some t) :
    ∃ y, Machine.run (ConnSys.step password) ⟨s, .fresh password (commands (received es))⟩
      (es.flatMap WireEvent.shown) = some y ∧ WireSys.Follows password (.abort ∈ es) [] t y := by
  refine Machine.run_refines (R := WireSys.Follows password (.abort ∈ es))
    (fun e es x x' y h hs => h.step hs) ?_ hr
  exact ⟨rfl, .inl rfl, id, t, hr⟩

/-- A client that hung up is served to the end, whatever it sent. -/
theorem WireSys.exists_closed (password : Option Bytes) {x : WireSys} (heof : x.wire.eof) :
    ∃ n t, Machine.run (WireSys.step password) x (List.replicate n .go) = some t ∧
      t.wire.conn.phase = .closed := by
  generalize hn : ({ x.wire.conn with input := commands x.wire.unread } : Conn).left = n
  induction n using Nat.strong_induction_on generalizing x with
  | _ n ih =>
    by_cases ho : x.wire.conn.phase = .closed
    · exact ⟨0, x, rfl, ho⟩
    · obtain ⟨⟨s', w'⟩, hstep⟩ := WireConn.exists_step password x.st heof ho
      obtain ⟨-, hsame, hc⟩ := WireConn.step_commands hstep [] fun _ => rfl
      simp only [List.append_nil] at hc
      have hlt := Conn.left_step password x.st
        (c := { x.wire.conn with input := commands x.wire.unread }) ho
      rw [hc, hn] at hlt
      obtain ⟨k, t, hr, hclosed⟩ := ih _ hlt (x := ⟨s', w'⟩) (hsame.trans heof) rfl
      refine ⟨k + 1, t, Machine.run_cons.mpr ⟨⟨s', w'⟩, ?_, hr⟩, hclosed⟩
      rw [WireSys.step, hstep]
      rfl

/-- Where the two end. -/
theorem WireSys.Follows.agrees {password : Option Bytes} {aborted : Prop} {x : WireSys}
    {y : ConnSys} (h : WireSys.Follows password aborted [] x y) :
    y.conn.sent = x.wire.conn.sent ∧ y.conn.authed = x.wire.conn.authed ∧
      (¬ aborted → y.conn = { x.wire.conn with input := commands x.wire.unread }) := by
  rcases h.conn with hc | ⟨habort, -, hc⟩
  · rw [received, List.append_nil] at hc
    rw [hc]
    exact ⟨rfl, rfl, fun _ => rfl⟩
  · rw [hc]
    exact ⟨rfl, rfl, fun hno => absurd habort hno⟩

/-- A connection on its socket does what one does whose client hands it the commands of the byte
stream one by one: however the bytes are cut into pieces, whenever they come, and whatever other
tasks do to the state meanwhile, the state and the replies are the same. An aborted connection
stops on the way. -/
theorem socket_refines_commands (password : Option Bytes) (s : State) {es : List WireEvent}
    {t : WireSys} (hr : Machine.run (WireSys.step password) ⟨s, .fresh password⟩ es = some t) :
    ∃ y, Machine.run (ConnSys.step password) ⟨s, .fresh password (commands (received es))⟩
        (es.flatMap WireEvent.shown) = some y ∧
      y.st = t.st ∧ y.conn.sent = t.wire.conn.sent ∧ y.conn.authed = t.wire.conn.authed ∧
      (.abort ∉ es → y.conn = { t.wire.conn with input := commands t.wire.unread }) := by
  obtain ⟨y, hy, hf⟩ := WireSys.run_follows hr
  exact ⟨y, hy, hf.st, hf.agrees⟩

/-- A SET in three pieces, one of which ends inside the value, over a state that another task
replaces between them. -/
theorem socket_refines_commands_pieces :
    ∃ y, Machine.run (ConnSys.step none) ⟨State.new ⟨0, none, 0⟩ 0,
        .fresh none (commands (utf8 "*3\r\n$3\r\nSET\r\n$1\r\nk\r\n$2\r\nvw\r\n"))⟩
        [.other (State.new ⟨7, none, 0⟩ 0), .go] = some y ∧
      y.conn.sent = [writeSimple (utf8 "OK")] := by
  obtain ⟨t, hr, ht⟩ := Option.map_eq_some_iff.mp (show
    (Machine.run (WireSys.step none) ⟨State.new ⟨0, none, 0⟩ 0, .fresh none⟩
      [.receive (utf8 "*3\r\n$3\r\nSE"), .receive (utf8 "T\r\n$1\r\nk\r\n$2\r\nv"),
        .other (State.new ⟨7, none, 0⟩ 0), .receive (utf8 "w\r\n"), .go]).map
      (fun t => t.wire.conn.sent) = some [writeSimple (utf8 "OK")] from by decide +kernel)
  obtain ⟨y, hy, -, hsent, -⟩ := socket_refines_commands none _ hr
  exact ⟨y, hy, hsent.trans ht⟩

/-! A connection whose client announces no length that cannot be allocated. -/

/-- What is still to be read belongs to commands whose lengths can be allocated. -/
def WireSys.Bounded (allocatable : ℕ) (es : List WireEvent) (x : WireSys) : Prop :=
  ∃ cmds : List (List Bytes), (∀ args ∈ cmds, Alloc.Fits allocatable args) ∧
    x.wire.unread ++ received es <+: cmds.flatMap renderCommand

/-- A step reads a command or leaves the bytes where they are. -/
theorem WireConn.step_unread {password : Option Bytes} {s s' : State} {w w' : WireConn}
    (h : w.step password s = some (s', w')) :
    w'.unread = w.unread ∨ ∃ args, readCommand w.unread = .ok (some args, w'.unread) := by
  obtain ⟨g, -, -, rfl⟩ | ⟨-, rest, hr, -, rfl⟩ | ⟨-, v, args, rest, hr, -, rfl⟩ |
    ⟨-, -, rfl, -⟩ := step_cases h
  · exact .inl rfl
  · exact .inr ⟨[], hr⟩
  · exact .inr ⟨v :: args, hr⟩
  · exact .inl rfl

namespace WireSys.Bounded

variable {allocatable : ℕ} {password : Option Bytes} {e : WireEvent} {es : List WireEvent}
  {x x' t : WireSys}

theorem step (hmax : allocatable ≤ isizeMax) (h : x.Bounded allocatable (e :: es))
    (hs : x.step password e = some x') : x'.Bounded allocatable es := by
  obtain ⟨cmds, hcmds, hunder⟩ := h
  cases e with
  | receive chunk =>
    simp only [WireSys.step] at hs
    split at hs
    · cases hs
    · obtain rfl := Option.some.inj hs
      refine ⟨cmds, hcmds, ?_⟩
      rwa [received, ← List.append_assoc] at hunder
  | go =>
    obtain ⟨⟨s', w'⟩, hstep, rfl⟩ := Option.map_eq_some_iff.mp hs
    rcases WireConn.step_unread hstep with hsame | ⟨args, hread⟩
    · exact ⟨cmds, hcmds, hsame ▸ hunder⟩
    · -- the command that was read is the first of them
      obtain ⟨more, hmore⟩ := hunder
      have hlonger := readCommand_more.1 args _ hread (received es ++ more)
      rw [← List.append_assoc] at hlonger
      cases cmds with
      | nil =>
        have hnil : x.wire.unread = [] :=
          (List.append_eq_nil_iff.mp (List.append_eq_nil_iff.mp hmore).1).1
        rw [hnil] at hread
        cases hread
      | cons first cmds =>
        have hsized := (hcmds first List.mem_cons_self).sized hmax
        have hfirst : readCommand (renderCommand first ++ cmds.flatMap renderCommand) =
            .ok (some first, cmds.flatMap renderCommand) :=
          readCommand_star.mpr ⟨first, _, rfl, arrayShape_renderCommand hsized, rfl⟩
        rw [← List.flatMap_cons, ← hmore] at hfirst
        have hrest := (Prod.mk.inj (Except.ok.inj (hlonger.symm.trans hfirst))).2
        exact ⟨cmds, fun c hc => hcmds c (List.mem_cons_of_mem first hc), more,
          (List.append_assoc ..).trans hrest⟩
  | _ =>
    cases hs
    exact ⟨cmds, hcmds, hunder⟩

theorem not_starved (hmax : allocatable ≤ isizeMax) (h : x.Bounded allocatable es) :
    x.wire.starved allocatable = false := by
  obtain ⟨cmds, hcmds, hunder⟩ := h
  have hread := Alloc.not_oversized_of_fits hmax hcmds ((List.prefix_append _ _).trans hunder)
  rw [← Alloc.readCommand_eq_panicked] at hread
  unfold WireConn.starved
  cases x.wire.conn.phase with
  | ready => exact decide_eq_false hread
  | _ => rfl

theorem stepWithin (hmax : allocatable ≤ isizeMax) (h : x.Bounded allocatable es)
    (e : WireEvent) : x.stepWithin allocatable password e = x.step password e := by
  cases e with
  | go =>
    rw [WireSys.stepWithin, h.not_starved hmax]
    rfl
  | _ => rfl

/-- Where every length can be allocated, the connection runs as if all could. -/
theorem run (password : Option Bytes) (hmax : allocatable ≤ isizeMax)
    (h : x.Bounded allocatable es) :
    Machine.run (WireSys.stepWithin allocatable password) x es =
        Machine.run (WireSys.step password) x es ∧
      (Machine.run (WireSys.step password) x es = some t → t.Bounded allocatable []) := by
  induction es generalizing x with
  | nil =>
    refine ⟨rfl, fun hr => ?_⟩
    obtain rfl := Option.some.inj hr
    exact h
  | cons e es ih =>
    simp only [Machine.run, h.stepWithin hmax e]
    cases hs : x.step password e with
    | none => exact ⟨rfl, fun hr => by cases hr⟩
    | some x' => exact ih (h.step hmax hs)

end WireSys.Bounded

/-- A client sends whole commands and is cut off inside another one, all of them with lengths that
can be allocated: the one cut off does nothing, neither to the state nor to the replies. A whole
command up to the first QUIT gets one reply at most, and one for certain before the connection
closes, unless it is aborted. The reader is given all that it allocates, and once the client hung
up, the steps of the connection alone close it. -/
theorem cut_off_command_never_executed {allocatable : ℕ} (hmax : allocatable ≤ isizeMax)
    (password : Option Bytes) (s : State) (cmds : List (List Bytes))
    (hcmds : ∀ c ∈ cmds, c ≠ [] ∧ Alloc.Fits allocatable c) (args : List Bytes)
    (hargs : Alloc.Fits allocatable args) {cut : Bytes} (hunder : cut <+: renderCommand args)
    (hcut : cut ≠ renderCommand args) {es : List WireEvent} {t : WireSys}
    (hes : received es = cmds.flatMap renderCommand ++ cut)
    (hr : Machine.run (WireSys.stepWithin allocatable password) ⟨s, .fresh password⟩ es =
      some t) :
    (∃ y, Machine.run (ConnSys.step password) ⟨s, .fresh password cmds⟩
        (es.flatMap WireEvent.shown) = some y ∧
      y.st = t.st ∧ y.conn.sent = t.wire.conn.sent) ∧
    t.wire.conn.sent.length ≤ answered cmds ∧
    (.abort ∉ es → t.wire.conn.phase = .closed → t.wire.conn.sent.length = answered cmds) ∧
    t.wire.starved allocatable = false ∧
    (t.wire.eof → ∃ n t', Machine.run (WireSys.stepWithin allocatable password) t
        (List.replicate n .go) = some t' ∧ t'.wire.conn.phase = .closed) := by
  have hstream : commands (received es) = cmds := by
    rw [hes, commands_rendered fun c hc => (hcmds c hc).2.sized hmax,
      commands_cut (hargs.sized hmax) hunder hcut, List.append_nil]
  -- the bytes of the client are a beginning of commands that can be allocated
  have hbounded : WireSys.Bounded allocatable es ⟨s, .fresh password⟩ := by
    obtain ⟨more, hmore⟩ := hunder
    refine ⟨cmds ++ [args], fun c hc => ?_, more, ?_⟩
    · rcases List.mem_append.mp hc with hc | hc
      · exact (hcmds c hc).2
      · exact List.mem_singleton.mp hc ▸ hargs
    · simp only [WireConn.fresh, List.nil_append, hes, List.append_assoc, hmore,
        List.flatMap_append, List.flatMap_singleton]
  obtain ⟨hwithin, hend⟩ := hbounded.run (t := t) password hmax
  rw [hwithin] at hr
  have hended := hend hr
  obtain ⟨y, hy, hf⟩ := WireSys.run_follows hr
  rw [hstream] at hy
  obtain ⟨hsent, -, hsame⟩ := hf.agrees
  have hwf : (Conn.fresh password cmds).Wf := ⟨rfl, fun c hc => (hcmds c hc).1⟩
  have hcount := (ConnSys.run_count (x := ⟨s, .fresh password cmds⟩) hwf hy).2
  have hall : (Conn.fresh password cmds).sent.length + (Conn.fresh password cmds).outstanding =
      answered cmds := Nat.zero_add _
  rw [hall, hsent] at hcount
  refine ⟨⟨y, hy, hf.st, hsent⟩, by omega, fun hno hclosed => ?_, hended.not_starved hmax,
    fun heof => ?_⟩
  · have hout : y.conn.outstanding = 0 := by
      rw [hsame hno]
      simp only [Conn.outstanding, hclosed]
    omega
  · obtain ⟨n, t', hgo, hclosed⟩ := WireSys.exists_closed password heof
    obtain ⟨cmds', hcmds', hunder'⟩ := hended
    have hrest : WireSys.Bounded allocatable (List.replicate n .go) t :=
      ⟨cmds', hcmds', by rwa [received_replicate_go]⟩
    exact ⟨n, t', ((hrest.run (t := t') password hmax).1).trans hgo, hclosed⟩

/-- A PING, and a SET that is cut off inside its value, with a gigabyte for each allocation. -/
theorem cut_off_command_never_executed_set :
    ∃ t, Machine.run (WireSys.stepWithin (2 ^ 30) none) ⟨State.new ⟨0, none, 0⟩ 0, .fresh none⟩
        [.receive (renderCommand [utf8 "PING"]), .go,
          .receive ((renderCommand [utf8 "SET", utf8 "k", utf8 "vw"]).take 24), .hangup, .go] =
        some t ∧
      t.wire.conn.phase = .closed ∧ t.wire.conn.sent.length = answered [[utf8 "PING"]] := by
  obtain ⟨t, hr, hclosed⟩ := Option.map_eq_some_iff.mp (show
    (Machine.run (WireSys.stepWithin (2 ^ 30) none) ⟨State.new ⟨0, none, 0⟩ 0, .fresh none⟩
      [.receive (renderCommand [utf8 "PING"]), .go,
        .receive ((renderCommand [utf8 "SET", utf8 "k", utf8 "vw"]).take 24), .hangup, .go]).map
      (fun t => t.wire.conn.phase) = some .closed from by decide +kernel)
  have h := cut_off_command_never_executed (by decide : 2 ^ 30 ≤ isizeMax) none
    (State.new ⟨0, none, 0⟩ 0) [[utf8 "PING"]] (by unfold Alloc.Fits; decide +kernel)
    [utf8 "SET", utf8 "k", utf8 "vw"] (by unfold Alloc.Fits; decide +kernel)
    (List.take_prefix 24 _) (by decide +kernel) (by decide +kernel) hr
  exact ⟨t, hr, hclosed, h.2.2.1 (by simp) hclosed⟩

end Dockfoxprox
