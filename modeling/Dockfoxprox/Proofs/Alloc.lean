import Dockfoxprox.Model.Alloc
import Dockfoxprox.Proofs.Resp

/-! When the reader of commands panics. It slices and indexes within bounds, and it allocates
what two kinds of headers ask for; between its panics it does what the reader without them
does. -/

namespace Dockfoxprox

open Reader

namespace Alloc

variable {α β : Type} {allocatable : ℕ}

/-- `p` does what `q` does, or panics. -/
def Guards (p : Panicking α) (q : Reader UInt8 IoError α) : Prop :=
  ∀ s, p s = .error .panicked ∨ p s = (q s).mapError .io

theorem Guards.of_eq {p : Panicking α} {q : Reader UInt8 IoError α}
    (h : ∀ s, p s = (q s).mapError .io) : Guards p q := fun s => .inr (h s)

theorem Guards.pure (a : α) : Guards (pure a) (pure a) := .of_eq fun _ => rfl

theorem Guards.fail (e : IoError) : Guards (Alloc.fail e : Panicking α) (throw e) :=
  .of_eq fun _ => rfl

theorem Guards.bind {p : Panicking α} {q : Reader UInt8 IoError α} {f : α → Panicking β}
    {g : α → Reader UInt8 IoError β} (hp : Guards p q) (hf : ∀ a, Guards (f a) (g a)) :
    Guards (p >>= f) (q >>= g) := by
  intro s
  obtain h | h := hp s
  · exact .inl (bind_eq_error.mpr (.inl h))
  · cases hq : q s with
    | error e =>
      right
      rw [hq] at h
      rw [bind_eq_error.mpr (.inl h), bind_eq_error.mpr (.inl hq)]
      rfl
    | ok r =>
      rw [hq] at h
      simpa [Bind.bind, StateT.bind, Except.bind, Except.mapError, hq, h] using hf r.1 r.2

/-- Something that may panic and has no other effect. -/
theorem Guards.after {p : Panicking Unit} {f : Panicking α} {g : Reader UInt8 IoError α}
    (hp : ∀ s, p s = .error .panicked ∨ p s = .ok ((), s)) (hf : Guards f g) :
    Guards (p >>= fun _ => f) g := by
  intro s
  obtain h | h := hp s
  · exact .inl (bind_eq_error.mpr (.inl h))
  · simpa [Bind.bind, StateT.bind, Except.bind, h] using hf s

theorem Guards.times {p : Panicking α} {q : Reader UInt8 IoError α} (h : Guards p q) (n : ℕ) :
    Guards (times p n) (Reader.times q n) := by
  induction n with
  | zero => exact .pure []
  | succ n ih => exact h.bind fun a => ih.bind fun as => .pure (a :: as)

theorem guards_parseLen (b : Bytes) : Guards (parseLen b) (liftM (Dockfoxprox.parseLen b)) := by
  refine .of_eq fun s => ?_
  unfold parseLen
  cases Dockfoxprox.parseLen b <;> rfl

theorem withCapacity_cases (allocatable size n : ℕ) (s : Bytes) :
    withCapacity allocatable size n s = .error .panicked ∨
      withCapacity allocatable size n s = .ok ((), s) := by
  unfold withCapacity
  split
  · exact .inl rfl
  · exact .inr rfl

theorem guards_readExact (n : ℕ) : Guards (readExact (.io earlyEof) n) (readExact earlyEof n) := by
  refine .of_eq fun s => ?_
  unfold readExact
  split <;> rfl

/-- A header line is read without a panic. -/
theorem readHeaderLine_eq (s : Bytes) :
    readHeaderLine s = (Dockfoxprox.readHeaderLine s).mapError .io := by
  unfold readHeaderLine Dockfoxprox.readHeaderLine
  simp only [Bind.bind, StateT.bind, Except.bind, readUntil]
  generalize cutAfter 10 s = r
  obtain ⟨buf, m⟩ := r
  by_cases hb : buf = []
  · simp only [hb, if_true]
    rfl
  · by_cases hl : buf.getLast? = some 10
    · by_cases hlen : buf.length < 2
      · simp only [hb, hl, hlen, ne_eq, not_true_eq_false, if_false, if_true, true_or]
        rfl
      · have hi : buf.length - 2 < buf.length := by omega
        have hget : buf[buf.length - 2]? = some (buf[buf.length - 2]) := List.getElem?_eq_getElem hi
        have hpure (b : UInt8) : (StateT.pure b : Reader UInt8 Halt UInt8) m = .ok (b, m) := rfl
        simp only [hb, hl, hlen, hget, index, ne_eq, not_true_eq_false, if_false, false_or,
          Option.some.injEq, StateT.bind, Bind.bind, Except.bind, Pure.pure, hpure]
        split <;> rfl
    · simp only [hb, hl, ne_eq, not_false_eq_true, if_false, if_true]
      rfl

theorem guards_readHeaderLine : Guards readHeaderLine Dockfoxprox.readHeaderLine :=
  .of_eq readHeaderLine_eq

theorem guards_readBulkBody (allocatable : ℕ) (len : Bytes) :
    Guards (readBulkBody allocatable len) (Dockfoxprox.readBulkBody len) := by
  refine (guards_parseLen len).bind fun n => .after (withCapacity_cases allocatable 1 n) ?_
  refine (guards_readExact n).bind fun buf => (guards_readExact 2).bind fun crlf => ?_
  split
  · exact .fail _
  · exact .pure buf

/-- A bulk header that begins with `$` is long enough for its slice. -/
theorem sliceFrom_cons (b : UInt8) (len : Bytes) : sliceFrom (b :: len) 1 = pure len := by
  simp [sliceFrom]

theorem guards_readBulk (allocatable : ℕ) : Guards (readBulk allocatable) Dockfoxprox.readBulk := by
  refine guards_readHeaderLine.bind fun line => ?_
  cases line with
  | none => exact .fail _
  | some h =>
    by_cases hd : h.head? = some 36
    · obtain ⟨len, rfl⟩ := List.head?_eq_some_iff.mp hd
      simp only [List.head?_cons, ne_eq, not_true_eq_false, if_false, sliceFrom_cons, pure_bind,
        List.tail_cons]
      exact guards_readBulkBody allocatable len
    · simp only [hd, ne_eq, not_false_eq_true, if_true]
      exact .fail _

theorem guards_readCommand (allocatable : ℕ) :
    Guards (readCommand allocatable) Dockfoxprox.readCommand := by
  refine guards_readHeaderLine.bind fun line => ?_
  match line with
  | none => exact .pure none
  | some [] => exact .pure (some [])
  | some (b :: line) =>
    simp only [List.cons_ne_nil, if_false, index, List.getElem?_cons_zero, pure_bind,
      sliceFrom_cons]
    by_cases hb : b = 42
    · simp only [hb, ne_eq, not_true_eq_false, if_false]
      exact (guards_parseLen line).bind fun n => .after (withCapacity_cases _ _ n)
        (((guards_readBulk allocatable).times n).bind fun args => .pure (some args))
    · simp only [hb, ne_eq, not_false_eq_true, if_true]
      cases fromUtf8 (b :: line) with
      | none => exact .fail _
      | some s => exact .pure _

def NoPanic (p : Panicking α) : Prop := ∀ s, p s ≠ .error .panicked

theorem NoPanic.pure (a : α) : NoPanic (pure a) := fun _ h => by cases h

theorem NoPanic.fail (e : IoError) : NoPanic (Alloc.fail e : Panicking α) := fun _ h => by cases h

theorem NoPanic.bind {p : Panicking α} {f : α → Panicking β} (hp : NoPanic p)
    (hf : ∀ a, NoPanic (f a)) : NoPanic (p >>= f) := by
  intro s h
  obtain h | ⟨a, m, -, h⟩ := bind_eq_error.mp h
  · exact hp s h
  · exact hf a m h

theorem NoPanic.readExact (n : ℕ) : NoPanic (Reader.readExact (.io earlyEof) n) := by
  intro s h
  unfold Reader.readExact at h
  split at h <;> cases h

theorem NoPanic.parseLen (b : Bytes) : NoPanic (Alloc.parseLen b) := by
  unfold Alloc.parseLen
  split
  · exact .pure _
  · exact .fail _

theorem NoPanic.readHeaderLine : NoPanic Alloc.readHeaderLine := by
  intro s h
  rw [readHeaderLine_eq] at h
  cases hr : Dockfoxprox.readHeaderLine s <;> rw [hr] at h <;> cases h

theorem readHeaderLine_eq_ok {s rest : Bytes} {line : Option Bytes} :
    readHeaderLine s = .ok (line, rest) ↔ Dockfoxprox.readHeaderLine s = .ok (line, rest) := by
  rw [readHeaderLine_eq]
  cases Dockfoxprox.readHeaderLine s <;> simp [Except.mapError]

theorem parseLen_eq_ok {b s rest : Bytes} {n : ℕ} :
    parseLen b s = .ok (n, rest) ↔ Dockfoxprox.parseLen b = .ok n ∧ s = rest := by
  unfold parseLen
  cases Dockfoxprox.parseLen b with
  | ok m => simp [pure_eq_ok]
  | error e => simp [fail, throw_ne_ok]

theorem withCapacity_eq_panicked {size n : ℕ} {s : Bytes} :
    withCapacity allocatable size n s = .error .panicked ↔ allocatable < size * n := by
  unfold withCapacity
  split
  · exact iff_of_true rfl ‹_›
  · exact iff_of_false (fun h => by cases h) ‹_›

/-- A length is parsed and the bytes it asks for are allocated. -/
theorem parseLen_withCapacity {b s : Bytes} {size : ℕ} {f : ℕ → Panicking α} :
    (do
      let n ← parseLen b
      withCapacity allocatable size n
      f n : Panicking α) s = .error .panicked ↔
    ∃ n, Dockfoxprox.parseLen b = .ok n ∧ (allocatable < size * n ∨ f n s = .error .panicked) := by
  rw [bind_eq_error]
  constructor
  · rintro (h | ⟨n, m, hn, h⟩)
    · exact absurd h (NoPanic.parseLen b s)
    · obtain ⟨hb, rfl⟩ := parseLen_eq_ok.mp hn
      refine ⟨n, hb, ?_⟩
      obtain h | ⟨_, m, hw, h⟩ := bind_eq_error.mp h
      · exact .inl (withCapacity_eq_panicked.mp h)
      · obtain hp | hok := withCapacity_cases allocatable size n s
        · exact .inl (withCapacity_eq_panicked.mp hp)
        · cases hw.symm.trans hok
          exact .inr h
  · rintro ⟨n, hn, h⟩
    refine .inr ⟨n, s, parseLen_eq_ok.mpr ⟨hn, rfl⟩, bind_eq_error.mpr ?_⟩
    obtain hp | hok := withCapacity_cases allocatable size n s
    · exact .inl hp
    · refine .inr ⟨(), s, hok, h.resolve_left fun hlt => ?_⟩
      rw [withCapacity_eq_panicked.mpr hlt] at hok
      cases hok

/-- A bulk header that announces more bytes than an allocation may have. -/
def HugeBulk (allocatable : ℕ) (s : Bytes) : Prop :=
  ∃ len n rest, Dockfoxprox.parseLen len = .ok n ∧ allocatable < n ∧ s = 36 :: len ++ crlf ++ rest

theorem readBulk_eq_panicked {s : Bytes} :
    readBulk allocatable s = .error .panicked ↔ HugeBulk allocatable s := by
  unfold readBulk
  rw [bind_eq_error]
  constructor
  · rintro (h | ⟨line, m, hline, h⟩)
    · exact absurd h (NoPanic.readHeaderLine s)
    · cases line with
      | none => cases h
      | some line =>
        obtain ⟨-, rfl⟩ := readHeaderLine_eq_some.mp (readHeaderLine_eq_ok.mp hline)
        by_cases hd : line.head? = some 36
        · obtain ⟨len, rfl⟩ := List.head?_eq_some_iff.mp hd
          simp only [List.head?_cons, ne_eq, not_true_eq_false, sliceFrom_cons, pure_bind] at h
          obtain ⟨n, hn, h⟩ := parseLen_withCapacity.mp h
          obtain hlt | h := h
          · exact ⟨len, n, m, hn, by simpa using hlt, rfl⟩
          · refine absurd h (NoPanic.bind (.readExact n) (fun buf => .bind (.readExact 2)
              fun crlf => ?_) m)
            split
            · exact .fail _
            · exact .pure buf
        · simp only [hd, ne_eq, not_false_eq_true, if_true] at h
          cases h
  · rintro ⟨len, n, rest, hn, hlt, rfl⟩
    refine .inr ⟨some (36 :: len), rest, ?_, ?_⟩
    · rw [readHeaderLine_eq_ok, readHeaderLine_eq_some]
      exact ⟨by simpa using lf_notMem_of_parseLen hn, rfl⟩
    · simp only [List.head?_cons, ne_eq, not_true_eq_false, sliceFrom_cons, pure_bind]
      exact parseLen_withCapacity.mpr ⟨n, hn, .inl (by simpa using hlt)⟩

/-- Success is success of the reader that cannot panic. -/
theorem Guards.eq_ok {p : Panicking α} {q : Reader UInt8 IoError α} (h : Guards p q)
    {s rest : Bytes} {a : α} :
    p s = .ok (a, rest) ↔ q s = .ok (a, rest) ∧ p s ≠ .error .panicked := by
  obtain hp | hp := h s
  · simp [hp]
  · rw [hp]
    cases q s <;> simp [Except.mapError]

/-- Two headers of one stream announce the same length. -/
theorem hugeBulk_of_shape {arg u rest : Bytes} (h : BulkShape arg u) :
    HugeBulk allocatable (u ++ rest) ↔ allocatable < arg.length := by
  obtain ⟨len, hlen, rfl⟩ := h
  constructor
  · rintro ⟨len', n, rest', hn, hlt, heq⟩
    have hline : Dockfoxprox.readHeaderLine (36 :: len ++ crlf ++ arg ++ crlf ++ rest) =
        .ok (some (36 :: len), arg ++ crlf ++ rest) :=
      readHeaderLine_eq_some.mpr ⟨by simpa using lf_notMem_of_parseLen hlen, by simp⟩
    rw [heq, readHeaderLine_eq_some.mpr ⟨by simpa using lf_notMem_of_parseLen hn, rfl⟩] at hline
    simp only [Except.ok.injEq, Prod.mk.injEq, Option.some.injEq, List.cons.injEq,
      true_and] at hline
    obtain ⟨rfl, -⟩ := hline
    cases hn.symm.trans hlen
    exact hlt
  · intro hlt
    exact ⟨len, arg.length, arg ++ crlf ++ rest, hlen, hlt, by simp⟩

/-- The arguments that are read are those whose bytes can be allocated. -/
theorem accepts_readBulk :
    Accepts (readBulk allocatable) fun arg u => BulkShape arg u ∧ arg.length ≤ allocatable := by
  intro s arg rest
  rw [(guards_readBulk allocatable).eq_ok, Dockfoxprox.accepts_readBulk s arg rest, Ne,
    readBulk_eq_panicked]
  constructor
  · rintro ⟨⟨u, hu, rfl⟩, hh⟩
    rw [hugeBulk_of_shape hu] at hh
    exact ⟨u, ⟨hu, Nat.le_of_not_lt hh⟩, rfl⟩
  · rintro ⟨u, ⟨hu, hle⟩, rfl⟩
    exact ⟨⟨u, hu, rfl⟩, by rw [hugeBulk_of_shape hu]; exact Nat.not_lt.mpr hle⟩

/-- The streams on which the reader panics: an array header whose arguments cannot be
allocated, or one that is followed by fewer arguments than it says and then by the header of an
argument whose bytes cannot be. -/
def Oversized (allocatable : ℕ) (s : Bytes) : Prop :=
  ∃ n k rest, Dockfoxprox.parseLen n = .ok k ∧ s = 42 :: n ++ crlf ++ rest ∧
    (allocatable < sizeOfBytes * k ∨
      ∃ args us bulk, args.length < k ∧
        List.Forall₂ (fun arg u => BulkShape arg u ∧ arg.length ≤ allocatable) args us ∧
        rest = us.flatten ++ bulk ∧ HugeBulk allocatable bulk)

theorem readCommand_eq_panicked {s : Bytes} :
    readCommand allocatable s = .error .panicked ↔ Oversized allocatable s := by
  have hbody {k : ℕ} {m : Bytes} :
      (do
        let args ← times (readBulk allocatable) k
        pure (some args) : Panicking (Option (List Bytes))) m = .error .panicked ↔
      ∃ args us bulk, args.length < k ∧
        List.Forall₂ (fun arg u => BulkShape arg u ∧ arg.length ≤ allocatable) args us ∧
        m = us.flatten ++ bulk ∧ HugeBulk allocatable bulk := by
    rw [bind_eq_error, times_eq_error]
    constructor
    · rintro (⟨j, hj, args, m', hargs, hp⟩ | ⟨args, m', -, h⟩)
      · obtain ⟨u, ⟨rfl, us, hus, rfl⟩, rfl⟩ := (accepts_readBulk.times j m args m').mp hargs
        exact ⟨args, us, m', hj, hus, rfl, readBulk_eq_panicked.mp hp⟩
      · cases h
    · rintro ⟨args, us, bulk, hlt, hus, rfl, hb⟩
      refine .inl ⟨args.length, hlt, args, bulk, ?_, readBulk_eq_panicked.mpr hb⟩
      exact (accepts_readBulk.times _ _ args bulk).mpr ⟨us.flatten, ⟨rfl, us, hus, rfl⟩, rfl⟩
  unfold readCommand
  rw [bind_eq_error]
  constructor
  · rintro (h | ⟨line, m, hline, h⟩)
    · exact absurd h (NoPanic.readHeaderLine s)
    · match line with
      | none => cases h
      | some [] => cases h
      | some (b :: n) =>
        obtain ⟨-, rfl⟩ := readHeaderLine_eq_some.mp (readHeaderLine_eq_ok.mp hline)
        simp only [List.cons_ne_nil, if_false, index, List.getElem?_cons_zero, pure_bind,
          sliceFrom_cons] at h
        by_cases hb : b = 42
        · subst hb
          simp only [ne_eq, not_true_eq_false, if_false] at h
          obtain ⟨k, hk, h⟩ := parseLen_withCapacity.mp h
          exact ⟨n, k, m, hk, rfl, h.imp_right hbody.mp⟩
        · simp only [hb, ne_eq, not_false_eq_true, if_true] at h
          cases hu : fromUtf8 (b :: n) with
          | none =>
            rw [hu] at h
            cases h
          | some t =>
            rw [hu] at h
            cases h
  · rintro ⟨n, k, rest, hk, rfl, h⟩
    refine .inr ⟨some (42 :: n), rest, ?_, ?_⟩
    · rw [readHeaderLine_eq_ok, readHeaderLine_eq_some]
      exact ⟨by simpa using lf_notMem_of_parseLen hk, rfl⟩
    · simp only [List.cons_ne_nil, if_false, index, List.getElem?_cons_zero, pure_bind,
        sliceFrom_cons, ne_eq, not_true_eq_false]
      exact parseLen_withCapacity.mpr ⟨k, hk, h.imp_right hbody.mpr⟩

theorem HugeBulk.append {s : Bytes} (h : HugeBulk allocatable s) (more : Bytes) :
    HugeBulk allocatable (s ++ more) := by
  obtain ⟨len, n, rest, hn, hlt, rfl⟩ := h
  exact ⟨len, n, rest ++ more, hn, hlt, by simp⟩

/-- Whatever comes after it, a length is announced. -/
theorem Oversized.append {s : Bytes} (h : Oversized allocatable s) (more : Bytes) :
    Oversized allocatable (s ++ more) := by
  obtain ⟨n, k, rest, hk, rfl, h⟩ := h
  refine ⟨n, k, rest ++ more, hk, by simp, h.imp_right ?_⟩
  rintro ⟨args, us, bulk, hlt, hus, rfl, hb⟩
  exact ⟨args, us, bulk ++ more, hlt, hus, by simp, hb.append more⟩

/-- The lengths that a command announces can be allocated. -/
def Fits (allocatable : ℕ) (args : List Bytes) : Prop :=
  sizeOfBytes * args.length ≤ allocatable ∧ ∀ arg ∈ args, arg.length ≤ allocatable

theorem Fits.sized {args : List Bytes} (h : Fits allocatable args)
    (hmax : allocatable ≤ isizeMax) : Sized args := by
  have hlt : allocatable < 2 ^ 64 := Nat.lt_of_le_of_lt hmax (by decide)
  have hlen : args.length ≤ sizeOfBytes * args.length := Nat.le_mul_of_pos_left _ (by decide)
  exact ⟨Nat.lt_of_le_of_lt (Nat.le_trans hlen h.1) hlt,
    fun arg harg => Nat.lt_of_le_of_lt (h.2 arg harg) hlt⟩

/-- A command whose lengths can be allocated is read. -/
theorem readCommand_of_fits {args : List Bytes} {u : Bytes} (hu : ArrayShape args u)
    (h : Fits allocatable args) (rest : Bytes) :
    readCommand allocatable (u ++ rest) = .ok (some args, rest) := by
  obtain ⟨n, us, hn, hus, rfl⟩ := hu
  have hline : readHeaderLine (42 :: n ++ crlf ++ us.flatten ++ rest) =
      .ok (some (42 :: n), us.flatten ++ rest) :=
    readHeaderLine_eq_ok.mpr (readHeaderLine_eq_some.mpr
      ⟨by simpa using lf_notMem_of_parseLen hn, by simp⟩)
  have hcapacity : withCapacity allocatable sizeOfBytes args.length (us.flatten ++ rest) =
      .ok ((), us.flatten ++ rest) := by
    refine (withCapacity_cases _ _ _ _).resolve_left fun hp => ?_
    exact Nat.not_lt.mpr h.1 (withCapacity_eq_panicked.mp hp)
  have hbulks : List.Forall₂ (fun arg u => BulkShape arg u ∧ arg.length ≤ allocatable) args us :=
    (List.forall₂_and_left _ _).mpr ⟨h.2, hus⟩ |>.imp fun arg u h => h.symm
  have hargs : times (readBulk allocatable) args.length (us.flatten ++ rest) = .ok (args, rest) :=
    (accepts_readBulk.times _ _ args rest).mpr ⟨us.flatten, ⟨rfl, us, hbulks, rfl⟩, rfl⟩
  unfold readCommand
  refine bind_eq_ok.mpr ⟨some (42 :: n), _, hline, ?_⟩
  simp only [List.cons_ne_nil, if_false, index, List.getElem?_cons_zero, pure_bind,
    sliceFrom_cons, ne_eq, not_true_eq_false]
  refine bind_eq_ok.mpr ⟨args.length, _, parseLen_eq_ok.mpr ⟨hn, rfl⟩, ?_⟩
  refine bind_eq_ok.mpr ⟨(), _, hcapacity, ?_⟩
  exact bind_eq_ok.mpr ⟨args, rest, hargs, rfl⟩

/-- However much of them was received, commands whose lengths can be allocated announce no other. -/
theorem not_oversized_of_fits (hmax : allocatable ≤ isizeMax) {cmds : List (List Bytes)}
    (h : ∀ args ∈ cmds, Fits allocatable args) {s : Bytes}
    (hs : s <+: cmds.flatMap renderCommand) : ¬ Oversized allocatable s := by
  obtain ⟨more, hmore⟩ := hs
  intro hover
  have hall := hover.append more
  rw [hmore, ← readCommand_eq_panicked] at hall
  cases cmds with
  | nil => cases hall
  | cons args cmds =>
    have hfits := h args List.mem_cons_self
    rw [List.flatMap_cons,
      readCommand_of_fits (arrayShape_renderCommand (hfits.sized hmax)) hfits] at hall
    cases hall

end Alloc

/-- The reader comes back with a command, a clean end or an `io::Error`, and then with what it
would without limits on allocations, if and only if no length in the stream it gets to is too
large. -/
theorem readCommand_returns_iff (s : Bytes) :
    ((∃ r, Alloc.readCommand isizeMax s = .ok r) ∨
        (∃ e, Alloc.readCommand isizeMax s = .error (.io e)) ↔
      ¬ Alloc.Oversized isizeMax s) ∧
    (¬ Alloc.Oversized isizeMax s → Alloc.readCommand isizeMax s = (readCommand s).mapError .io) := by
  rw [← Alloc.readCommand_eq_panicked]
  refine ⟨?_, (Alloc.guards_readCommand isizeMax s).resolve_left⟩
  cases Alloc.readCommand isizeMax s with
  | ok r => exact iff_of_true (.inl ⟨r, rfl⟩) (fun h => by cases h)
  | error e =>
    cases e with
    | io e => exact iff_of_true (.inr ⟨e, rfl⟩) (fun h => by cases h)
    | panicked =>
      refine iff_of_false ?_ (fun h => h rfl)
      rintro (⟨_, h⟩ | ⟨_, h⟩) <;> cases h

/-- 2^58 arguments of 32 bytes each, and an argument of 2^63 bytes. -/
theorem readCommand_panics :
    Alloc.readCommand isizeMax (utf8 "*288230376151711744\r\n") = .error .panicked ∧
      Alloc.readCommand isizeMax (utf8 "*1\r\n$9223372036854775808\r\n") = .error .panicked := by
  decide +kernel

end Dockfoxprox
