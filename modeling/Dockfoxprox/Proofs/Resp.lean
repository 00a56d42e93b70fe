import Dockfoxprox.Model.Resp

/-! The reader of commands accepts exactly the arrays of bulk strings, whatever bytes the
arguments hold, and reads a pipeline of rendered commands back. -/

namespace Dockfoxprox

open Reader

theorem utf8_ofList (cs : List Char) : utf8 (String.ofList cs) = cs.flatMap String.utf8EncodeChar := by
  simp [utf8, List.utf8Encode]

theorem toByteArray_utf8 (s : String) : (utf8 s).toByteArray = s.toByteArray := by
  apply ByteArray.ext
  simp [utf8]

theorem fromUtf8_ofList (cs : List Char) : fromUtf8 (utf8 (String.ofList cs)) = some cs := by
  rw [fromUtf8, toByteArray_utf8]
  simp

theorem utf8_append (s t : String) : utf8 (s ++ t) = utf8 s ++ utf8 t := by
  simp [utf8]

theorem utf8_eq (s : String) : utf8 s = s.toList.flatMap String.utf8EncodeChar := by
  rw [← utf8_ofList, String.ofList_toList]

theorem fromUtf8_utf8 (s : String) : fromUtf8 (utf8 s) = some s.toList := by
  have h := fromUtf8_ofList s.toList
  rwa [String.ofList_toList] at h

theorem utf8_inj {s t : String} (h : utf8 s = utf8 t) : s = t := by
  have hs := fromUtf8_utf8 s
  rw [h, fromUtf8_utf8, Option.some.injEq] at hs
  exact String.toList_inj.mp hs.symm

theorem eq_of_fromUtf8 {b : Bytes} {cs : List Char} (h : fromUtf8 b = some cs) :
    b = cs.flatMap String.utf8EncodeChar := by
  obtain ⟨a, ha, rfl⟩ := Option.map_eq_some_iff.mp h
  have hb := ByteArray.utf8Encode_get_utf8Decode? (b := b.toByteArray) (h := by simp [ha])
  simp only [ha, Option.get_some] at hb
  exact List.toByteArray_inj.mp hb.symm

theorem utf8EncodeChar_ascii {c : Char} (h : c.toNat < 128) :
    String.utf8EncodeChar c = [UInt8.ofNat c.toNat] := by
  unfold String.utf8EncodeChar
  exact if_pos (Nat.le_of_lt_succ h)

/-- A byte below 128 stands for the character of its own number only. -/
theorem mem_utf8EncodeChar {c : Char} {b : UInt8} (hb : b < 128) (h : b ∈ String.utf8EncodeChar c) :
    c.toNat = b.toNat := by
  have hlead {n : ℕ} (hlo : 128 ≤ n) (hhi : n < 256) : b ≠ UInt8.ofNat n := by
    rintro rfl
    rw [UInt8.lt_iff_toNat_lt, UInt8.toNat_ofNat', Nat.mod_eq_of_lt hhi] at hb
    exact absurd hb (Nat.not_lt.mpr hlo)
  have hv : c.toNat = c.val.toNat := rfl
  unfold String.utf8EncodeChar at h
  simp only at h
  split at h
  · rw [List.mem_singleton.mp h, UInt8.toNat_ofNat', hv]
    omega
  · split at h
    · simp only [List.mem_cons, List.not_mem_nil, or_false] at h
      rcases h with h | h <;> exact absurd h (hlead (by omega) (by omega))
    · split at h
      · simp only [List.mem_cons, List.not_mem_nil, or_false] at h
        rcases h with h | h | h <;> exact absurd h (hlead (by omega) (by omega))
      · simp only [List.mem_cons, List.not_mem_nil, or_false] at h
        rcases h with h | h | h | h <;> exact absurd h (hlead (by omega) (by omega))

/-! Lengths. -/

theorem foldlM_pushDigit {ds : List Char} {acc : ℕ} (hd : ∀ c ∈ ds, c.isDigit)
    (hlt : Nat.ofDigitChars 10 ds acc < 2 ^ 64) :
    ds.foldlM pushDigit acc = some (Nat.ofDigitChars 10 ds acc) := by
  induction ds generalizing acc with
  | nil => simp
  | cons c ds ih =>
    rw [Nat.ofDigitChars_cons] at hlt ⊢
    have hle : 10 * acc + (c.toNat - '0'.toNat) ≤
        Nat.ofDigitChars 10 ds (10 * acc + (c.toNat - '0'.toNat)) := by
      rw [Nat.ofDigitChars_eq_ofDigitChars_zero]
      have : 1 ≤ 10 ^ ds.length := Nat.one_le_pow _ _ (by omega)
      exact Nat.le_trans (Nat.le_mul_of_pos_left _ this) (Nat.le_add_right ..)
    have hv : acc * 10 + (c.toNat - 48) = 10 * acc + (c.toNat - '0'.toNat) := by
      rw [Nat.mul_comm]
      rfl
    have hp : pushDigit acc c = some (10 * acc + (c.toNat - '0'.toNat)) := by
      rw [pushDigit, if_pos ⟨hd c (by simp), by omega⟩, hv]
    rw [List.foldlM_cons, hp]
    exact ih (fun c' hc' => hd c' (by simp [hc'])) hlt

theorem usizeFromStr_toDigits {n : ℕ} (hn : n < 2 ^ 64) : usizeFromStr (Nat.toDigits 10 n) = some n := by
  have hd : ∀ c ∈ Nat.toDigits 10 n, c.isDigit := fun c hc =>
    Nat.isDigit_of_mem_toDigits (by omega) (by omega) hc
  have hplus : (Nat.toDigits 10 n).head? ≠ some '+' := by
    intro h
    have := hd '+' (List.mem_of_mem_head? h)
    cases this
  have hv : Nat.ofDigitChars 10 (Nat.toDigits 10 n) 0 = n := Nat.ofDigitChars_ten_toDigits
  rw [usizeFromStr, if_neg hplus, if_neg Nat.toDigits_ne_nil, foldlM_pushDigit hd (by omega), hv]

/-- The decimal text of a length that fits a `usize` is read back. -/
theorem parseLen_repr {n : ℕ} (hn : n < 2 ^ 64) : parseLen (utf8 (Nat.repr n)) = .ok n := by
  rw [parseLen, Nat.repr_eq_ofList_toDigits, fromUtf8_ofList, Option.bind_some,
    usizeFromStr_toDigits hn]

theorem isDigit_of_foldlM {ds : List Char} {acc n : ℕ} (h : ds.foldlM pushDigit acc = some n) :
    ∀ c ∈ ds, c.isDigit := by
  induction ds generalizing acc with
  | nil => simp
  | cons c ds ih =>
    rw [List.foldlM_cons, Option.bind_eq_bind, Option.bind_eq_some_iff] at h
    obtain ⟨a, ha, h⟩ := h
    unfold pushDigit at ha
    split at ha
    · rename_i hc
      intro c' hc'
      rcases List.mem_cons.mp hc' with rfl | hc'
      · exact hc.1
      · exact ih h c' hc'
    · cases ha

theorem chars_of_usizeFromStr {cs : List Char} {n : ℕ} (h : usizeFromStr cs = some n) :
    ∀ c ∈ cs, c = '+' ∨ c.isDigit := by
  simp only [usizeFromStr] at h
  have hd := isDigit_of_foldlM (Option.ite_none_left_eq_some.mp h).2
  intro c hc
  split at hd
  · rename_i hplus
    obtain ⟨rest, rfl⟩ := List.head?_eq_some_iff.mp hplus
    rcases List.mem_cons.mp hc with rfl | hc
    · exact Or.inl rfl
    · exact Or.inr (hd c hc)
  · exact Or.inr (hd c hc)

/-- No accepted spelling of a length holds a line feed. -/
theorem lf_notMem_of_parseLen {b : Bytes} {n : ℕ} (h : parseLen b = .ok n) : 10 ∉ b := by
  unfold parseLen at h
  split at h
  · rename_i m hm
    obtain ⟨cs, hcs, hu⟩ := Option.bind_eq_some_iff.mp hm
    intro hb
    rw [eq_of_fromUtf8 hcs, List.mem_flatMap] at hb
    obtain ⟨c, hc, hb⟩ := hb
    have hlf : c.toNat = 10 := mem_utf8EncodeChar (by decide) hb
    rcases chars_of_usizeFromStr hu c hc with rfl | hd
    · cases hlf
    · have := (Char.isDigit_iff_toNat.mp hd).1
      rw [hlf] at this
      exact absurd this (by decide)
  · cases h

/-! The readers. -/

theorem readHeaderLine_eq_some {s line rest : Bytes} :
    readHeaderLine s = .ok (some line, rest) ↔ 10 ∉ line ∧ s = line ++ crlf ++ rest := by
  unfold readHeaderLine
  rw [bind_eq_ok]
  constructor
  · rintro ⟨buf, m, hr, h⟩
    obtain ⟨happ, hlf, -⟩ := cutAfter_inv (x := 10) s
    rw [show cutAfter 10 s = (buf, m) from Except.ok.inj hr] at happ hlf
    split at h
    · cases h
    · split at h
      · exact absurd h throw_ne_ok
      · rename_i hlast
        split at h
        · exact absurd h throw_ne_ok
        · rename_i hcr
          rw [pure_eq_ok, Option.some.injEq] at h
          obtain ⟨hline, rfl⟩ := h
          simp only [not_or, not_not] at hlast hcr
          obtain ⟨init, rfl⟩ := List.getLast?_eq_some_iff.mp hlast
          have hlen : 2 ≤ init.length + 1 := by
            have hlong := hcr.1
            rw [List.length_append, List.length_singleton] at hlong
            omega
          have hcr' : init.getLast? = some 13 := by
            rw [List.getLast?_eq_getElem?, ← hcr.2, List.length_append, List.length_singleton,
              List.getElem?_append_left (by omega)]
            rfl
          obtain ⟨line', rfl⟩ := List.getLast?_eq_some_iff.mp hcr'
          have hline' : line' = line := by simpa using hline
          subst hline'
          exact ⟨by simpa using hlf, by simpa [crlf] using happ.symm⟩
  · rintro ⟨hlf, rfl⟩
    have hcut : cutAfter 10 (line ++ crlf ++ rest) = (line ++ crlf, rest) := by
      have hcr : 10 ∉ line ++ [13] := by simpa using hlf
      simpa [crlf] using cutAfter_append hcr rest
    refine ⟨line ++ crlf, rest, congrArg Except.ok hcut, ?_⟩
    have hlen : ¬ line.length + 2 < 2 := by omega
    simp [crlf, hlen, pure_eq_ok]

theorem accepts_liftM {α : Type} (x : Except IoError α) :
    Accepts (liftM x : Reader UInt8 IoError α) fun a u => x = .ok a ∧ u = [] := by
  intro s a rest
  cases x <;> simp [liftM, monadLift, MonadLift.monadLift, StateT.lift, bind, Except.bind, pure,
    Except.pure]

/-- The renderings of one argument: any accepted spelling of its length. -/
def BulkShape (arg u : Bytes) : Prop :=
  ∃ len, parseLen len = .ok arg.length ∧ u = 36 :: len ++ crlf ++ arg ++ crlf

theorem accepts_readBulkBody (len : Bytes) :
    Accepts (readBulkBody len) fun arg u => parseLen len = .ok arg.length ∧ u = arg ++ crlf := by
  have hend (buf c : Bytes) : Accepts
      (if c ≠ [13, 10] then throw ⟨.invalidData, "missing CRLF after bulk"⟩
        else pure buf : Reader UInt8 IoError Bytes)
      fun arg u => (arg = buf ∧ u = []) ∧ c = crlf := by
    intro s arg rest
    by_cases hc : c = [13, 10]
    · simpa [hc, crlf] using Accepts.pure buf s arg rest
    · simp [hc, crlf, throw_ne_ok]
  refine ((accepts_liftM _).bind fun n => (accepts_readExact earlyEof n).bind fun buf =>
    (accepts_readExact earlyEof 2).bind fun c => hend buf c).of_iff fun arg u => ?_
  constructor
  · rintro ⟨n, v, w, ⟨hn, rfl⟩, ⟨buf, x, y, ⟨rfl, rfl⟩, ⟨c, z, k, ⟨rfl, -⟩, ⟨⟨rfl, rfl⟩, rfl⟩, rfl⟩, rfl⟩, rfl⟩
    exact ⟨hn, by simp⟩
  · rintro ⟨hn, rfl⟩
    exact ⟨_, [], _, ⟨hn, rfl⟩, ⟨arg, arg, crlf, ⟨rfl, rfl⟩,
      ⟨crlf, crlf, [], ⟨rfl, rfl⟩, ⟨⟨rfl, rfl⟩, rfl⟩, by simp⟩, rfl⟩, rfl⟩

theorem accepts_readBulk : Accepts readBulk BulkShape := by
  intro s arg rest
  unfold readBulk
  rw [bind_eq_ok]
  constructor
  · rintro ⟨line, m, hline, h⟩
    cases line with
    | none => exact absurd h throw_ne_ok
    | some line =>
      obtain ⟨-, rfl⟩ := readHeaderLine_eq_some.mp hline
      by_cases hd : line.head? = some 36
      · obtain ⟨len, rfl⟩ := List.head?_eq_some_iff.mp hd
        obtain ⟨u, ⟨hlen, rfl⟩, rfl⟩ := (accepts_readBulkBody len m arg rest).mp h
        exact ⟨_, ⟨len, hlen, rfl⟩, by simp⟩
      · simp only [hd, ne_eq, not_false_eq_true, if_true] at h
        exact absurd h throw_ne_ok
  · rintro ⟨u, ⟨len, hlen, rfl⟩, rfl⟩
    refine ⟨some (36 :: len), arg ++ crlf ++ rest, ?_, ?_⟩
    · rw [readHeaderLine_eq_some]
      exact ⟨by simpa using lf_notMem_of_parseLen hlen, by simp⟩
    · exact (accepts_readBulkBody len _ arg rest).mpr ⟨_, ⟨hlen, rfl⟩, rfl⟩

/-- The renderings of a command: an accepted spelling of the number of its arguments and
one rendering for each of them. -/
def ArrayShape (args : List Bytes) (u : Bytes) : Prop :=
  ∃ n us, parseLen n = .ok args.length ∧ List.Forall₂ BulkShape args us ∧
    u = 42 :: n ++ crlf ++ us.flatten

theorem readHeaderLine_ne_none {b : UInt8} {s rest : Bytes} :
    readHeaderLine (b :: s) ≠ .ok (none, rest) := by
  intro h
  obtain ⟨buf, m, hr, h⟩ := bind_eq_ok.mp h
  obtain ⟨-, -, hnil⟩ := cutAfter_inv (x := 10) (b :: s)
  rw [show cutAfter 10 (b :: s) = (buf, m) from Except.ok.inj hr] at hnil
  split at h
  · rename_i hb
    cases hnil hb
  · split at h
    · exact throw_ne_ok h
    · split at h
      · exact throw_ne_ok h
      · cases (pure_eq_ok.mp h).1

/-- On a stream that begins with `*` the reader succeeds exactly on the renderings. -/
theorem readCommand_star {s rest : Bytes} {x : Option (List Bytes)} :
    readCommand (42 :: s) = .ok (x, rest) ↔
      ∃ args u, x = some args ∧ ArrayShape args u ∧ 42 :: s = u ++ rest := by
  have hbody (n : Bytes) := (accepts_liftM (parseLen n)).bind fun k =>
    (accepts_readBulk.times k).bind fun args => Accepts.pure (ε := IoError) (some args)
  unfold readCommand
  rw [bind_eq_ok]
  constructor
  · rintro ⟨line, m, hline, h⟩
    match line with
    | none => exact absurd hline readHeaderLine_ne_none
    | some [] =>
      obtain ⟨-, hs⟩ := readHeaderLine_eq_some.mp hline
      cases hs
    | some (b :: n) =>
      obtain ⟨-, hs⟩ := readHeaderLine_eq_some.mp hline
      obtain ⟨rfl, rfl⟩ := List.cons.inj hs
      obtain ⟨u, ⟨k, v, w, ⟨hk, rfl⟩, ⟨args, y, z, ⟨hlen, us, hus, rfl⟩, ⟨rfl, rfl⟩, rfl⟩, rfl⟩, rfl⟩ :=
        (hbody n m x rest).mp h
      exact ⟨args, _, rfl, ⟨n, us, by rw [hlen]; exact hk, hus, rfl⟩, by simp⟩
  · rintro ⟨args, u, rfl, ⟨n, us, hn, hus, rfl⟩, hs⟩
    refine ⟨some (42 :: n), us.flatten ++ rest, ?_, ?_⟩
    · rw [readHeaderLine_eq_some]
      exact ⟨by simpa using lf_notMem_of_parseLen hn, by rw [hs]; simp⟩
    · exact (hbody n _ _ _).mpr ⟨us.flatten, ⟨_, [], us.flatten, ⟨hn, rfl⟩,
        ⟨args, us.flatten, [], ⟨rfl, us, hus, rfl⟩, ⟨rfl, rfl⟩, by simp⟩, rfl⟩, rfl⟩

/-- The lengths of a command fit a `usize`. -/
def Sized (args : List Bytes) : Prop := args.length < 2 ^ 64 ∧ ∀ arg ∈ args, arg.length < 2 ^ 64

theorem arrayShape_renderCommand {args : List Bytes} (h : Sized args) :
    ArrayShape args (renderCommand args) := by
  refine ⟨_, args.map writeBulk, parseLen_repr h.1, ?_, by simp [renderCommand, List.flatMap]⟩
  rw [List.forall₂_map_right_iff, List.forall₂_same]
  exact fun arg harg => ⟨_, parseLen_repr (h.2 arg harg), rfl⟩

/-- A pipeline of rendered commands is read back, up to whatever follows it. -/
theorem times_readCommand {cmds : List (List Bytes)} (h : ∀ args ∈ cmds, Sized args)
    (suffix : Bytes) :
    times readCommand cmds.length (cmds.flatMap renderCommand ++ suffix) =
      .ok (cmds.map some, suffix) := by
  induction cmds with
  | nil => rfl
  | cons args cmds ih =>
    have hrest := ih fun args' ha => h args' (by simp [ha])
    have hfirst : readCommand (renderCommand args ++ (cmds.flatMap renderCommand ++ suffix)) =
        .ok (some args, cmds.flatMap renderCommand ++ suffix) :=
      readCommand_star.mpr ⟨args, _, rfl, arrayShape_renderCommand (h args (by simp)), rfl⟩
    rw [List.flatMap_cons, List.append_assoc, List.length_cons, times, bind_eq_ok]
    refine ⟨some args, _, hfirst, ?_⟩
    rw [bind_eq_ok]
    exact ⟨cmds.map some, suffix, hrest, rfl⟩

/-- The reader of commands is sound and complete: it reads every pipeline of rendered
commands back and stops where it ends, and on a stream that begins with `*` it succeeds on
exactly the renderings of its result and fails on every other one. -/
theorem readCommand_sound_complete :
    (∀ (cmds : List (List Bytes)) (suffix : Bytes), (∀ args ∈ cmds, Sized args) →
      times readCommand cmds.length (cmds.flatMap renderCommand ++ suffix) =
        .ok (cmds.map some, suffix)) ∧
    readCommand [] = .ok (none, []) ∧
    (∀ (s rest : Bytes) (args : List Bytes), readCommand (42 :: s) = .ok (some args, rest) ↔
      ∃ u, ArrayShape args u ∧ 42 :: s = u ++ rest) ∧
    ∀ s : Bytes, (∀ args u rest, ArrayShape args u → 42 :: s ≠ u ++ rest) →
      ∃ e, readCommand (42 :: s) = .error e := by
  refine ⟨fun cmds suffix h => times_readCommand h suffix, rfl, fun s rest args => ?_,
    fun s hs => ?_⟩
  · rw [readCommand_star]
    constructor
    · rintro ⟨args', u, hargs, hu, hs⟩
      cases hargs
      exact ⟨u, hu, hs⟩
    · rintro ⟨u, hu, hs⟩
      exact ⟨args, u, rfl, hu, hs⟩
  · cases hr : readCommand (42 :: s) with
    | error e => exact ⟨e, rfl⟩
    | ok r =>
      obtain ⟨args, u, -, hu, hsu⟩ := readCommand_star.mp hr
      exact absurd hsu (hs args u _ hu)

/-- Two commands in a pipeline, one of whose arguments looks like a header. -/
theorem readCommand_sound_complete_pipeline :
    times readCommand 2 ([[utf8 "GET", utf8 "$1\r\n*"], []].flatMap renderCommand ++ [42]) =
      .ok ([some [utf8 "GET", utf8 "$1\r\n*"], some []], [42]) :=
  readCommand_sound_complete.1 [[utf8 "GET", utf8 "$1\r\n*"], []] [42] 
    (by unfold Sized; decide +kernel)

end Dockfoxprox
