import Dockfoxprox.Model.Challenge
import Dockfoxprox.Proofs.Resp

/-! The loops of the challenge scanner on the text in front of them: where each of them stops,
and which slices are on character boundaries. -/

namespace Dockfoxprox

/-! The loops. -/

theorem advance_eq (p : UInt8 → Bool) (bytes : Bytes) {fuel i : ℕ} (hi : i ≤ bytes.length)
    (hfuel : bytes.length < fuel + i) :
    advance p bytes fuel i = some (i + ((bytes.drop i).takeWhile p).length) := by
  induction fuel generalizing i with
  | zero => omega
  | succ fuel ih =>
    unfold advance
    by_cases hlt : i < bytes.length
    · rw [if_pos hlt, List.drop_eq_getElem_cons hlt, List.getElem?_eq_getElem hlt,
        List.takeWhile_cons]
      by_cases hp : p bytes[i]
      · simp only [hp, if_true, Option.bind_eq_bind, Option.bind_some]
        rw [@ih (i + 1) hlt (by omega), List.length_cons, Nat.add_right_comm]
        rfl
      · simp [hp]
    · rw [if_neg hlt, List.drop_eq_nil_of_le (Nat.le_of_not_lt hlt)]
      rfl

/-- A run of bytes that the loop goes over, up to one that it does not. -/
theorem advance_append {p : UInt8 → Bool} {pre mid post : Bytes} {fuel : ℕ}
    (hmid : ∀ b ∈ mid, p b) (hpost : ∀ b, post.head? = some b → p b = false)
    (hfuel : (pre ++ (mid ++ post)).length < fuel + pre.length) :
    advance p (pre ++ (mid ++ post)) fuel pre.length = some (pre.length + mid.length) := by
  have hstop : post.takeWhile p = [] := by
    cases post with
    | nil => rfl
    | cons b post => rw [List.takeWhile_cons, hpost b rfl]; rfl
  rw [advance_eq p _ (by simp) hfuel, List.drop_left, List.takeWhile_append_of_pos hmid, hstop,
    List.append_nil]

/-- The bytes up to the closing quote. -/
def quoteEnd : Bytes → ℕ
  | [] => 0
  | [b] => if b = 34 then 0 else 1
  | b :: c :: rest =>
    if b = 34 then 0 else if b = 92 then quoteEnd rest + 2 else quoteEnd (c :: rest) + 1

theorem closeQuote_eq (bytes : Bytes) {fuel i : ℕ} (hi : i ≤ bytes.length)
    (hfuel : bytes.length < fuel + i) :
    closeQuote bytes fuel i = some (i + quoteEnd (bytes.drop i)) := by
  induction fuel generalizing i with
  | zero => omega
  | succ fuel ih =>
    unfold closeQuote
    by_cases hlt : i < bytes.length
    · rw [if_pos hlt, List.getElem?_eq_getElem hlt, List.drop_eq_getElem_cons hlt]
      simp only [Option.bind_eq_bind, Option.bind_some]
      by_cases hq : bytes[i] = 34
      · rw [if_neg (not_not.mpr hq), hq]
        cases bytes.drop (i + 1) <;> rfl
      · rw [if_pos hq]
        by_cases hlt' : i + 1 < bytes.length
        · rw [List.drop_eq_getElem_cons hlt', quoteEnd, if_neg hq]
          by_cases hb : bytes[i] = 92
          · rw [if_pos ⟨hb, hlt'⟩, if_pos hb, @ih (i + 2) hlt' (by omega), Nat.add_right_comm]
            rfl
          · rw [if_neg fun h => hb h.1, if_neg hb, ih hlt (by omega), List.drop_eq_getElem_cons hlt']
            congr 1
            omega
        · rw [if_neg fun h => hlt' h.2, ih hlt (by omega),
            List.drop_eq_nil_of_le (Nat.le_of_not_lt hlt'), quoteEnd, quoteEnd, if_neg hq]
    · rw [if_neg hlt, List.drop_eq_nil_of_le (Nat.le_of_not_lt hlt)]
      rfl

/-- A byte that is neither a quote nor a backslash. -/
theorem quoteEnd_cons {b : UInt8} (hq : b ≠ 34) (hb : b ≠ 92) (rest : Bytes) :
    quoteEnd (b :: rest) = quoteEnd rest + 1 := by
  cases rest with
  | nil => rw [quoteEnd, quoteEnd, if_neg hq]
  | cons c rest => rw [quoteEnd, if_neg hq, if_neg hb]

theorem quoteEnd_append {mid : Bytes} (h : ∀ b ∈ mid, b ≠ 34 ∧ b ≠ 92) (rest : Bytes) :
    quoteEnd (mid ++ rest) = mid.length + quoteEnd rest := by
  induction mid with
  | nil => simp
  | cons b mid ih =>
    have hb := h b List.mem_cons_self
    rw [List.cons_append, quoteEnd_cons hb.1 hb.2, ih fun c hc => h c (List.mem_cons_of_mem b hc),
      List.length_cons]
    omega

/-! Character boundaries. -/

/-- A byte that a character may begin with. -/
def startsChar (b : UInt8) : Bool := b < 128 || 192 ≤ b

theorem startsChar_head (c : Char) :
    ∃ b bs, String.utf8EncodeChar c = b :: bs ∧ startsChar b := by
  have hlead {n : ℕ} (hlo : 192 ≤ n) (hhi : n < 256) : startsChar (UInt8.ofNat n) := by
    have hle : 192 ≤ UInt8.ofNat n := by
      rw [UInt8.le_iff_toNat_le, UInt8.toNat_ofNat', Nat.mod_eq_of_lt hhi]
      exact hlo
    simp [startsChar, hle]
  unfold String.utf8EncodeChar
  simp only
  split
  · rename_i hv
    refine ⟨_, _, rfl, ?_⟩
    have hlt : UInt8.ofNat c.val.toNat < 128 := by
      rw [UInt8.lt_iff_toNat_lt, UInt8.toNat_ofNat', Nat.mod_eq_of_lt (by omega)]
      exact Nat.lt_succ_of_le hv
    simp only [startsChar, Bool.or_eq_true, decide_eq_true_eq]
    exact .inl hlt
  · split
    · exact ⟨_, _, rfl, hlead (by omega) (by omega)⟩
    · split
      · exact ⟨_, _, rfl, hlead (by omega) (by omega)⟩
      · exact ⟨_, _, rfl, hlead (by omega) (by omega)⟩

theorem utf8_head {s : String} {b : UInt8} (h : (utf8 s).head? = some b) : startsChar b := by
  rw [utf8_eq] at h
  cases hs : s.toList with
  | nil => simp [hs] at h
  | cons c cs =>
    obtain ⟨b', bs, hc, hok⟩ := startsChar_head c
    rw [hs, List.flatMap_cons, hc] at h
    cases h
    exact hok

theorem isCharBoundary_append (pre : Bytes) {rest : Bytes}
    (h : ∀ b, rest.head? = some b → startsChar b) :
    isCharBoundary (pre ++ rest) pre.length := by
  unfold isCharBoundary
  cases rest with
  | nil => simp
  | cons b rest =>
    have hb := h b rfl
    simp only [startsChar] at hb
    simp [hb]

/-- A slice of whole characters. -/
theorem slice_append {pre post : Bytes} (s : String)
    (hpost : ∀ b, post.head? = some b → startsChar b) :
    slice (pre ++ (utf8 s ++ post)) pre.length (pre.length + (utf8 s).length) = some s := by
  have hstart : ∀ b, (utf8 s ++ post).head? = some b → startsChar b := by
    intro b hb
    rw [List.head?_append] at hb
    cases hs : (utf8 s).head? with
    | none => exact hpost b (by simpa [hs] using hb)
    | some c =>
      rw [hs, Option.some_or, Option.some.injEq] at hb
      subst hb
      exact utf8_head hs
  have hend : isCharBoundary (pre ++ (utf8 s ++ post)) (pre.length + (utf8 s).length) := by
    rw [← List.append_assoc, ← List.length_append]
    exact isCharBoundary_append _ hpost
  rw [slice, if_pos ⟨Nat.le_add_right _ _, isCharBoundary_append _ hstart, hend⟩, List.drop_left,
    Nat.add_sub_cancel_left, List.take_left, fromUtf8_utf8, Option.map_some, String.ofList_toList]

end Dockfoxprox
