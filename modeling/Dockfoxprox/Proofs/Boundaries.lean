import Dockfoxprox.Proofs.Scanner

/-! The challenge scanner on any text: its loops end, and all its slices begin and end between
two characters. -/

namespace Dockfoxprox

/-- The byte index `i` of a text lies between two of its characters. -/
def CutsAt (s : String) (i : ℕ) : Prop := ∃ pre post, s = pre ++ post ∧ (utf8 pre).length = i

theorem CutsAt.zero (s : String) : CutsAt s 0 := ⟨"", s, by simp, rfl⟩

theorem CutsAt.length (s : String) : CutsAt s (utf8 s).length := ⟨s, "", by simp, rfl⟩

/-- An ASCII byte is a character of its own. -/
theorem split_ascii {cs : List Char} {i : ℕ} {b : UInt8}
    (h : (cs.flatMap String.utf8EncodeChar)[i]? = some b) (hb : b < 128) :
    ∃ pre c post, cs = pre ++ c :: post ∧ (pre.flatMap String.utf8EncodeChar).length = i ∧
      String.utf8EncodeChar c = [b] := by
  induction cs generalizing i with
  | nil => simp at h
  | cons c cs ih =>
    rw [List.flatMap_cons] at h
    by_cases hi : i < (String.utf8EncodeChar c).length
    · rw [List.getElem?_append_left hi] at h
      have hc := mem_utf8EncodeChar hb (List.mem_of_getElem? h)
      have hsingle : String.utf8EncodeChar c = [b] := by
        rw [utf8EncodeChar_ascii (by rw [hc]; exact UInt8.lt_iff_toNat_lt.mp hb), hc,
          UInt8.ofNat_toNat]
      rw [hsingle, List.length_singleton] at hi
      exact ⟨[], c, cs, rfl, by simp only [List.flatMap_nil, List.length_nil]; omega, hsingle⟩
    · rw [List.getElem?_append_right (Nat.le_of_not_lt hi)] at h
      obtain ⟨pre, d, post, rfl, hlen, hd⟩ := ih h
      refine ⟨c :: pre, d, post, rfl, ?_, hd⟩
      rw [List.flatMap_cons, List.length_append, hlen]
      omega

theorem cutsAt_ascii {s : String} {i : ℕ} {b : UInt8} (h : (utf8 s)[i]? = some b) (hb : b < 128) :
    CutsAt s i ∧ CutsAt s (i + 1) := by
  rw [utf8_eq] at h
  obtain ⟨pre, c, post, hs, hlen, hc⟩ := split_ascii h hb
  constructor
  · refine ⟨String.ofList pre, String.ofList (c :: post), ?_, by rw [utf8_ofList, hlen]⟩
    rw [← String.ofList_append, ← hs, String.ofList_toList]
  · refine ⟨String.ofList (pre ++ [c]), String.ofList post, ?_, ?_⟩
    · rw [← String.ofList_append, List.append_assoc, List.singleton_append, ← hs,
        String.ofList_toList]
    · rw [utf8_ofList, List.flatMap_append, List.length_append, hlen, List.flatMap_singleton, hc]
      rfl

/-- What is between two cuts is a text. -/
theorem CutsAt.between {s : String} {a b : ℕ} (ha : CutsAt s a) (hb : CutsAt s b) (hle : a ≤ b) :
    ∃ pre mid post, s = pre ++ (mid ++ post) ∧ (utf8 pre).length = a ∧
      (utf8 (pre ++ mid)).length = b := by
  obtain ⟨pre, rest, hs, rfl⟩ := ha
  obtain ⟨upto, post, rfl, rfl⟩ := hb
  have hlist := congrArg String.toList hs
  rw [String.toList_append, String.toList_append, List.append_eq_append_iff] at hlist
  obtain ⟨mid, hpre, -⟩ | ⟨mid, hupto, hpost⟩ := hlist
  · -- the first cut is not behind the second, so that they are the same
    obtain rfl : pre = upto ++ String.ofList mid := by
      rw [← String.toList_inj, String.toList_append, String.toList_ofList, hpre]
    have hmid : utf8 (String.ofList mid) = utf8 "" := by
      rw [utf8_append, List.length_append] at hle
      exact List.eq_nil_of_length_eq_zero (by omega)
    rw [utf8_inj hmid, String.append_empty]
    exact ⟨upto, "", post, by rw [String.empty_append], rfl, by rw [String.append_empty]⟩
  · obtain rfl : upto = pre ++ String.ofList mid := by
      rw [← String.toList_inj, String.toList_append, String.toList_ofList, hupto]
    exact ⟨pre, String.ofList mid, post, by rw [String.append_assoc], rfl, rfl⟩

theorem slice_isSome {s : String} {a b : ℕ} (ha : CutsAt s a) (hb : CutsAt s b) (hle : a ≤ b) :
    (slice (utf8 s) a b).isSome := by
  obtain ⟨pre, mid, post, rfl, rfl, rfl⟩ := ha.between hb hle
  rw [utf8_append pre mid, List.length_append, utf8_append, utf8_append,
    slice_append mid fun b hb => utf8_head hb]
  rfl

/-! The loops. -/

/-- The loop goes over bytes that satisfy `p` and stops at the first that does not. -/
theorem advance_spec (p : UInt8 → Bool) (bytes : Bytes) {i : ℕ} (hi : i ≤ bytes.length) :
    ∃ j, advance p bytes (bytes.length + 1) i = some j ∧ i ≤ j ∧ j ≤ bytes.length ∧
      (∀ k b, i ≤ k → k < j → bytes[k]? = some b → p b) ∧
      ∀ b, bytes[j]? = some b → p b = false := by
  have hrun := @List.takeWhile_append_dropWhile _ p (bytes.drop i)
  have hget (k : ℕ) : bytes[i + k]? =
      ((bytes.drop i).takeWhile p ++ (bytes.drop i).dropWhile p)[k]? := by
    rw [hrun, List.getElem?_drop]
  refine ⟨_, advance_eq p bytes hi (by omega), Nat.le_add_right _ _, ?_, ?_, ?_⟩
  · have h := congrArg List.length hrun
    rw [List.length_append, List.length_drop] at h
    omega
  · intro k b hik hk hb
    obtain ⟨n, rfl⟩ := Nat.exists_eq_add_of_le hik
    rw [hget, List.getElem?_append_left (by omega)] at hb
    exact List.mem_takeWhile_imp (List.mem_of_getElem? hb)
  · intro b hb
    rw [hget, List.getElem?_append_right (Nat.le_refl _), Nat.sub_self, ← List.head?_eq_getElem?]
      at hb
    have hnot := List.head?_dropWhile_not p (bytes.drop i)
    rw [hb] at hnot
    exact hnot

theorem quoteEnd_le (bytes : Bytes) : quoteEnd bytes ≤ bytes.length := by
  fun_induction quoteEnd bytes <;> simp_all

theorem getElem?_quoteEnd {bytes : Bytes} {b : UInt8} (h : bytes[quoteEnd bytes]? = some b) :
    b = 34 := by
  fun_induction quoteEnd bytes <;> simp_all

theorem closeQuote_spec (bytes : Bytes) {i : ℕ} (hi : i ≤ bytes.length) :
    ∃ j, closeQuote bytes (bytes.length + 1) i = some j ∧ i ≤ j ∧ j ≤ bytes.length ∧
      ∀ b, bytes[j]? = some b → b = 34 := by
  refine ⟨_, closeQuote_eq bytes hi (by omega), Nat.le_add_right _ _, ?_, ?_⟩
  · have h := quoteEnd_le (bytes.drop i)
    rw [List.length_drop] at h
    omega
  · intro b hb
    rw [← List.getElem?_drop] at hb
    exact getElem?_quoteEnd hb

/-- An index where a loop can stop: the end, or an ASCII byte. -/
theorem cutsAt_stop {s : String} {j : ℕ} (hj : j ≤ (utf8 s).length)
    (h : ∀ b, (utf8 s)[j]? = some b → b < 128) : CutsAt s j := by
  obtain hlt | rfl := Nat.lt_or_eq_of_le hj
  · exact (cutsAt_ascii (List.getElem?_eq_getElem hlt) (h _ (List.getElem?_eq_getElem hlt))).1
  · exact CutsAt.length s

/-- A loop that stops at ASCII bytes only. -/
theorem advance_stop {s : String} {p : UInt8 → Bool} {i : ℕ} (hi : i ≤ (utf8 s).length)
    (hp : ∀ b, p b = false → b < 128) :
    ∃ j, advance p (utf8 s) ((utf8 s).length + 1) i = some j ∧ i ≤ j ∧ j ≤ (utf8 s).length ∧
      CutsAt s j := by
  obtain ⟨j, hj, hij, hle, -, hstop⟩ := advance_spec p (utf8 s) hi
  exact ⟨j, hj, hij, hle, cutsAt_stop hle fun b hb => hp b (hstop b hb)⟩

/-- A loop that goes over ASCII bytes only. -/
theorem advance_skip {s : String} {p : UInt8 → Bool} {i : ℕ} (hcut : CutsAt s i)
    (hi : i ≤ (utf8 s).length) (hp : ∀ b, p b → b < 128) :
    ∃ j, advance p (utf8 s) ((utf8 s).length + 1) i = some j ∧ i ≤ j ∧ j ≤ (utf8 s).length ∧
      CutsAt s j := by
  obtain ⟨j, hj, hij, hle, hrun, -⟩ := advance_spec p (utf8 s) hi
  refine ⟨j, hj, hij, hle, ?_⟩
  obtain hlt | rfl := Nat.lt_or_eq_of_le hij
  · -- the byte before the stop was gone over
    obtain ⟨k, rfl⟩ : ∃ k, j = k + 1 := ⟨j - 1, by omega⟩
    have hk := List.getElem?_eq_getElem (show k < (utf8 s).length by omega)
    exact (cutsAt_ascii hk (hp _ (hrun k _ (by omega) (by omega) hk))).2
  · exact hcut

/-! One round. -/

theorem isParamSeparator_ascii {b : UInt8} (h : isParamSeparator b) : b < 128 := by
  simp only [isParamSeparator, Bool.or_eq_true, decide_eq_true_eq] at h
  obtain (rfl | rfl) | rfl := h <;> decide

theorem isKeyByte_ascii {b : UInt8} (h : isKeyByte b = false) : b < 128 := by
  simp only [isKeyByte, Bool.and_eq_false_iff, decide_eq_false_iff_not, not_not] at h
  obtain rfl | rfl := h <;> decide

theorem isBareByte_ascii {b : UInt8} (h : isBareByte b = false) : b < 128 := by
  simp only [isBareByte, decide_eq_false_iff_not, not_not] at h
  subst h
  decide

theorem challengeValue_total {s : String} {i : ℕ} (hcut : CutsAt s i) (hi : i ≤ (utf8 s).length) :
    ∃ v j, challengeValue (utf8 s) i = some (v, j) ∧ i ≤ j ∧ j ≤ (utf8 s).length ∧ CutsAt s j := by
  unfold challengeValue
  by_cases hq : (utf8 s)[i]? = some 34
  · have hlt := (List.getElem?_eq_some_iff.mp hq).1
    obtain ⟨j, hj, hij, hle, hend⟩ := closeQuote_spec (utf8 s) (show i + 1 ≤ _ from hlt)
    have hcutj : CutsAt s j := cutsAt_stop hle fun b hb => by rw [hend b hb]; decide
    obtain ⟨v, hv⟩ := Option.isSome_iff_exists.mp
      (slice_isSome (cutsAt_ascii hq (by decide)).2 hcutj hij)
    simp only [if_pos hq, hj, hv, Option.bind_eq_bind, Option.bind_some, Option.some.injEq,
      Prod.mk.injEq]
    by_cases hjlt : j < (utf8 s).length
    · have hquote := List.getElem?_eq_getElem hjlt
      rw [hend _ hquote] at hquote
      exact ⟨v, j + 1, ⟨rfl, if_pos hjlt⟩, by omega, hjlt, (cutsAt_ascii hquote (by decide)).2⟩
    · exact ⟨v, j, ⟨rfl, if_neg hjlt⟩, by omega, hle, hcutj⟩
  · obtain ⟨j, hj, hij, hle, hcutj⟩ := advance_stop hi fun b => isBareByte_ascii
    obtain ⟨v, hv⟩ := Option.isSome_iff_exists.mp (slice_isSome hcut hcutj hij)
    simp only [if_neg hq, hj, hv, Option.bind_eq_bind, Option.bind_some]
    exact ⟨_, j, rfl, hij, hle, hcutj⟩

/-- One round from a cut ends the scan or goes on at a later cut. -/
theorem challengeParams_round {s : String} {i : ℕ} (hcut : CutsAt s i) (hlt : i < (utf8 s).length)
    (out : List (String × String)) :
    (∀ fuel, challengeParams (utf8 s) (fuel + 1) i out = some out) ∨
    ∃ p n, i < n ∧ n ≤ (utf8 s).length ∧ CutsAt s n ∧ ∀ fuel,
      challengeParams (utf8 s) (fuel + 1) i out = challengeParams (utf8 s) fuel n (out ++ [p]) := by
  obtain ⟨k, hk, hik, hkle, hkcut⟩ := advance_skip hcut hlt.le fun b => isParamSeparator_ascii
  obtain ⟨j, hj, hkj, hjle, hjcut⟩ := advance_stop hkle fun b => isKeyByte_ascii
  by_cases heq : (utf8 s)[j]? = some 61
  · right
    obtain ⟨key, hkey⟩ := Option.isSome_iff_exists.mp (slice_isSome hkcut hjcut hkj)
    obtain ⟨v, n, hv, hjn, hnle, hncut⟩ :=
      challengeValue_total (cutsAt_ascii heq (by decide)).2 (List.getElem?_eq_some_iff.mp heq).1
    refine ⟨(toAsciiLowercase (trim key), v), n, by omega, hnle, hncut, fun fuel => ?_⟩
    rw [challengeParams]
    simp only [if_pos hlt, hk, hj, heq, hkey, hv, Option.bind_eq_bind, Option.bind_some, ne_eq,
      not_true_eq_false, if_false]
  · left
    intro fuel
    rw [challengeParams]
    simp only [if_pos hlt, hk, hj, Option.bind_eq_bind, Option.bind_some, ne_eq, heq,
      not_false_eq_true, if_true]

/-- Every round gets further, so that no more of them than bytes are needed. -/
theorem challengeParams_total {s : String} {i : ℕ} (hcut : CutsAt s i) (hi : i ≤ (utf8 s).length)
    (out : List (String × String)) :
    ∃ params, ∀ fuel, (utf8 s).length < fuel + i →
      challengeParams (utf8 s) fuel i out = some params := by
  induction hrest : (utf8 s).length - i using Nat.strong_induction_on generalizing i out with
  | _ rest ih =>
    have hfuel {fuel : ℕ} (h : (utf8 s).length < fuel + i) : ∃ n, fuel = n + 1 :=
      ⟨fuel - 1, by omega⟩
    obtain hlt | rfl := Nat.lt_or_eq_of_le hi
    · obtain hend | ⟨p, n, hin, hnle, hncut, hnext⟩ := challengeParams_round hcut hlt out
      · refine ⟨out, fun fuel h => ?_⟩
        obtain ⟨fuel, rfl⟩ := hfuel h
        exact hend fuel
      · obtain ⟨params, hparams⟩ := ih _ (by omega) hncut hnle (out ++ [p]) rfl
        refine ⟨params, fun fuel h => ?_⟩
        obtain ⟨fuel, rfl⟩ := hfuel h
        rw [hnext fuel, hparams fuel (by omega)]
    · refine ⟨out, fun fuel h => ?_⟩
      obtain ⟨fuel, rfl⟩ := hfuel h
      rw [challengeParams, if_neg (Nat.lt_irrefl _)]

/-- On any text the scanner ends after at most as many rounds as there are bytes; no index is
past the end, and every slice begins and ends between two characters. -/
theorem iterChallengeParams_total (input : String) :
    ∃ params, iterChallengeParams input = some params ∧ ∀ fuel, (utf8 input).length < fuel →
      challengeParams (utf8 input) fuel 0 [] = some params := by
  obtain ⟨params, hparams⟩ := challengeParams_total (.zero input) (Nat.zero_le _) []
  exact ⟨params, hparams _ (Nat.lt_succ_self _), hparams⟩

/-- A backslash in front of a character of two bytes, and no closing quote. -/
example : iterChallengeParams "a=\"\\é" = some [("a", "\\é")] := by decide

/-- No header makes the parser of challenges panic. -/
theorem parseBearerChallenge_total (header : String) : (parseBearerChallenge header).isSome := by
  rw [parseBearerChallenge]
  split
  · rfl
  · rename_i rest _
    obtain ⟨params, hparams⟩ :=
      challengeParams_total (.zero (trimStart (String.ofList rest))) (Nat.zero_le _) []
    have hscan : iterChallengeParams (trimStart (String.ofList rest)) = some params :=
      hparams _ (Nat.lt_succ_self _)
    rw [hscan]
    rfl

end Dockfoxprox
