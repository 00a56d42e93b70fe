import Dockfoxprox.Proofs.Resp
import Dockfoxprox.Model.Challenge

/-! Digests as text: a digest that is written out parses back, and what parses is the prefix and
64 hexadecimal digits of either case. -/

namespace Dockfoxprox

theorem digitChar_toDigit16 : ∀ n : Fin 16,
    (String.utf8EncodeChar (Nat.digitChar n)).map toDigit16 = [some (UInt8.ofNat n)] := by
  decide +kernel

theorem nibbles : ∀ n : Fin 256,
    UInt8.ofNat (n / 16) <<< 4 ||| UInt8.ofNat (n % 16) = UInt8.ofNat n := by
  decide +kernel

/-- Two hexadecimal digits are read back as the byte they were written for. -/
theorem hexBytes_hex2 (b : UInt8) (rest : Bytes) :
    hexBytes ((hex2 b).flatMap String.utf8EncodeChar ++ rest) = (hexBytes rest).map (b :: ·) := by
  have hlt : b.toNat < 256 := b.toNat_lt
  obtain ⟨hi, he, hhi⟩ := List.map_eq_singleton_iff.mp
    (digitChar_toDigit16 ⟨b.toNat / 16, by omega⟩)
  obtain ⟨lo, hl, hlo⟩ := List.map_eq_singleton_iff.mp
    (digitChar_toDigit16 ⟨b.toNat % 16, by omega⟩)
  have hb : UInt8.ofNat (b.toNat / 16) <<< 4 ||| UInt8.ofNat (b.toNat % 16) = b := by
    have h := nibbles ⟨b.toNat, hlt⟩
    rwa [UInt8.ofNat_toNat] at h
  simp only [hex2, List.flatMap_cons, List.flatMap_nil, he, hl, List.append_nil, List.cons_append,
    List.nil_append, hexBytes, hhi, hlo, Option.bind_eq_bind, Option.bind_some, hb]
  cases hexBytes rest <;> rfl

theorem hexBytes_flatMap (bs : Bytes) :
    hexBytes ((bs.flatMap hex2).flatMap String.utf8EncodeChar) = some bs := by
  induction bs with
  | nil => rfl
  | cons b bs ih =>
    rw [List.flatMap_cons, List.flatMap_append, hexBytes_hex2, ih, Option.map_some]

theorem Digest.bytes_inj {d d' : Digest} (h : d.bytes = d'.bytes) : d = d' := by
  cases d
  cases d'
  congr

/-- What the parser returns, without the length it carries. -/
theorem Digest.fromStr_bytes (s : String) :
    (Digest.fromStr s).map Digest.bytes = (stripPrefix (utf8 "sha256:") (utf8 s)).bind fun hex =>
      if hex.length = 64 then hexBytes hex else none := by
  unfold Digest.fromStr
  cases stripPrefix (utf8 "sha256:") (utf8 s) with
  | none => rfl
  | some hex =>
    simp only [Option.bind_some]
    by_cases hlen : hex.length = 64
    · rw [dif_neg (not_not.mpr hlen), if_pos hlen]
      split
      · rename_i h
        rw [h]
        rfl
      · rename_i out h
        exact h.symm
    · rw [dif_pos hlen, if_neg hlen]
      rfl

theorem stripPrefix_eq_some {pre s rest : Bytes} :
    stripPrefix pre s = some rest ↔ s = pre ++ rest := by
  unfold stripPrefix
  constructor
  · intro h
    split at h
    · rename_i hpre
      obtain ⟨tail, rfl⟩ := List.isPrefixOf_iff_prefix.mp hpre
      rw [List.drop_left, Option.some.injEq] at h
      rw [h]
    · cases h
  · rintro rfl
    rw [if_pos (by simp), List.drop_left]

theorem Digest.fromStr_bytes_iff {s : String} {d : Digest} :
    Digest.fromStr s = some d ↔
      ∃ hex, utf8 s = utf8 "sha256:" ++ hex ∧ hexBytes hex = some d.bytes := by
  have hbytes : Digest.fromStr s = some d ↔ (Digest.fromStr s).map Digest.bytes = some d.bytes := by
    constructor
    · intro h
      rw [h]
      rfl
    · intro h
      obtain ⟨d', hd', heq⟩ := Option.map_eq_some_iff.mp h
      rw [hd', Digest.bytes_inj heq]
  rw [hbytes, Digest.fromStr_bytes, Option.bind_eq_some_iff]
  constructor
  · rintro ⟨hex, hstrip, hout⟩
    split at hout
    · exact ⟨hex, stripPrefix_eq_some.mp hstrip, hout⟩
    · cases hout
  · rintro ⟨hex, hs, hout⟩
    have hlen := hexBytes_length hout
    rw [d.length_eq] at hlen
    exact ⟨hex, stripPrefix_eq_some.mpr hs, by rw [if_pos hlen, hout]⟩

theorem Digest.fromStr_toText (d : Digest) : Digest.fromStr d.toText = some d := by
  refine Digest.fromStr_bytes_iff.mpr
    ⟨(d.bytes.flatMap hex2).flatMap String.utf8EncodeChar, ?_, hexBytes_flatMap d.bytes⟩
  rw [← utf8_ofList]
  simp [utf8, Digest.toText]

theorem Digest.toText_inj {d d' : Digest} (h : d.toText = d'.toText) : d = d' := by
  have hparse := Digest.fromStr_toText d
  rw [h, Digest.fromStr_toText] at hparse
  exact (Option.some.inj hparse).symm

/-! The loop over indices. -/

theorem hexLoop_eq (hex : Bytes) {k n : ℕ} {done : Bytes} (hk : done.length = k)
    (hlen : hex.length = 2 * (k + n)) :
    hexLoop hex (List.range' k n) (done ++ List.replicate n 0) =
      some ((hexBytes (hex.drop (2 * k))).map (done ++ ·)) := by
  induction n generalizing k done with
  | zero =>
    rw [List.drop_eq_nil_of_le (by omega)]
    rfl
  | succ n ih =>
    have hhi : 2 * k < hex.length := by omega
    have hlo : 2 * k + 1 < hex.length := by omega
    have hset (b : UInt8) : (done ++ List.replicate (n + 1) 0).set k b =
        done ++ [b] ++ List.replicate n 0 := by
      rw [← hk, List.set_append_right _ _ (Nat.le_refl _), Nat.sub_self, List.append_assoc]
      rfl
    have hroom : k < (done ++ List.replicate (n + 1) (0 : UInt8)).length := by
      rw [List.length_append, List.length_replicate]
      omega
    rw [List.range'_succ, hexLoop, List.getElem?_eq_getElem hhi, List.getElem?_eq_getElem hlo,
      List.drop_eq_getElem_cons hhi, List.drop_eq_getElem_cons hlo, hexBytes]
    simp only [Option.bind_eq_bind, Option.bind_some, if_pos hroom, hset]
    cases toDigit16 hex[2 * k] with
    | none => rfl
    | some hi =>
      cases toDigit16 hex[2 * k + 1] with
      | none => rfl
      | some lo =>
        have hrest := @ih (k + 1) (done ++ [hi <<< 4 ||| lo]) (by simp [hk]) (by omega)
        simp only [Option.bind_some, hrest]
        rw [Nat.mul_add]
        cases hexBytes (hex.drop (2 * k + 1 + 1)) with
        | none => rfl
        | some out => simp

theorem fromStrIndexed_eq (s : String) :
    fromStrIndexed s = some ((Digest.fromStr s).map Digest.bytes) := by
  rw [Digest.fromStr_bytes, fromStrIndexed]
  cases stripPrefix (utf8 "sha256:") (utf8 s) with
  | none => rfl
  | some hex =>
    simp only [Option.bind_some]
    by_cases hlen : hex.length = 64
    · have hloop := @hexLoop_eq hex 0 32 [] rfl hlen
      simp only [List.nil_append, Nat.mul_zero, List.drop_zero, Option.map_id'] at hloop
      rw [if_neg (not_not.mpr hlen), if_pos hlen, List.range_eq_range', hloop]
    · rw [if_pos hlen, if_neg hlen]

/-! The texts the parser reads. -/

/-- The hexadecimal digits of either case, `is_ascii_hexdigit`. -/
def isHexDigit (c : Char) : Bool :=
  ('0' ≤ c && c ≤ '9') || ('a' ≤ c && c ≤ 'f') || ('A' ≤ c && c ≤ 'F')

theorem hexDigit_toNat_lt {c : Char} (h : isHexDigit c) : c.toNat < 128 := by
  simp only [isHexDigit, Bool.or_eq_true, Bool.and_eq_true, decide_eq_true_eq, Char.le_def,
    UInt32.le_iff_toNat_le] at h
  have hv : c.toNat = c.val.toNat := rfl
  rw [hv]
  obtain (h | h) | h := h
  · exact Nat.lt_of_le_of_lt h.2 (by decide)
  · exact Nat.lt_of_le_of_lt h.2 (by decide)
  · exact Nat.lt_of_le_of_lt h.2 (by decide)

theorem hexDigits_toDigit16 : ∀ n : Fin 128, isHexDigit (Char.ofNat n) →
    ∃ m : Fin 16, toDigit16 (UInt8.ofNat n) = some (UInt8.ofNat m) ∧
      Nat.digitChar m = (Char.ofNat n).toLower := by
  decide +kernel

theorem toDigit16_hexDigits : ∀ n : Fin 256, (toDigit16 (UInt8.ofNat n)).isSome →
    isHexDigit (Char.ofNat n) ∧ String.utf8EncodeChar (Char.ofNat n) = [UInt8.ofNat n] := by
  decide +kernel

theorem hex2_nibbles : ∀ hi lo : Fin 16,
    hex2 (UInt8.ofNat hi <<< 4 ||| UInt8.ofNat lo) = [Nat.digitChar hi, Nat.digitChar lo] := by
  decide +kernel

theorem exists_nibble {c : Char} (h : isHexDigit c) : ∃ b, ∃ m : Fin 16,
    String.utf8EncodeChar c = [b] ∧ toDigit16 b = some (UInt8.ofNat m) ∧
      Nat.digitChar m = c.toLower := by
  have hlt := hexDigit_toNat_lt h
  have hdigit := hexDigits_toDigit16 ⟨c.toNat, hlt⟩
  rw [Char.ofNat_toNat] at hdigit
  obtain ⟨m, hm, hlower⟩ := hdigit h
  exact ⟨_, m, utf8EncodeChar_ascii hlt, hm, hlower⟩

theorem isHexDigit_of_toDigit16 {b n : UInt8} (h : toDigit16 b = some n) :
    ∃ c, isHexDigit c ∧ String.utf8EncodeChar c = [b] := by
  have hdigit := toDigit16_hexDigits ⟨b.toNat, b.toNat_lt⟩
  rw [UInt8.ofNat_toNat, h] at hdigit
  exact ⟨_, hdigit rfl⟩

/-- Every digit is one byte. -/
theorem length_digits {cs : List Char} (h : ∀ c ∈ cs, isHexDigit c) :
    (cs.flatMap String.utf8EncodeChar).length = cs.length := by
  induction cs with
  | nil => rfl
  | cons c cs ih =>
    have hc := utf8EncodeChar_ascii (hexDigit_toNat_lt (h c List.mem_cons_self))
    have hrest := ih fun d hd => h d (List.mem_cons_of_mem c hd)
    rw [List.flatMap_cons, hc, List.length_append, hrest, List.length_singleton, Nat.add_comm]
    rfl

/-- An even number of digits is read, and written out again in lower case. -/
theorem hexBytes_of_digits {cs : List Char} {n : ℕ} (hlen : cs.length = 2 * n)
    (hcs : ∀ c ∈ cs, isHexDigit c) :
    ∃ out, hexBytes (cs.flatMap String.utf8EncodeChar) = some out ∧
      out.flatMap hex2 = cs.map Char.toLower := by
  induction n generalizing cs with
  | zero =>
    obtain rfl := List.eq_nil_of_length_eq_zero hlen
    exact ⟨[], rfl, rfl⟩
  | succ n ih =>
    obtain ⟨c, cs, rfl⟩ := List.exists_cons_of_length_eq_add_one hlen
    obtain ⟨d, cs, rfl⟩ := List.exists_cons_of_length_eq_add_one (Nat.succ.inj hlen)
    simp only [List.length_cons] at hlen
    obtain ⟨out, hout, htext⟩ := @ih cs (by omega) fun e he =>
      hcs e (List.mem_cons_of_mem c (List.mem_cons_of_mem d he))
    obtain ⟨b, hi, hb, hhi, hc⟩ := exists_nibble (hcs c List.mem_cons_self)
    obtain ⟨b', lo, hb', hlo, hd⟩ := exists_nibble
      (hcs d (List.mem_cons_of_mem c List.mem_cons_self))
    refine ⟨(UInt8.ofNat hi <<< 4 ||| UInt8.ofNat lo) :: out, ?_, ?_⟩
    · simp only [List.flatMap_cons, hb, hb', List.cons_append, List.nil_append, hexBytes, hhi,
        hlo, hout, Option.bind_eq_bind, Option.bind_some]
    · rw [List.flatMap_cons, hex2_nibbles, htext, hc, hd]
      rfl

theorem digits_of_hexBytes {hex out : Bytes} (h : hexBytes hex = some out) :
    ∃ cs : List Char, (∀ c ∈ cs, isHexDigit c) ∧ cs.flatMap String.utf8EncodeChar = hex := by
  fun_induction hexBytes hex generalizing out with
  | case1 => exact ⟨[], by simp, rfl⟩
  | case2 => cases h
  | case3 hi lo rest ih =>
    simp only [Option.bind_eq_bind, Option.bind_eq_some_iff] at h
    obtain ⟨a, ha, b, hb, o, ho, -⟩ := h
    obtain ⟨c, hc, hcb⟩ := isHexDigit_of_toDigit16 ha
    obtain ⟨d, hd, hdb⟩ := isHexDigit_of_toDigit16 hb
    obtain ⟨cs, hcs, rfl⟩ := ih ho
    refine ⟨c :: d :: cs, ?_, ?_⟩
    · simp only [List.mem_cons]
      rintro e (rfl | rfl | he)
      · exact hc
      · exact hd
      · exact hcs e he
    · simp only [List.flatMap_cons, hcb, hdb, List.cons_append, List.nil_append]

/-- The digits of a digest. -/
structure IsHex64 (hex : String) : Prop where
  length : hex.toList.length = 64
  digits : ∀ c ∈ hex.toList, isHexDigit c

theorem Digest.fromStr_digits {hex : String} (h : IsHex64 hex) :
    ∃ d, Digest.fromStr ("sha256:" ++ hex) = some d ∧
      d.toText = "sha256:" ++ toAsciiLowercase hex := by
  obtain ⟨out, hout, hlower⟩ := @hexBytes_of_digits hex.toList 32 h.length h.digits
  have hlen : out.length = 32 := by
    have hbytes := hexBytes_length hout
    rw [length_digits h.digits, h.length] at hbytes
    omega
  rw [← utf8_eq] at hout
  refine ⟨⟨out, hlen⟩, Digest.fromStr_bytes_iff.mpr ⟨utf8 hex, utf8_append _ _, hout⟩, ?_⟩
  rw [Digest.toText, hlower]
  rfl

theorem Digest.digits_of_fromStr {s : String} {d : Digest} (h : Digest.fromStr s = some d) :
    ∃ hex, IsHex64 hex ∧ s = "sha256:" ++ hex := by
  obtain ⟨hex, hs, hout⟩ := Digest.fromStr_bytes_iff.mp h
  obtain ⟨cs, hcs, rfl⟩ := digits_of_hexBytes hout
  have hbytes := hexBytes_length hout
  rw [length_digits hcs, d.length_eq] at hbytes
  refine ⟨String.ofList cs, ⟨by rw [String.toList_ofList, hbytes], by simpa using hcs⟩, ?_⟩
  rw [← utf8_ofList, ← utf8_append] at hs
  exact utf8_inj hs

/-- What a text is read as is shown as the text in lower case. -/
theorem Digest.fromStr_iff {s : String} {d : Digest} :
    Digest.fromStr s = some d ↔ ∃ hex, IsHex64 hex ∧ s = "sha256:" ++ hex ∧
      d.toText = "sha256:" ++ toAsciiLowercase hex := by
  constructor
  · intro h
    obtain ⟨hex, hhex, rfl⟩ := Digest.digits_of_fromStr h
    obtain ⟨d', hd', htext⟩ := Digest.fromStr_digits hhex
    obtain rfl := Option.some.inj (h.symm.trans hd')
    exact ⟨hex, hhex, rfl, htext⟩
  · rintro ⟨hex, hhex, rfl, htext⟩
    obtain ⟨d', hd', htext'⟩ := Digest.fromStr_digits hhex
    rw [hd', Digest.toText_inj (htext'.trans htext.symm)]

theorem Digest.fromStr_isSome_iff {s : String} :
    (Digest.fromStr s).isSome ↔ ∃ hex, IsHex64 hex ∧ s = "sha256:" ++ hex := by
  rw [Option.isSome_iff_exists]
  constructor
  · rintro ⟨d, hd⟩
    exact Digest.digits_of_fromStr hd
  · rintro ⟨hex, hhex, rfl⟩
    obtain ⟨d, hd, -⟩ := Digest.fromStr_digits hhex
    exact ⟨d, hd⟩

/-- Two texts of one digest differ in the case of their digits alone. -/
theorem Digest.fromStr_same_iff {s t : String} :
    (∃ d, Digest.fromStr s = some d ∧ Digest.fromStr t = some d) ↔
      ∃ hex hex', IsHex64 hex ∧ IsHex64 hex' ∧ s = "sha256:" ++ hex ∧ t = "sha256:" ++ hex' ∧
        toAsciiLowercase hex = toAsciiLowercase hex' := by
  constructor
  · rintro ⟨d, hs, ht⟩
    obtain ⟨hex, hhex, rfl, htext⟩ := Digest.fromStr_iff.mp hs
    obtain ⟨hex', hhex', rfl, htext'⟩ := Digest.fromStr_iff.mp ht
    rw [htext, String.append_right_inj] at htext'
    exact ⟨hex, hex', hhex, hhex', rfl, rfl, htext'⟩
  · rintro ⟨hex, hex', hhex, hhex', rfl, rfl, hlower⟩
    obtain ⟨d, hd, htext⟩ := Digest.fromStr_digits hhex
    exact ⟨d, hd, Digest.fromStr_iff.mpr ⟨hex', hhex', rfl, by rw [htext, hlower]⟩⟩

/-- A digest is read back from its text; exactly the prefix with 64 hexadecimal digits of either
case behind it is read, and shown in lower case; texts of one digest differ in the case of their
digits alone; and no index of the parser's loop is past the end. -/
theorem digest_text_codec :
    (∀ d : Digest, Digest.fromStr d.toText = some d) ∧
    (∀ s, (Digest.fromStr s).isSome ↔ ∃ hex, IsHex64 hex ∧ s = "sha256:" ++ hex) ∧
    (∀ s d, Digest.fromStr s = some d ↔ ∃ hex, IsHex64 hex ∧ s = "sha256:" ++ hex ∧
      d.toText = "sha256:" ++ toAsciiLowercase hex) ∧
    (∀ s t, (∃ d, Digest.fromStr s = some d ∧ Digest.fromStr t = some d) ↔
      ∃ hex hex', IsHex64 hex ∧ IsHex64 hex' ∧ s = "sha256:" ++ hex ∧ t = "sha256:" ++ hex' ∧
        toAsciiLowercase hex = toAsciiLowercase hex') ∧
    (∀ s, fromStrIndexed s = some ((Digest.fromStr s).map Digest.bytes)) :=
  ⟨Digest.fromStr_toText, fun _ => Digest.fromStr_isSome_iff, fun _ _ => Digest.fromStr_iff,
    fun _ _ => Digest.fromStr_same_iff, fromStrIndexed_eq⟩

end Dockfoxprox
