import Mathlib.Data.Nat.Notation
import Mathlib.Tactic.Common

/-! `digest.rs` and the part of `eviction.rs` that reads a manifest body:
SHA-256 digests with their `sha256:<hex>` text, and the digests a manifest
references. SHA-256 itself and the JSON decoder belong to other crates and are
parameters wherever they are used. -/

namespace Dockfoxprox

abbrev Bytes := List UInt8

/-- The bytes of a `str`. -/
def utf8 (s : String) : Bytes := s.toUTF8.data.toList

/-- A digest, the 32 bytes of `Digest([u8; 32])`. -/
structure Digest where
  bytes : Bytes
  length_eq : bytes.length = 32
deriving DecidableEq

/-- The hexadecimal digit `(b as char).to_digit(16)`. -/
def toDigit16 (b : UInt8) : Option UInt8 :=
  if 48 ≤ b ∧ b ≤ 57 then some (b - 48)
  else if 97 ≤ b ∧ b ≤ 102 then some (b - 87)
  else if 65 ≤ b ∧ b ≤ 70 then some (b - 55)
  else none

/-- The loop of `Digest::from_str`: two hexadecimal digits a byte, high nibble first. -/
def hexBytes : Bytes → Option Bytes
  | [] => some []
  | [_] => none
  | hi :: lo :: rest => do
    let hi ← toDigit16 hi
    let lo ← toDigit16 lo
    let out ← hexBytes rest
    some ((hi <<< 4 ||| lo) :: out)

theorem hexBytes_length {hex out : Bytes} (h : hexBytes hex = some out) :
    hex.length = 2 * out.length := by
  fun_induction hexBytes hex generalizing out with
  | case1 => simp_all
  | case2 => simp_all
  | case3 hi lo rest ih =>
    simp only [Option.bind_eq_bind, Option.bind_eq_some_iff, Option.some.injEq] at h
    obtain ⟨a, -, b, -, o, ho, rfl⟩ := h
    have := ih ho
    simp only [List.length_cons]
    omega

/-- What `strip_prefix` leaves, on the bytes of a string. -/
def stripPrefix (pre s : Bytes) : Option Bytes :=
  if pre.isPrefixOf s then some (s.drop pre.length) else none

/-- The parser `Digest::from_str`. -/
def Digest.fromStr (s : String) : Option Digest :=
  match stripPrefix (utf8 "sha256:") (utf8 s) with
  | none => none
  | some hex =>
    if h : hex.length ≠ 64 then none
    else match ho : hexBytes hex with
      | none => none
      | some out => some ⟨out, by have := hexBytes_length ho; omega⟩

/-- The loop of `Digest::from_str` over its indices: the outer `none` is an index past the end of
`bytes` or `out` (a panic), the inner one a character that is no digit. -/
def hexLoop (bytes : Bytes) : List ℕ → Bytes → Option (Option Bytes)
  | [], out => some (some out)
  | i :: rest, out => do
    let hi ← bytes[2 * i]?
    match toDigit16 hi with
    | none => some none
    | some hi =>
      let lo ← bytes[2 * i + 1]?
      match toDigit16 lo with
      | none => some none
      | some lo => if i < out.length then hexLoop bytes rest (out.set i (hi <<< 4 ||| lo)) else none

/-- `Digest::from_str` with `hexLoop`; the outer `none` is a panic. -/
def fromStrIndexed (s : String) : Option (Option Bytes) :=
  match stripPrefix (utf8 "sha256:") (utf8 s) with
  | none => some none
  | some hex =>
    if hex.length ≠ 64 then some none
    else hexLoop hex (List.range 32) (List.replicate 32 0)

/-- One byte as `{:02x}`. -/
def hex2 (b : UInt8) : List Char := [Nat.digitChar (b.toNat / 16), Nat.digitChar (b.toNat % 16)]

/-- The text `Display for Digest` writes. -/
def Digest.toText (d : Digest) : String := "sha256:" ++ String.ofList (d.bytes.flatMap hex2)

/-- A decoded JSON value (`serde_json::Value`). -/
inductive Json where
  | null
  | bool (b : Bool)
  | number
  | string (s : String)
  | array (items : List Json)
  | object (members : List (String × Json))

/-- The string of a value, `Value::as_str`. -/
def Json.asStr : Json → Option String
  | .string s => some s
  | _ => none

mutual
/-- Every string under a key `digest` that parses as a digest, in document order. -/
def walk : Json → List Digest
  | .object m => walkMembers m
  | .array a => walkItems a
  | _ => []

def walkMembers : List (String × Json) → List Digest
  | [] => []
  | (k, v) :: rest =>
    (if k = "digest" then (v.asStr.bind Digest.fromStr).toList else []) ++ walk v ++
      walkMembers rest

def walkItems : List Json → List Digest
  | [] => []
  | v :: rest => walk v ++ walkItems rest
end

/-- The digests `referenced_digests` collects, over the decoder
`serde_json::from_slice`. A body that is not JSON references nothing. -/
def referencedDigests (fromSlice : Bytes → Option Json) (content : Bytes) : List Digest :=
  match fromSlice content with
  | none => []
  | some v => walk v

end Dockfoxprox
