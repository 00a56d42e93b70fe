import Dockfoxprox.Model.Resp
import Mathlib.Data.List.DropRight

/-! The `WWW-Authenticate` challenges of `docker.rs`. The scanner walks the bytes of a string and
takes slices of it; a result `none` stands for a panic or for a loop that does not end. -/

namespace Dockfoxprox

/-- The methods `trim` and `trim_start` of a `str`. -/
def trimStart (s : String) : String := String.ofList (s.toList.dropWhile isWhitespace)

def trim (s : String) : String :=
  String.ofList ((s.toList.dropWhile isWhitespace).rdropWhile isWhitespace)

def toAsciiLowercase (s : String) : String := String.ofList (s.toList.map Char.toLower)

/-- Whether `str::is_char_boundary` holds: no byte that continues a character comes next. -/
def isCharBoundary (bytes : Bytes) (i : ℕ) : Bool :=
  i = 0 || i = bytes.length || bytes[i]?.any fun b => b < 128 || 192 ≤ b

/-- The slice `input[a..b]` of a `str`. -/
def slice (bytes : Bytes) (a b : ℕ) : Option String :=
  if a ≤ b ∧ isCharBoundary bytes a ∧ isCharBoundary bytes b then
    (fromUtf8 ((bytes.drop a).take (b - a))).map String.ofList
  else none

/-- The loop `while i < bytes.len() && p(bytes[i]) { i += 1; }`. -/
def advance (p : UInt8 → Bool) (bytes : Bytes) : ℕ → ℕ → Option ℕ
  | 0, _ => none
  | fuel + 1, i =>
    if i < bytes.length then do
      let b ← bytes[i]?
      if p b then advance p bytes fuel (i + 1) else some i
    else some i

/-- The loop to the closing quote; a backslash takes the next byte with it. -/
def closeQuote (bytes : Bytes) : ℕ → ℕ → Option ℕ
  | 0, _ => none
  | fuel + 1, i =>
    if i < bytes.length then do
      let b ← bytes[i]?
      if b ≠ 34 then
        if b = 92 ∧ i + 1 < bytes.length then closeQuote bytes fuel (i + 2)
        else closeQuote bytes fuel (i + 1)
      else some i
    else some i

/-- A space, a tab or a comma. -/
def isParamSeparator (b : UInt8) : Bool := b = 32 || b = 9 || b = 44

/-- A byte of a key: neither `=` nor a comma. -/
def isKeyByte (b : UInt8) : Bool := b ≠ 61 && b ≠ 44

def isBareByte (b : UInt8) : Bool := b ≠ 44

/-- The value that begins at `i`, and the index behind it. -/
def challengeValue (bytes : Bytes) (i : ℕ) : Option (String × ℕ) :=
  if bytes[i]? = some 34 then do
    let start := i + 1
    let i ← closeQuote bytes (bytes.length + 1) start
    let v ← slice bytes start i
    some (v, if i < bytes.length then i + 1 else i)
  else do
    let start := i
    let i ← advance isBareByte bytes (bytes.length + 1) start
    let v ← slice bytes start i
    some (trim v, i)

def challengeParams (bytes : Bytes) : ℕ → ℕ → List (String × String) →
    Option (List (String × String))
  | 0, _, _ => none
  | fuel + 1, i, out =>
    if i < bytes.length then do
      let keyStart ← advance isParamSeparator bytes (bytes.length + 1) i
      let i ← advance isKeyByte bytes (bytes.length + 1) keyStart
      if bytes[i]? ≠ some 61 then some out
      else
        let key ← slice bytes keyStart i
        let (v, i) ← challengeValue bytes (i + 1)
        challengeParams bytes fuel i (out ++ [(toAsciiLowercase (trim key), v)])
    else some out

/-- The parameters of a challenge in order, with lowercased keys and raw values. -/
def iterChallengeParams (input : String) : Option (List (String × String)) :=
  challengeParams (utf8 input) ((utf8 input).length + 1) 0 []

structure BearerChallenge where
  realm : String
  service : Option String
  scope : Option String
deriving DecidableEq

/-- The locals of `parse_bearer_challenge` while it goes through the parameters. -/
structure ChallengeFields where
  realm : Option String := none
  service : Option String := none
  scope : Option String := none

def ChallengeFields.set (f : ChallengeFields) (p : String × String) : ChallengeFields :=
  if p.1 = "realm" then { f with realm := some p.2 }
  else if p.1 = "service" then { f with service := some p.2 }
  else if p.1 = "scope" then { f with scope := some p.2 }
  else f

/-- Parse a header `Bearer realm="…",…`; the inner `none` stands for another scheme or no realm. -/
def parseBearerChallenge (header : String) : Option (Option BearerChallenge) :=
  let rest := (trim header).toList
  match (rest.dropPrefix? "Bearer".toList).or (rest.dropPrefix? "bearer".toList) with
  | none => some none
  | some rest => do
    let params ← iterChallengeParams (trimStart (String.ofList rest))
    let fields := params.foldl ChallengeFields.set {}
    some (fields.realm.map fun realm => ⟨realm, fields.service, fields.scope⟩)

end Dockfoxprox
