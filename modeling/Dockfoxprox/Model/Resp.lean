import Dockfoxprox.Lib.Reader
import Dockfoxprox.Model.Digest
import Mathlib.Algebra.Group.Nat.Defs
import Mathlib.Data.Int.Notation

/-! The wire format of `redis.rs`: the reader of commands and the writers of replies.
The input of a connection is the list of the bytes the client sends before it closes, and
the buffers a length asks for can be allocated. -/

namespace Dockfoxprox

inductive ErrorKind where
  | invalidData
  | unexpectedEof
deriving DecidableEq

/-- An `io::Error`. -/
structure IoError where
  kind : ErrorKind
  msg : String
deriving DecidableEq

/-- The characters of valid UTF-8, `std::str::from_utf8`. -/
def fromUtf8 (b : Bytes) : Option (List Char) := b.toByteArray.utf8Decode?.map Array.toList

/-- Unicode's `White_Space`. -/
def isWhitespace (c : Char) : Bool :=
  let n := c.toNat
  (9 ≤ n && n ≤ 13) || n == 0x20 || n == 0x85 || n == 0xa0 || n == 0x1680 ||
    (0x2000 ≤ n && n ≤ 0x200a) || n == 0x2028 || n == 0x2029 || n == 0x202f || n == 0x205f ||
    n == 0x3000

def splitWhitespace (s : List Char) : List (List Char) :=
  (s.splitOnP isWhitespace).filter (· ≠ [])

/-- One more decimal digit, unless the value leaves the 64 bits of a `usize`. -/
def pushDigit (acc : ℕ) (c : Char) : Option ℕ :=
  if c.isDigit ∧ acc * 10 + (c.toNat - 48) < 2 ^ 64 then some (acc * 10 + (c.toNat - 48)) else none

/-- The parser `usize::from_str`: an optional plus sign and at least one digit. -/
def usizeFromStr (s : List Char) : Option ℕ :=
  let digits := if s.head? = some '+' then s.tail else s
  if digits = [] then none else digits.foldlM pushDigit 0

/-- The integer of a length prefix (`$N` or `*N`). -/
def parseLen (b : Bytes) : Except IoError ℕ :=
  match (fromUtf8 b).bind usizeFromStr with
  | some n => .ok n
  | none => .error ⟨.invalidData, "bad length prefix"⟩

open Reader

/-- One line that ends in CRLF, without it; nothing at a clean end of the input. -/
def readHeaderLine : Reader UInt8 IoError (Option Bytes) := do
  let buf ← readUntil 10
  if buf = [] then pure none
  else if buf.getLast? ≠ some 10 then throw ⟨.unexpectedEof, "no newline"⟩
  else if buf.length < 2 ∨ buf[buf.length - 2]? ≠ some 13 then throw ⟨.invalidData, "bad CRLF"⟩
  else pure (some (buf.take (buf.length - 2)))

/-- The error of a `read_exact` that meets the end of the input. -/
def earlyEof : IoError := ⟨.unexpectedEof, "early eof"⟩

/-- The bytes of an argument whose header announces `len`. -/
def readBulkBody (len : Bytes) : Reader UInt8 IoError Bytes := do
  let len ← liftM (parseLen len)
  let buf ← readExact earlyEof len
  let crlf ← readExact earlyEof 2
  if crlf ≠ [13, 10] then throw ⟨.invalidData, "missing CRLF after bulk"⟩
  else pure buf

/-- One turn of the loop over the arguments of an array. -/
def readBulk : Reader UInt8 IoError Bytes := do
  match ← readHeaderLine with
  | none => throw ⟨.unexpectedEof, "eof inside array"⟩
  | some h =>
    if h.head? ≠ some 36 then throw ⟨.invalidData, "expected bulk string"⟩
    else readBulkBody h.tail

/-- One command: an array of bulk strings or an inline command. -/
def readCommand : Reader UInt8 IoError (Option (List Bytes)) := do
  match ← readHeaderLine with
  | none => pure none
  | some [] => pure (some [])
  | some (b :: line) =>
    if b ≠ 42 then
      match fromUtf8 (b :: line) with
      | none => throw ⟨.invalidData, "bad inline command"⟩
      | some s => pure (some ((splitWhitespace s).map fun p => utf8 (String.ofList p)))
    else
      let n ← liftM (parseLen line)
      let args ← times readBulk n
      pure (some args)

def crlf : Bytes := [13, 10]

def writeSimple (s : Bytes) : Bytes := 43 :: s ++ crlf

def writeError (s : Bytes) : Bytes := 45 :: s ++ crlf

def writeInteger (n : ℤ) : Bytes := 58 :: utf8 (toString n) ++ crlf

def writeBulk (b : Bytes) : Bytes := 36 :: utf8 (Nat.repr b.length) ++ crlf ++ b ++ crlf

/-- The nil bulk string, distinct from an empty one. -/
def writeNil : Bytes := utf8 "$-1\r\n"

/-- A command as a client renders it. -/
def renderCommand (args : List Bytes) : Bytes :=
  42 :: utf8 (Nat.repr args.length) ++ crlf ++ args.flatMap writeBulk

end Dockfoxprox
