import Dockfoxprox.Model.Resp

/-! The reader of commands with what can go wrong in it: the allocations a length asks for, and
indexing and slicing. -/

namespace Dockfoxprox

/-- `isize::MAX`, the most bytes an allocation may have. -/
def isizeMax : ℕ := 2 ^ 63 - 1

/-- How a reader stops without a result. An allocation of more than `isizeMax` bytes panics; one
that the allocator cannot serve ends the process, which no reader survives either. -/
inductive Halt where
  | io (e : IoError)
  | panicked
deriving DecidableEq

namespace Alloc

open Reader

/-- A `Reader` over the bytes of a client that may panic. -/
abbrev Panicking := Reader UInt8 Halt

def fail {α : Type} (e : IoError) : Panicking α := throw (.io e)

-- The most bytes that one allocation can get.
variable (allocatable : ℕ)

/-- `Vec::with_capacity(n)` for elements of `size` bytes. -/
def withCapacity (size n : ℕ) : Panicking Unit :=
  if allocatable < size * n then throw .panicked else pure ()

/-- The index `b[i]`. -/
def index (b : Bytes) (i : ℕ) : Panicking UInt8 :=
  match b[i]? with
  | some x => pure x
  | none => throw .panicked

/-- The slice `&b[i..]`. -/
def sliceFrom (b : Bytes) (i : ℕ) : Panicking Bytes :=
  if i ≤ b.length then pure (b.drop i) else throw .panicked

/-- The size of `bytes::Bytes`. -/
def sizeOfBytes : ℕ := 32

def parseLen (b : Bytes) : Panicking ℕ :=
  match Dockfoxprox.parseLen b with
  | .ok n => pure n
  | .error e => fail e

def readHeaderLine : Panicking (Option Bytes) := do
  let buf ← readUntil 10
  if buf = [] then pure none
  else if buf.getLast? ≠ some 10 then fail ⟨.unexpectedEof, "no newline"⟩
  else if buf.length < 2 then fail ⟨.invalidData, "bad CRLF"⟩
  else
    let cr ← index buf (buf.length - 2)
    if cr ≠ 13 then fail ⟨.invalidData, "bad CRLF"⟩
    else pure (some (buf.take (buf.length - 2)))

/-- The bytes of an argument whose header announces `len`. -/
def readBulkBody (len : Bytes) : Panicking Bytes := do
  let len ← parseLen len
  withCapacity allocatable 1 len
  let buf ← readExact (.io earlyEof) len
  let crlf ← readExact (.io earlyEof) 2
  if crlf ≠ [13, 10] then fail ⟨.invalidData, "missing CRLF after bulk"⟩
  else pure buf

/-- One turn of the loop over the arguments of an array. -/
def readBulk : Panicking Bytes := do
  match ← readHeaderLine with
  | none => fail ⟨.unexpectedEof, "eof inside array"⟩
  | some h =>
    if h.head? ≠ some 36 then fail ⟨.invalidData, "expected bulk string"⟩
    else
      let len ← sliceFrom h 1
      readBulkBody allocatable len

def readCommand : Panicking (Option (List Bytes)) := do
  match ← readHeaderLine with
  | none => pure none
  | some line =>
    if line = [] then pure (some [])
    else
      let b ← index line 0
      if b ≠ 42 then
        match fromUtf8 line with
        | none => fail ⟨.invalidData, "bad inline command"⟩
        | some s => pure (some ((splitWhitespace s).map fun p => utf8 (String.ofList p)))
      else
        let len ← sliceFrom line 1
        let n ← parseLen len
        withCapacity allocatable sizeOfBytes n
        let args ← times (readBulk allocatable) n
        pure (some args)

end Alloc
end Dockfoxprox
