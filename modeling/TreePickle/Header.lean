import TreePickle.Cursor.Number

/-!
# File headers

A file begins with four bytes that no other format uses, the version of the format, the name and
version of the tool that wrote it, and an identifier of 16 bytes that ties it to the files made
together with it. The version decides whether the rest can be understood at all, so it is compared
before anything behind it is looked at.

## Versions

A file carries the version of the format that it was written in, and a reader carries the newest
version that it understands. Stable versions are ordered within a major version: a reader accepts
every older stable minor. Experimental versions are snapshots without any promise, so a file of
one is read by exactly that version; and since an experimental reader is a step on the way to a
minor version that is not out yet, it does not accept the stable release of its own minor.
-/

namespace TreePickle

/-! ## Versions -/

/-- A version of the format; `experimental` is zero in a stable version. -/
structure Version where
  major : UInt32
  minor : UInt32
  experimental : UInt32
  deriving DecidableEq, Repr, Inhabited

namespace Version

/-- The version that this library writes, and reads if not told otherwise. -/
def current : Version := ⟨28, 3, 0⟩

def isExperimental (v : Version) : Bool := v.experimental != 0

/-- Whether a reader of version `reader` understands a file of version `file`. -/
def accepts (reader file : Version) : Bool :=
  file.major == reader.major &&
    if file.isExperimental then
      file.minor == reader.minor && file.experimental == reader.experimental
    else
      decide (file.minor < reader.minor) || (file.minor == reader.minor && !reader.isExperimental)

/-- A version in writing: `28.3`, and `28.4-experimental-1` for a snapshot. -/
def text (v : Version) : String :=
  s!"{v.major.toNat}.{v.minor.toNat}" ++
    if v.isExperimental then s!"-experimental-{v.experimental.toNat}" else ""

instance : ToString Version := ⟨text⟩

end Version

/-! ## Headers -/

/-- The bytes at the beginning of each file. -/
def magic : List UInt8 := [0x5C, 0xA1, 0xAB, 0x1F]

/-- The length of the identifier of a file. -/
def uuidSize : Nat := 16

/-- The identifier of a file. -/
abbrev Uuid := Vector UInt8 uuidSize

/-- What a file says about itself. -/
structure Header where
  version : Version
  /-- The tool that wrote the file. -/
  tooling : String
  uuid : Uuid
  deriving DecidableEq

namespace Decode

/-- The next 16 bytes as an identifier. -/
def uuid : Decode Fault Uuid := fun c ↦
  if h : uuidSize ≤ c.ahead.length then
    .ok ⟨(c.ahead.take uuidSize).toArray, by simp [h]⟩ (c.drop uuidSize)
  else .error (.unexpectedEnd c.position) c

/-- The next three numbers as a version. -/
def version : Decode Fault Version := return ⟨← nat, ← nat, ← nat⟩

end Decode

namespace Header

/-- Why a file has no acceptable header. -/
inductive Fault where
  | decode (fault : TreePickle.Fault)
  /-- The file begins with other bytes. -/
  | invalidMagic (found : List UInt8)
  /-- The reader does not understand the version of the file. -/
  | incompatibleVersion (file reader : Version)
  deriving DecidableEq

/-- A byte in two hexadecimal digits. -/
def hexByte (b : UInt8) : String :=
  String.ofList [Nat.digitChar (b.toNat / 16), Nat.digitChar (b.toNat % 16)]

def Fault.message : Fault → String
  | decode fault => s!"Decode error: {fault.message}"
  | invalidMagic found =>
      "Invalid magic number: [" ++ String.intercalate ", " (found.map hexByte) ++ "]"
  | incompatibleVersion file reader =>
      s!"Incompatible TASTy version {file.text} (reader: {reader.text})"

/-- Reads the header of a file for a reader of version `reader`. -/
def decode (reader : Version) : Decode Fault Header := do
  let found ← Decode.mapError .decode (Decode.bytes magic.length)
  if found ≠ magic then throw (.invalidMagic found)
  let version ← Decode.mapError .decode Decode.version
  if !reader.accepts version then throw (.incompatibleVersion version reader)
  let tooling ← Decode.mapError .decode do Decode.text (← Decode.length)
  let uuid ← Decode.mapError .decode Decode.uuid
  return ⟨version, tooling, uuid⟩

end Header

end TreePickle
