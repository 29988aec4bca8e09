import TreePickle.Base128
import TreePickle.Header
import TreePickle.Name

/-!
# Writing

A `Writer` holds the bytes written so far, and each operation appends to them. `Writer.bytes` is the
view that matters, and each operation has a lemma that says what it appends.

## Frames

A frame is a payload behind its length: the payload is written by a writer of its own first, and its
length is known when it is appended. So writing never goes back, and what is in a frame does not
depend on what was written in front of it. Frames may be nested.

## Numbers

Numbers are written from machine words, by the loops of `Base128.encodeNat` and
`Base128.encodeInt`. A narrower word is widened first, so that there is one loop for each sign. The
lemmas say the same with whole numbers, `Base128.encode`, which is what is compared with readers.
A length is the number of bytes in a list, and is written as such; for a word it makes no difference
(`Writer.putLength_toNat`).
-/

namespace TreePickle

/-- The bytes written so far. -/
structure Writer where
  buffer : Array UInt8

namespace Writer

open Base128

def empty : Writer := ⟨#[]⟩

/-- What has been written. -/
def bytes (w : Writer) : List UInt8 := w.buffer.toList

def size (w : Writer) : Nat := w.buffer.size

/-- Forgets what has been written. -/
def clear (_ : Writer) : Writer := empty

/-! ## Bytes, numbers and texts -/

def putByte (w : Writer) (b : UInt8) : Writer := ⟨w.buffer.push b⟩

def putBytes (w : Writer) (bs : List UInt8) : Writer := ⟨w.buffer.appendList bs⟩

def putLongNat (w : Writer) (n : UInt64) : Writer := w.putBytes (encodeNat n)

def putNat (w : Writer) (n : UInt32) : Writer := w.putLongNat n.toUInt64

def putLongInt (w : Writer) (v : Int64) : Writer := w.putBytes (encodeInt v)

def putInt (w : Writer) (v : Int32) : Writer := w.putLongInt v.toInt64

/-- The number of bytes that follow. -/
def putLength (w : Writer) (n : Nat) : Writer := w.putBytes (encode .unsigned n)

/-- A text behind the number of its bytes. -/
def putText (w : Writer) (text : String) : Writer :=
  let encoded := Text.utf8 text
  (w.putLength encoded.length).putBytes encoded

/-! ## Frames -/

/-- What `build` writes, behind its length. -/
def putFramed (w : Writer) (build : Writer → Writer) : Writer :=
  let payload := build empty
  (w.putLength payload.size).putBytes payload.bytes

/-- A record of the name table. -/
def putNameRecord (w : Writer) (tag : NameTag) (build : Writer → Writer) : Writer :=
  (w.putByte tag.toByte).putFramed build

/-- The record of a plain name. -/
def putName (w : Writer) (text : String) : Writer :=
  w.putNameRecord .utf8 (·.putBytes (Text.utf8 text))

/-- A section whose label is the name number `label`. -/
def putSection (w : Writer) (label : UInt32) (payload : List UInt8) : Writer :=
  ((w.putNat label).putLength payload.length).putBytes payload

def putVersion (w : Writer) (v : Version) : Writer :=
  ((w.putNat v.major).putNat v.minor).putNat v.experimental

def putHeader (w : Writer) (h : Header) : Writer :=
  (((w.putBytes magic).putVersion h.version).putText h.tooling).putBytes h.uuid.toList

/-! ## What is appended -/

variable (w : Writer)

@[simp] theorem bytes_empty : empty.bytes = [] := rfl

@[simp] theorem length_bytes : w.bytes.length = w.size := by simp [bytes, size]

@[simp] theorem bytes_putByte (b : UInt8) : (w.putByte b).bytes = w.bytes ++ [b] := by
  simp [putByte, bytes]

@[simp] theorem bytes_putBytes (bs : List UInt8) : (w.putBytes bs).bytes = w.bytes ++ bs := by
  simp [putBytes, bytes]

@[simp] theorem bytes_putLongNat (n : UInt64) :
    (w.putLongNat n).bytes = w.bytes ++ encode .unsigned n.toNat := by
  simp [putLongNat, encodeNat_eq]

@[simp] theorem bytes_putNat (n : UInt32) :
    (w.putNat n).bytes = w.bytes ++ encode .unsigned n.toNat := by simp [putNat]

@[simp] theorem bytes_putLongInt (v : Int64) :
    (w.putLongInt v).bytes = w.bytes ++ encode .signed v.toInt := by
  simp [putLongInt, encodeInt_eq]

@[simp] theorem bytes_putInt (v : Int32) :
    (w.putInt v).bytes = w.bytes ++ encode .signed v.toInt := by simp [putInt]

@[simp] theorem bytes_putLength (n : Nat) :
    (w.putLength n).bytes = w.bytes ++ encode .unsigned n := by simp [putLength]

/-- A length of 64 bits is written as any other number. -/
theorem putLength_toNat (n : UInt64) : w.putLength n.toNat = w.putLongNat n := by
  rw [putLength, putLongNat, encodeNat_eq]

@[simp] theorem bytes_putText (text : String) :
    (w.putText text).bytes =
      w.bytes ++ encode .unsigned (Text.utf8 text).length ++ Text.utf8 text := by
  simp [putText]

@[simp] theorem bytes_putFramed (build : Writer → Writer) :
    (w.putFramed build).bytes =
      w.bytes ++ encode .unsigned (build empty).bytes.length ++ (build empty).bytes := by
  simp [putFramed]

@[simp] theorem bytes_putSection (label : UInt32) (payload : List UInt8) :
    (w.putSection label payload).bytes =
      w.bytes ++ encode .unsigned label.toNat ++ encode .unsigned payload.length ++ payload := by
  simp [putSection]

end Writer

end TreePickle
