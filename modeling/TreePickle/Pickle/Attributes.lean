import TreePickle.Pickle.Basic

/-!
# Attributes of a file

The section `Attributes` lists what is special about the compilation that a file comes from: flags
of one byte each, and the name of the source file behind the byte 128. Items come in any order and
may be repeated; of several source files the last one counts.

## Items

An `Attribute` is a kind of item. The byte of a kind is given, and the kind of a byte is looked up
in the list of all kinds, so that there is one table and the two ways through it are inverse
(`Attribute.ofByte?_eq_some_iff`). A byte of no kind ends the reading with the address where it
stands, since it is not known what follows it.

The name of the source file is an entry of the table that is a simple name, of any kind. It is kept
as a text.
-/

namespace TreePickle

/-- What is special about the compilation of a file. -/
structure Attributes where
  /-- Compiled as part of the Scala 2 standard library. -/
  scala2StandardLibrary : Bool := false
  /-- Compiled with explicit nulls. -/
  explicitNulls : Bool := false
  /-- Compiled with capture checking. -/
  captureChecked : Bool := false
  /-- Compiled with pure function types. -/
  withPureFuns : Bool := false
  /-- Made from a Java source. -/
  java : Bool := false
  /-- Signatures without bodies. -/
  outline : Bool := false
  sourceFile : Option String := none
  deriving DecidableEq, Repr

/-- The kinds of items in the section. -/
inductive Attribute where
  | scala2StandardLibrary
  | explicitNulls
  | captureChecked
  | withPureFuns
  | java
  | outline
  /-- Followed by a reference to the name of the source file. -/
  | sourceFile
  deriving DecidableEq, Repr

namespace Attribute

def toByte : Attribute → UInt8
  | scala2StandardLibrary => 1
  | explicitNulls => 2
  | captureChecked => 3
  | withPureFuns => 4
  | java => 5
  | outline => 6
  | sourceFile => 128

/-- All kinds, in the order of their bytes. -/
def all : List Attribute :=
  [scala2StandardLibrary, explicitNulls, captureChecked, withPureFuns, java, outline, sourceFile]

/-- The kind that a byte stands for. -/
def ofByte? (b : UInt8) : Option Attribute := all.find? fun kind ↦ kind.toByte == b

theorem ofByte?_eq_some_iff {b : UInt8} {kind : Attribute} :
    ofByte? b = some kind ↔ kind.toByte = b := by
  constructor
  · intro h
    simpa using List.find?_some h
  · rintro rfl
    cases kind <;> decide

end Attribute

namespace Attributes

open Decode Pickle

/-- Reads an item into the attributes found so far. -/
def item (table : NameTable) (found : Attributes) : Decode Pickle.Fault Attributes := do
  let start ← position
  let tag ← lift byte
  match Attribute.ofByte? tag with
  | none => throw (.invalidSection Section.attributes (.unknownAttribute tag start))
  | some .scala2StandardLibrary => return { found with scala2StandardLibrary := true }
  | some .explicitNulls => return { found with explicitNulls := true }
  | some .captureChecked => return { found with captureChecked := true }
  | some .withPureFuns => return { found with withPureFuns := true }
  | some .java => return { found with java := true }
  | some .outline => return { found with outline := true }
  | some .sourceFile =>
      let name ← liftName (table.lookupSimple ⟨← lift nat⟩)
      return { found with sourceFile := some name.text }

/-- Reads items up to the end. -/
def decode (table : NameTable) : Decode Pickle.Fault Attributes := do
  iterateUntil (← Decode.stop) (item table) {}

/-- The meaning of the section. -/
def sectionDecoder : SectionDecoder Attributes where
  label := Section.attributes
  decode table r := r.eval (decode table)

end Attributes

end TreePickle
