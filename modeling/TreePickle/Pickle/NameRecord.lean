import TreePickle.Header
import TreePickle.NameTable

/-!
# Name records

A name record is a tag, the length of its payload, and the payload: a text, or references to names
in the table so far, with a number here and there. The payload is read without regard to its
length, and only afterwards the place reached is compared with the end announced. Only a text, and
the lists at the end of some payloads, are bounded by the end itself.

Types in a signature are named in the namespace of types, whatever the entry they refer to.

## What can be wrong with a file

A file fails in its header, in the bytes of a number or a text, in the framing of its records and
sections, or in the references between them. References have to point backward: a record may only
use names that were read before it, so no name contains itself.
-/

namespace TreePickle.Pickle

/-! ## What can be wrong with a file -/

/-- A part of a file that has to end at an address known beforehand. -/
inductive Frame where
  /-- The record of a name, which begins at `start`. -/
  | record (tag : NameTag) (start : Nat)
  /-- All name records together. -/
  | nameSection
  deriving DecidableEq, Repr

def Frame.text : Frame → String
  | record tag start => s!"{tag.label} record at {start}"
  | nameSection => "name section"

/-- What can be wrong with the payload of a section. -/
inductive SectionFlaw where
  /-- A byte that stands for no attribute. -/
  | unknownAttribute (tag : UInt8) (position : Nat)
  deriving DecidableEq, Repr

def SectionFlaw.text : SectionFlaw → String
  | unknownAttribute tag a => s!"unknown attribute tag {tag.toNat} at address {a}"

/-- Why a file, or a section of it, cannot be read. -/
inductive Fault where
  | header (fault : Header.Fault)
  | decode (fault : TreePickle.Fault)
  /-- A part ends somewhere else than it says. -/
  | framing (frame : Frame) (expected actual : Nat)
  | unsupportedTag (tag : UInt8) (position : Nat)
  /-- A reference to a name that is not among the `known` ones read so far. -/
  | danglingRef (ref : NameRef) (position : Nat) (known : Nat)
  | name (fault : NameTable.Fault)
  /-- A section that would end behind the file. -/
  | sectionOutOfBounds (label : String) (stop limit : Nat)
  | invalidSection (label : String) (flaw : SectionFlaw)
  deriving DecidableEq

def Fault.message : Fault → String
  | header fault => s!"Invalid header: {fault.message}"
  | decode fault => s!"Decode error: {fault.message}"
  | framing frame expected actual =>
      s!"Framing corruption in {frame.text}: expected end at {expected}, reached {actual}"
  | unsupportedTag tag a => s!"Unsupported name tag {tag.toNat} at address {a}"
  | danglingRef ref a known =>
      s!"Name reference {ref.text} at address {a} is not backward (only {known} names decoded)"
  | name fault => s!"Name error: {fault.message}"
  | sectionOutOfBounds label stop limit =>
      s!"Section {label} ends at {stop}, past the end of input at {limit}"
  | invalidSection label flaw => s!"Invalid section {label}: {flaw.text}"

/-- An action on the bytes alone, as an action on a file. -/
def lift {α : Type} (x : Decode TreePickle.Fault α) : Decode Fault α := x.mapError .decode

/-- A look-up of a name, as an action on a file. -/
def liftName {α : Type} (x : Except NameTable.Fault α) : Decode Fault α :=
  Decode.ofExcept (x.mapError .name)

open Decode

/-! ## References -/

/-- Refuses a reference, read at `start`, that is not to a name of the table. -/
def checkRef (table : NameTable) (start : Nat) (r : NameRef) : Decode Fault Unit :=
  if r.number < table.nextRef.number then pure ()
  else throw (.danglingRef r start table.size)

/-- A reference to a name of the table. -/
def nameRef (table : NameTable) : Decode Fault NameRef := do
  let start ← position
  let r := NameRef.mk (← lift nat)
  checkRef table start r
  return r

/-- A reference to a simple name, followed. -/
def simpleName (table : NameTable) : Decode Fault SimpleName := do
  liftName (table.lookupSimple (← nameRef table))

/-- A reference to any name, followed. -/
def qualifiedName (table : NameTable) : Decode Fault QualifiedName := do
  liftName (table.lookupQualified (← nameRef table))

/-- A parameter of a signature: a reference to the name of its type, or, below zero, a number of
type parameters. -/
def paramSig (table : NameTable) : Decode Fault ParamSig := do
  let start ← position
  let value := (← lift int).toInt
  if value < 0 then
    return .typeLen (UInt64.ofNat value.natAbs)
  else
    let r := NameRef.mk (UInt32.ofNat value.toNat)
    checkRef table start r
    let type ← liftName (table.lookupQualified r)
    return .term (type.mapLast SimpleName.toTypeName)

/-! ## Payloads -/

/-- The name of a method with its signature; its target comes second if there is one. -/
def signedName (table : NameTable) (stop : Nat) (hasTarget : Bool) :
    Decode Fault SimpleName := do
  let underlying ← simpleName table
  let target ← if hasTarget then simpleName table else pure underlying
  let result ← qualifiedName table
  let params ← itemsUntil stop (paramSig table)
  let signature := Signature.ofParams params (result.mapLast SimpleName.toTypeName)
  return .signed underlying signature target

/-- A payload that should end at `stop`. -/
def payload (table : NameTable) (stop : Nat) (tag : NameTag) : Decode Fault Name := do
  match tag with
  | .utf8 =>
      let size := Address.distance (← position) stop
      return .simple (.term (← lift (text size)))
  | .qualified =>
      let qualifier ← qualifiedName table
      return .qualified (qualifier.select (← simpleName table))
  | .expanded | .expandPrefix =>
      let outer ← simpleName table
      return .simple (.expanded tag outer (← simpleName table))
  | .unique =>
      let separator ← simpleName table
      let number ← lift longNat
      let bases ← itemsUntil stop (simpleName table)
      return .simple (.unique separator.text (bases.headD .empty) number)
  | .defaultGetter =>
      let underlying ← simpleName table
      return .simple (.defaultGetter underlying (← lift longNat))
  | .superAccessor | .inlineAccessor => return .simple (.prefixed tag (← simpleName table))
  | .bodyRetainer => return .simple (.suffixed tag (← simpleName table))
  | .objectClass =>
      match ← liftName (table.lookup (← nameRef table)) with
      | .simple name => return .simple name.withObjectSuffix
      | .qualified path => return .qualified (path.mapLast SimpleName.withObjectSuffix)
  | .targetSigned => return .simple (← signedName table stop true)
  | .signed => return .simple (← signedName table stop false)

/-! ## Records -/

/-- A name record, which may not end behind `limit`. -/
def nameRecord (limit : Nat) (table : NameTable) : Decode Fault Name := do
  let start ← position
  let tagByte ← lift byte
  match NameTag.ofByte? tagByte with
  | none => throw (.unsupportedTag tagByte start)
  | some tag =>
      let stop ← lift frameEnd
      if stop < (← position) ∨ limit < stop then throw (.framing (.record tag start) limit stop)
      let name ← payload table stop tag
      let reached ← position
      if reached ≠ stop then throw (.framing (.record tag start) stop reached)
      return name

/-- The length of the name section, and the records in it. -/
def nameSection : Decode Fault NameTable := do
  let start ← position
  let stop ← lift frameEnd
  let limit ← Decode.stop
  if stop < start ∨ limit < stop then throw (.sectionOutOfBounds "names" stop limit)
  let table ← iterateUntil stop (fun table ↦ return table.add (← nameRecord stop table)) .empty
  let reached ← position
  if reached ≠ stop then throw (.framing .nameSection stop reached)
  return table

end TreePickle.Pickle
