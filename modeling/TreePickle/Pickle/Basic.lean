import Std.Data.HashMap
import TreePickle.Pickle.NameRecord
import TreePickle.Reader.Session

/-!
# Files

A `Pickle` is a file whose header, names and sections have been read. Section payloads stay bytes
until they are asked for by label; of several sections with the same label the last one is found.

## Sections

Behind the names a file consists of sections up to its end: a reference to the name that is the
section's label, the length of the payload, and the payload. What a payload means is known to its
`SectionDecoder`; when a file is read, payloads are only passed over. A decoder gets the names of
the file and a reader of the payload's range, and can do with it what it likes.

## Files

The three parts of a file are read one after the other by one cursor, `Pickle.contents`, and none
says how long it is as a whole but the names. So the sections end where the file ends. The bytes of
the file are kept, and the range of a section is cut out of them when its label is looked up.
-/

namespace TreePickle.Pickle

/-! ## Sections -/

/-- A section of a file: its label, and the range of its payload. -/
structure Section where
  label : String
  start : Nat
  stop : Nat
  deriving DecidableEq, Repr

namespace Section

/-! Labels of the sections that the format itself knows. -/

def asts : String := "ASTs"

def positions : String := "Positions"

def comments : String := "Comments"

def attributes : String := "Attributes"

/-- The length of the payload. -/
def size (s : Section) : Nat := Address.distance s.start s.stop

def isEmpty (s : Section) : Bool := s.start == s.stop

end Section

open Decode

/-- A section, its payload passed over. -/
def nextSection (limit : Nat) (table : NameTable) : Decode Fault Section := do
  let label := (← liftName (table.lookup (← nameRef table))).text
  let stop ← lift frameEnd
  let start ← position
  if stop < start ∨ limit < stop then throw (.sectionOutOfBounds label stop limit)
  lift (advanceTo stop)
  return ⟨label, start, stop⟩

/-- The sections up to the end of the file. -/
def sectionList (table : NameTable) : Decode Fault (List Section) := do
  let limit ← Decode.stop
  itemsUntil limit (nextSection limit table)

/-! ## Payloads -/

/-- What the payload of a section means. It is given a reader of the payload's range. -/
structure SectionDecoder (α : Type) where
  /-- The label of the sections that it understands. -/
  label : String
  decode : NameTable → Reader → Except Fault α

/-- The bytes of a payload as they are. -/
def rawSection (label : String) : SectionDecoder (List UInt8) where
  label := label
  decode _ r := .ok r.window

/-- The answers to a list of requests about a payload. -/
def answering (label : String) (requests : List Request) :
    SectionDecoder (List (Except Refusal Reply × Nat)) where
  label := label
  decode _ r := .ok ((Session.ofReader r).run requests)

end TreePickle.Pickle

namespace TreePickle

/-! ## Files -/

/-- A file with its names, and its sections found. -/
structure Pickle where
  /-- The whole file. -/
  bytes : List UInt8
  header : Header
  names : NameTable
  /-- The sections in the order of the file. -/
  sections : List Pickle.Section
  /-- The section of each label. -/
  index : Std.HashMap String Pickle.Section

namespace Pickle

/-- The sections by their labels. A later section takes the place of an earlier one. -/
def indexOf (sections : List Section) : Std.HashMap String Section :=
  sections.foldl (fun index s ↦ index.insert s.label s) ∅

/-- Reads the parts of a file one after the other. -/
def contents (reader : Version) : Decode Fault (Header × NameTable × List Section) := do
  let header ← Decode.mapError .header (Header.decode reader)
  let names ← nameSection
  let sections ← sectionList names
  return (header, names, sections)

/-- Reads a file as a reader of version `reader` does. -/
def decode (reader : Version) (bytes : List UInt8) : Except Fault Pickle := do
  let (header, names, sections) ← (Reader.ofBytes bytes).eval (contents reader)
  return { bytes, header, names, sections, index := indexOf sections }

/-- The section of a label. -/
def section? (p : Pickle) (label : String) : Option Section := p.index[label]?

/-- Decodes the section that a decoder is for, if the file has one. -/
def lookup {α : Type} (p : Pickle) (d : SectionDecoder α) : Except Fault (Option α) :=
  match p.section? d.label with
  | none => .ok none
  | some s => do
      let r ← ((Reader.ofBytes p.bytes).sub s.start s.stop).mapError .decode
      return some (← d.decode p.names r)

end Pickle

end TreePickle
