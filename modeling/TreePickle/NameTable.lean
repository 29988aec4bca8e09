import TreePickle.Name
import TreePickle.Text

/-!
# Name tables

Names are stored in the order in which they are read, and everything else refers to them by their
number. A table only grows, so a number that was valid stays valid and keeps its meaning.

Numbers are 32-bit words. A table is not limited to the numbers that a word can hold, but an entry
beyond them has no number of its own: `NameTable.nextRef` starts again from zero there.

## Names in messages

An entry that is a path where a simple name is wanted is shown by its structure, since its text
would hide what is wrong with it: each constructor with its fields by name, and texts in quotes.
-/

namespace TreePickle

/-! ## Names in messages -/

/-- A constructor with named fields. -/
def describeFields (constructor : String) (fields : List (String × String)) : String :=
  constructor ++ " \x7b " ++
    String.intercalate ", " (fields.map fun (field, value) ↦ field ++ ": " ++ value) ++ " \x7d"

/-- A constructor around a single value. -/
def describeWrapped (constructor value : String) : String := constructor ++ "(" ++ value ++ ")"

def NameTag.describe : NameTag → String
  | utf8 => "Utf8"
  | qualified => "Qualified"
  | expanded => "Expanded"
  | expandPrefix => "ExpandPrefix"
  | unique => "Unique"
  | defaultGetter => "DefaultGetter"
  | superAccessor => "SuperAccessor"
  | inlineAccessor => "InlineAccessor"
  | bodyRetainer => "BodyRetainer"
  | objectClass => "ObjectClass"
  | targetSigned => "TargetSigned"
  | signed => "Signed"

mutual

def SimpleName.describe : SimpleName → String
  | .term text => describeWrapped "Term" (Text.quote text)
  | .expanded tag outer name =>
      describeFields "Expanded"
        [("tag", tag.describe), ("prefix", outer.describe), ("name", name.describe)]
  | .unique separator underlying number =>
      describeFields "Unique"
        [("separator", Text.quote separator), ("underlying", underlying.describe),
          ("num", toString number.toNat)]
  | .defaultGetter underlying index =>
      describeFields "DefaultGetter"
        [("underlying", underlying.describe), ("index", toString index.toNat)]
  | .signed underlying signature target =>
      describeFields "Signed"
        [("underlying", underlying.describe),
          ("sig", "Signature \x7b params: [" ++ signature.describeRest true),
          ("target", target.describe)]
  | .prefixed tag underlying =>
      describeFields "Prefixed" [("tag", tag.describe), ("underlying", underlying.describe)]
  | .suffixed tag underlying =>
      describeFields "Suffixed" [("tag", tag.describe), ("underlying", underlying.describe)]
  | .objectClass underlying => describeWrapped "ObjectClass" underlying.describe
  | .type underlying => describeWrapped "Type" underlying.describe

/-- The names of a path, with commas in between. -/
def QualifiedName.describeNames : QualifiedName → String
  | .single name => name.describe
  | .select qualifier name => qualifier.describeNames ++ ", " ++ name.describe

/-- A signature behind the bracket that opens its parameters, or behind a parameter. -/
def Signature.describeRest (first : Bool) : Signature → String
  | .result type =>
      "], result: QualifiedName \x7b path: [" ++ type.describeNames ++ "] \x7d \x7d"
  | .param type rest =>
      (if first then "" else ", ") ++ "Term(QualifiedName \x7b path: [" ++ type.describeNames ++
        "] \x7d)" ++ rest.describeRest false
  | .typeParams count rest =>
      (if first then "" else ", ") ++ describeWrapped "TypeLen" (toString count.toNat) ++
        rest.describeRest false

end

def QualifiedName.describe (q : QualifiedName) : String :=
  "QualifiedName \x7b path: [" ++ q.describeNames ++ "] \x7d"

def Signature.describe (s : Signature) : String :=
  "Signature \x7b params: [" ++ s.describeRest true

def Name.describe : Name → String
  | .simple n => describeWrapped "Simple" n.describe
  | .qualified q => describeWrapped "Qualified" q.describe

/-! ## Tables -/

/-- The number of an entry in a name table. -/
structure NameRef where
  number : UInt32
  deriving DecidableEq, Repr

namespace NameRef

/-- The place of the entry, counted from zero. -/
def index (r : NameRef) : Nat := r.number.toNat

def text (r : NameRef) : String := s!"NameRef({r.index})"

end NameRef

/-- The names of a file. -/
structure NameTable where
  entries : Array Name
  deriving DecidableEq

namespace NameTable

/-- Why a name cannot be looked up. -/
inductive Fault where
  /-- A simple name is wanted, and the entry is a path. -/
  | notSimple (ref : NameRef) (found : QualifiedName)
  /-- There is no such entry in a table of `size` entries. -/
  | noEntry (ref : NameRef) (size : Nat)
  deriving DecidableEq

def Fault.message : Fault → String
  | notSimple ref found =>
      s!"Expected a simple name at {ref.text}, found {(Name.qualified found).describe}"
  | noEntry ref size => s!"Invalid name reference {ref.text} (table has {size} entries)"

def empty : NameTable := ⟨#[]⟩

def size (t : NameTable) : Nat := t.entries.size

def isEmpty (t : NameTable) : Bool := t.entries.isEmpty

/-- Appends an entry. -/
def add (t : NameTable) (name : Name) : NameTable := ⟨t.entries.push name⟩

/-- The number that the next entry will have. -/
def nextRef (t : NameTable) : NameRef := ⟨UInt32.ofNat t.size⟩

/-- The entry of a number, of either kind. -/
def lookup (t : NameTable) (r : NameRef) : Except Fault Name :=
  match t.entries[r.index]? with
  | some name => .ok name
  | none => .error (.noEntry r t.size)

/-- The entry of a number, which has to be a simple name. -/
def lookupSimple (t : NameTable) (r : NameRef) : Except Fault SimpleName := do
  match ← t.lookup r with
  | .simple name => return name
  | .qualified path => throw (.notSimple r path)

/-- The entry of a number as a path. -/
def lookupQualified (t : NameTable) (r : NameRef) : Except Fault QualifiedName :=
  return (← t.lookup r).toQualified

/-- The entries with their numbers, in order. -/
def toList (t : NameTable) : List (NameRef × Name) :=
  t.entries.toList.zipIdx.map fun (name, i) ↦ (⟨UInt32.ofNat i⟩, name)

end NameTable

end TreePickle
