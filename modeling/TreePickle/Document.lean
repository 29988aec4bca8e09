import TreePickle.Header

/-!
# Headers as documents

Headers are exchanged with other tools as documents: trees of texts, numbers, lists and records.
Writing gives a record of records. Reading is strict about values and liberal about layout: a
record may have further fields, and a list of exactly the fields' values, in the order in which
they are declared, stands for the record.

## Numbers

A number of a document is a whole number of any size, and each field has a range of its own. What
is out of range is refused and not cut down to it. A number with a fraction is refused even if the
fraction is zero, so nothing is kept of it but that it is one.
-/

namespace TreePickle

/-- A tree of data. -/
inductive Document where
  | null
  | bool (value : Bool)
  /-- A whole number. -/
  | number (value : Int)
  /-- A number written with a fraction or an exponent, which no field here accepts. -/
  | fraction
  | text (value : String)
  | list (items : List Document)
  | record (fields : List (String × Document))
  deriving Inhabited

namespace Document

/-- The values of the named fields, from a record or from a list. -/
def fields? (names : List String) : Document → Option (List Document)
  | record fields => names.mapM fun name ↦ (fields.find? (·.1 == name)).map Prod.snd
  | list items => if items.length = names.length then some items else none
  | _ => none

/-- A natural number below `bound`. -/
def natBelow? (bound : Nat) : Document → Option Nat
  | number v => if 0 ≤ v ∧ v.toNat < bound then some v.toNat else none
  | _ => none

def uint32? (d : Document) : Option UInt32 := (d.natBelow? UInt32.size).map UInt32.ofNat

def byte? (d : Document) : Option UInt8 := (d.natBelow? UInt8.size).map UInt8.ofNat

def text? : Document → Option String
  | text s => some s
  | _ => none

/-- An identifier: its bytes in a list. -/
def uuid? : Document → Option Uuid
  | list items => do
      let bytes ← items.mapM byte?
      if h : bytes.length = uuidSize then some ⟨bytes.toArray, h⟩ else none
  | _ => none

@[simp] theorem uint32?_number (n : UInt32) : (number n.toNat).uint32? = some n := by
  simp [uint32?, natBelow?, n.toNat_lt]

@[simp] theorem byte?_number (b : UInt8) : (number b.toNat).byte? = some b := by
  simp [byte?, natBelow?, b.toNat_lt]

@[simp] theorem uuid?_list (id : Uuid) :
    (list (id.toList.map fun b ↦ number b.toNat)).uuid? = some id := by
  have h : (id.toList.map fun b ↦ number b.toNat).mapM byte? = some id.toList := by
    induction id.toList with
    | nil => rfl
    | cons b l ih => simp [List.mapM_cons, ih]
  rw [uuid?, h]
  exact dif_pos id.length_toList

end Document

/-! ## Versions -/

namespace Version

def fieldNames : List String := ["major", "minor", "experimental"]

def ofDocument? (d : Document) : Option Version := do
  match ← d.fields? fieldNames with
  | [major, minor, experimental] =>
      return ⟨← major.uint32?, ← minor.uint32?, ← experimental.uint32?⟩
  | _ => none

def toDocument (v : Version) : Document :=
  .record (fieldNames.zip
    [.number v.major.toNat, .number v.minor.toNat, .number v.experimental.toNat])

@[simp] theorem ofDocument?_toDocument (v : Version) : ofDocument? v.toDocument = some v := by
  simp [ofDocument?, toDocument, Document.fields?, fieldNames]

end Version

/-! ## Headers -/

namespace Header

def fieldNames : List String := ["version", "tooling_version", "uuid"]

def ofDocument? (d : Document) : Option Header := do
  match ← d.fields? fieldNames with
  | [version, tooling, uuid] =>
      return ⟨← Version.ofDocument? version, ← tooling.text?, ← uuid.uuid?⟩
  | _ => none

def toDocument (h : Header) : Document :=
  .record (fieldNames.zip
    [h.version.toDocument, .text h.tooling, .list (h.uuid.toList.map fun b ↦ .number b.toNat)])

/-- A header is read back from its document. -/
theorem ofDocument?_toDocument (h : Header) : ofDocument? h.toDocument = some h := by
  simp [ofDocument?, toDocument, Document.fields?, fieldNames, Document.text?]

end Header

end TreePickle
