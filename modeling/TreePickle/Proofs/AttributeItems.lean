import Mathlib.Order.Lattice.Nat
import TreePickle.Pickle.Attributes
import TreePickle.Proofs.ExactNumber
import TreePickle.Proofs.Outcome
import TreePickle.Proofs.RecordReading

/-!
# Items of the attributes section

The payload of the section is a sequence of items, some of one byte and some of several. There is at
most one way to take it for such a sequence: the bytes of a reference belong to the item in front of
them, whatever else they might stand for. What the items say does not depend on the order of the
flags, or on how often they are repeated, and of the source files the last one counts.

A payload that is not made of items in this way begins with some that are in order, and
`Attributes.Offence` says what comes then. `Attributes.decode_of_items` puts both together: what is
decoded from a payload is what its items say, and a payload that is refused is refused for the first
item that is not in order.

## One item

Bytes begin with an item that is in order or with one that is not,
`Attributes.exists_item_or_offence`. In the first case a round of the loop takes the item and
updates what is known; in the second one it fails with the fault of the offence, whatever is known.

## All items

So the loop over a payload is a fold over its items, up to the end or to an offence. The fold is
described by what it gives and not by how: `Attributes.Describes` says of each kind whether there is
an item of it, and of the source file that it is the one of the last reference. That determines the
outcome, and it is the same for items that say the same, `Attributes.SaySame`.

Both equivalences are read off from the fact that every payload is of one of the two sorts, since
the outcome of a payload is unique.
-/

namespace TreePickle

open Base128

theorem Attribute.toByte_injective : Function.Injective toByte := by
  intro kind kind' h
  have hkind : ofByte? kind'.toByte = some kind := ofByte?_eq_some_iff.mpr h
  rw [ofByte?_eq_some_iff.mpr rfl] at hkind
  exact (Option.some.inj hkind).symm

namespace Attributes

/-! ## Attributes by their kinds -/

/-- Whether something of a kind is known. -/
def has (found : Attributes) : Attribute → Bool
  | .scala2StandardLibrary => found.scala2StandardLibrary
  | .explicitNulls => found.explicitNulls
  | .captureChecked => found.captureChecked
  | .withPureFuns => found.withPureFuns
  | .java => found.java
  | .outline => found.outline
  | .sourceFile => found.sourceFile.isSome

/-- With a flag set. The name of the source file is not a flag. -/
def mark (found : Attributes) : Attribute → Attributes
  | .scala2StandardLibrary => { found with scala2StandardLibrary := true }
  | .explicitNulls => { found with explicitNulls := true }
  | .captureChecked => { found with captureChecked := true }
  | .withPureFuns => { found with withPureFuns := true }
  | .java => { found with java := true }
  | .outline => { found with outline := true }
  | .sourceFile => found

theorem ext_has {found found' : Attributes} (h : ∀ kind, found.has kind = found'.has kind)
    (hsource : found.sourceFile = found'.sourceFile) : found = found' := by
  obtain ⟨_, _, _, _, _, _, source⟩ := found
  obtain ⟨_, _, _, _, _, _, source'⟩ := found'
  obtain rfl : source = source' := hsource
  congr
  · exact h .scala2StandardLibrary
  · exact h .explicitNulls
  · exact h .captureChecked
  · exact h .withPureFuns
  · exact h .java
  · exact h .outline

theorem has_mark {found : Attributes} {flag kind : Attribute} (h : flag ≠ .sourceFile) :
    (found.mark flag).has kind = true ↔ found.has kind = true ∨ flag = kind := by
  cases flag with
  | sourceFile => exact absurd rfl h
  | _ => cases kind <;> simp [mark, has]

@[simp] theorem sourceFile_mark (found : Attributes) (flag : Attribute) :
    (found.mark flag).sourceFile = found.sourceFile := by
  cases flag <;> rfl

/-! ## Items -/

/-- An item of the section. -/
inductive Item where
  | flag (kind : Attribute) (h : kind ≠ .sourceFile)
  | sourceFile (ref : NameRef)
  deriving DecidableEq

namespace Item

def kind : Item → Attribute
  | flag kind _ => kind
  | sourceFile _ => .sourceFile

def ref? : Item → Option NameRef
  | flag _ _ => none
  | sourceFile ref => some ref

def spelling : Item → Language UInt8
  | flag kind _ => {[kind.toByte]}
  | sourceFile ref => {bs | ∃ size ∈ ref.spelling, bs = Attribute.sourceFile.toByte :: size}

/-- The reference in the item, if there is one, is to a simple name. -/
def IsValid (table : NameTable) (i : Item) : Prop :=
  ∀ ref ∈ i.ref?, ∃ name, table.entries[ref.index]? = some (.simple name)

/-- What is known with this item in addition. -/
def update (table : NameTable) (found : Attributes) : Item → Except NameTable.Fault Attributes
  | flag kind _ => return found.mark kind
  | sourceFile ref => do
      let name ← table.lookupSimple ref
      return { found with sourceFile := some name.text }

variable {table : NameTable} {found : Attributes} {a : Nat} {i i' : Item}

theorem isValid_flag (kind : Attribute) (h : kind ≠ .sourceFile) : (flag kind h).IsValid table :=
  fun _ ↦ nofun

theorem isValid_sourceFile_iff {ref : NameRef} :
    (sourceFile ref).IsValid table ↔ ∃ name, table.entries[ref.index]? = some (.simple name) :=
  ⟨fun h ↦ h ref rfl, fun h _ hr ↦ Option.some.inj hr ▸ h⟩

theorem nil_notMem_spelling (i : Item) : [] ∉ i.spelling := by
  cases i with
  | flag kind h => exact List.cons_ne_nil _ _ ∘ Eq.symm
  | sourceFile ref =>
    rintro ⟨size, -, h⟩
    cases h

theorem length_pos_of_mem_spelling (i : Item) {bs : List UInt8} (h : bs ∈ i.spelling) :
    0 < bs.length :=
  List.length_pos_iff.mpr fun hnil ↦ i.nil_notMem_spelling (hnil ▸ h)

/-- The first byte tells how far an item goes and what it is. -/
theorem spelling_unique {bs bs' rest rest' : List UInt8} (h : bs ∈ i.spelling)
    (h' : bs' ∈ i'.spelling) (heq : bs ++ rest = bs' ++ rest') : i = i' ∧ rest = rest' := by
  cases i with
  | flag kind hk =>
    obtain rfl : bs = [kind.toByte] := h
    cases i' with
    | flag kind' hk' =>
      obtain rfl : bs' = [kind'.toByte] := h'
      obtain ⟨hbyte, rfl⟩ := List.cons.inj heq
      obtain rfl := Attribute.toByte_injective hbyte
      exact ⟨rfl, rfl⟩
    | sourceFile ref =>
      obtain ⟨size, -, rfl⟩ := h'
      exact absurd (Attribute.toByte_injective (List.cons.inj heq).1) hk
  | sourceFile ref =>
    obtain ⟨size, hsize, rfl⟩ := h
    cases i' with
    | flag kind' hk' =>
      obtain rfl : bs' = [kind'.toByte] := h'
      exact absurd (Attribute.toByte_injective (List.cons.inj heq).1.symm) hk'
    | sourceFile ref' =>
      obtain ⟨size', hsize', rfl⟩ := h'
      obtain ⟨hnumber, -, hrest⟩ :=
        (Decode.Reads.nat : Decode.Reads (0 + size.length + rest.length) Decode.nat _).unique
          (v := ref.number) (w := ref'.number) (a := 0) hsize hsize' (List.cons.inj heq).2 rfl
      exact ⟨congrArg (sourceFile ⟨·⟩) hnumber, hrest⟩

end Item

/-- The bytes of items one behind the other. -/
def spelling (items : List Item) : Language UInt8 := (items.map Item.spelling).prod

theorem mem_spelling_cons_iff {i : Item} {items : List Item} {bs : List UInt8} :
    bs ∈ spelling (i :: items) ↔
      ∃ cs ds, cs ∈ i.spelling ∧ ds ∈ spelling items ∧ bs = cs ++ ds := by
  rw [spelling, List.map_cons, List.prod_cons, Language.mem_mul]
  constructor
  · rintro ⟨cs, hcs, ds, hds, rfl⟩
    exact ⟨cs, ds, hcs, hds, rfl⟩
  · rintro ⟨cs, ds, hcs, hds, rfl⟩
    exact ⟨cs, hcs, ds, hds, rfl⟩

theorem nil_notMem_spelling_cons (i : Item) (items : List Item) : [] ∉ spelling (i :: items) := by
  intro h
  obtain ⟨cs, ds, hcs, -, happend⟩ := mem_spelling_cons_iff.mp h
  obtain ⟨rfl, -⟩ := List.append_eq_nil_iff.mp happend.symm
  exact i.nil_notMem_spelling hcs

/-- No bytes are the bytes of two lists of items. -/
theorem spelling_unique {items items' : List Item} {bs : List UInt8} (h : bs ∈ spelling items)
    (h' : bs ∈ spelling items') : items = items' := by
  induction items generalizing items' bs with
  | nil =>
    obtain rfl : bs = [] := h
    cases items' with
    | nil => rfl
    | cons i' items' => exact absurd h' (nil_notMem_spelling_cons i' items')
  | cons i items ih =>
    cases items' with
    | nil =>
      obtain rfl : bs = [] := h'
      exact absurd h (nil_notMem_spelling_cons i items)
    | cons i' items' =>
      obtain ⟨cs, ds, hcs, hds, rfl⟩ := mem_spelling_cons_iff.mp h
      obtain ⟨cs', ds', hcs', hds', happend⟩ := mem_spelling_cons_iff.mp h'
      obtain ⟨rfl, rfl⟩ := Item.spelling_unique hcs hcs' happend
      rw [ih hds hds']

/-! ## Reading an item -/

section

open Decode Pickle

variable {table : NameTable} {found : Attributes} {a : Nat} {i : Item} {bs rest : List UInt8}

theorem item_cons {b : UInt8} {kind : Attribute} (h : Attribute.ofByte? b = some kind) :
    item table found ⟨a, b :: rest⟩ = (if kind = Attribute.sourceFile then do
        let name ← liftName (table.lookupSimple ⟨← lift nat⟩)
        return { found with sourceFile := some name.text }
      else return found.mark kind) ⟨a + 1, rest⟩ := by
  have hbyte : lift byte ⟨a, b :: rest⟩ = .ok b ⟨a + 1, rest⟩ := rfl
  rw [item, bind_apply_position, bind_of_eq_ok hbyte, h]
  cases kind <;> rfl

/-- An item is taken to its last byte, whether it is in order or not. -/
theorem item_append (h : bs ∈ i.spelling) : item table found ⟨a, bs ++ rest⟩ =
    liftName (i.update table found) ⟨a + bs.length, rest⟩ := by
  cases i with
  | flag kind hkind =>
    obtain rfl : bs = [kind.toByte] := h
    rw [List.singleton_append, item_cons (Attribute.ofByte?_eq_some_iff.mpr rfl), if_neg hkind]
    rfl
  | sourceFile ref =>
    obtain ⟨size, hsize, rfl⟩ := h
    have hnat : lift nat ⟨a + 1, size ++ rest⟩ = .ok ref.number ⟨a + 1 + size.length, rest⟩ :=
      (reads_lift Reads.nat).run hsize rfl
    rw [List.cons_append, item_cons (Attribute.ofByte?_eq_some_iff.mpr rfl), if_pos rfl,
      bind_of_eq_ok hnat, List.length_cons, Nat.add_right_comm a, Item.update]
    cases table.lookupSimple ref <;> rfl

/-! ## Items that are not in order -/

/-- The bytes from the address `a` on do not begin with an item that is in order, and the fault says
why. -/
inductive Offence (table : NameTable) (a : Nat) : List UInt8 → Pickle.Fault → Prop
  | unknown {b : UInt8} {rest : List UInt8} (h : Attribute.ofByte? b = none) :
      Offence table a (b :: rest) (.invalidSection Section.attributes (.unknownAttribute b a))
  /-- The bytes end before the number of the reference does. -/
  | cutOff {rest : List UInt8} (h : stops .unsigned rest = ∅) :
      Offence table a (Attribute.sourceFile.toByte :: rest)
        (.decode (.unexpectedEnd (a + 1 + rest.length)))
  | tooLarge {rest : List UInt8} {n : Nat} (h : IsLeast (stops .unsigned rest) n)
      (hlarge : 2 ^ 32 ≤ value .unsigned (rest.take n)) :
      Offence table a (Attribute.sourceFile.toByte :: rest) (.decode (.numberOverflow (a + 1)))
  | noEntry {ref : NameRef} {size rest : List UInt8} (hsize : size ∈ ref.spelling)
      (h : table.entries[ref.index]? = none) :
      Offence table a (Attribute.sourceFile.toByte :: (size ++ rest))
        (.name (.noEntry ref table.size))
  | notSimple {ref : NameRef} {path : QualifiedName} {size rest : List UInt8}
      (hsize : size ∈ ref.spelling) (h : table.entries[ref.index]? = some (.qualified path)) :
      Offence table a (Attribute.sourceFile.toByte :: (size ++ rest)) (.name (.notSimple ref path))

theorem Offence.ne_nil {e : Pickle.Fault} (h : Offence table a bs e) : bs ≠ [] := by
  rintro rfl
  cases h

private theorem item_sourceFile_of_error {e : TreePickle.Fault} {c : Cursor}
    (h : nat ⟨a + 1, rest⟩ = .error e c) :
    item table found ⟨a, Attribute.sourceFile.toByte :: rest⟩ = .error (.decode e) c := by
  rw [item_cons (Attribute.ofByte?_eq_some_iff.mpr rfl), if_pos rfl]
  exact bind_of_eq_error (mapError_eq_error_iff.mpr ⟨e, h, rfl⟩)

private theorem nat_of_large {n : Nat} {c : Cursor} (h : IsLeast (stops .unsigned c.ahead) n)
    (hlarge : 2 ^ 32 ≤ value .unsigned (c.ahead.take n)) :
    nat c = .error (.numberOverflow c.position) (c.drop n) := by
  have hnumber := number_of_isLeast_stops h
  cases hfits : Kind.unsigned.fits (value .unsigned (c.ahead.take n)) with
  | false =>
    rw [hfits] at hnumber
    exact completes_nat.of_error hnumber
  | true =>
    rw [hfits] at hnumber
    exact completes_nat.of_eq_none hnumber (if_neg (Int.not_lt.mpr hlarge))

theorem Offence.item_eq_error {e : Pickle.Fault} (h : Offence table a bs e) (found : Attributes) :
    ∃ c, item table found ⟨a, bs⟩ = .error e c := by
  cases h with
  | @unknown b rest h =>
    have hbyte : lift byte ⟨a, b :: rest⟩ = .ok b ⟨a + 1, rest⟩ := rfl
    rw [item, bind_apply_position, bind_of_eq_ok hbyte, h]
    exact ⟨_, rfl⟩
  | @cutOff rest h =>
    exact ⟨_, item_sourceFile_of_error (completes_nat.of_error (number_of_stops_eq_empty h))⟩
  | @tooLarge rest n h hlarge => exact ⟨_, item_sourceFile_of_error (nat_of_large h hlarge)⟩
  | @noEntry ref size rest hsize h =>
    have hitem : _ ∈ (Item.sourceFile ref).spelling := ⟨size, hsize, rfl⟩
    rw [← List.cons_append, item_append hitem, Item.update, NameTable.lookupSimple_eq, h]
    exact ⟨_, rfl⟩
  | @notSimple ref path size rest hsize h =>
    have hitem : _ ∈ (Item.sourceFile ref).spelling := ⟨size, hsize, rfl⟩
    rw [← List.cons_append, item_append hitem, Item.update, NameTable.lookupSimple_eq, h]
    exact ⟨_, rfl⟩

/-- Bytes begin with a reference, or they end before a number does, or it is too large for one. -/
private theorem exists_ref_or (bs : List UInt8) :
    (∃ (ref : NameRef) (size rest : List UInt8), size ∈ ref.spelling ∧ bs = size ++ rest) ∨
      stops .unsigned bs = ∅ ∨
        ∃ n, IsLeast (stops .unsigned bs) n ∧ 2 ^ 32 ≤ value .unsigned (bs.take n) := by
  rcases (stops .unsigned bs).eq_empty_or_nonempty with hempty | hne
  · exact .inr (.inl hempty)
  · obtain ⟨n, hn⟩ : ∃ n, IsLeast (stops .unsigned bs) n :=
      ⟨_, Nat.sInf_mem hne, fun _ hm ↦ Nat.sInf_le hm⟩
    by_cases hlarge : 2 ^ 32 ≤ value .unsigned (bs.take n)
    · exact .inr (.inr ⟨n, hn, hlarge⟩)
    · have hlt : value .unsigned (bs.take n) < 2 ^ 32 := Int.lt_of_not_ge hlarge
      have hfits : Kind.unsigned.fits (value .unsigned (bs.take n)) = true :=
        Kind.fits_unsigned_iff.mpr ⟨value_unsigned_nonneg _, by omega⟩
      have hnumber := number_of_isLeast_stops (c := ⟨0, bs⟩) hn
      rw [hfits] at hnumber
      have hnat := completes_nat.of_eq_some hnumber (if_pos hlt)
      obtain ⟨size, hsize, happend, -⟩ := (Reads.nat ⟨0, bs⟩ _ _ rfl).mp hnat
      exact .inl ⟨⟨_⟩, size, _, hsize, happend⟩

/-- Bytes begin with an item that is in order, or with one that is not. -/
theorem exists_item_or_offence (table : NameTable) (a : Nat) (hbs : bs ≠ []) :
    (∃ i cs rest, cs ∈ Item.spelling i ∧ i.IsValid table ∧ bs = cs ++ rest) ∨
      ∃ e, Offence table a bs e := by
  obtain ⟨b, rest, rfl⟩ := List.exists_cons_of_ne_nil hbs
  cases hkind : Attribute.ofByte? b with
  | none => exact .inr ⟨_, .unknown hkind⟩
  | some kind =>
    obtain rfl := Attribute.ofByte?_eq_some_iff.mp hkind
    by_cases hflag : kind = .sourceFile
    · subst hflag
      rcases exists_ref_or rest with ⟨ref, size, rest, hsize, rfl⟩ | hempty | ⟨n, hn, hlarge⟩
      · cases hentry : table.entries[ref.index]? with
        | none => exact .inr ⟨_, .noEntry hsize hentry⟩
        | some name =>
          cases name with
          | simple name =>
            exact .inl ⟨.sourceFile ref, _ :: size, rest, ⟨size, hsize, rfl⟩,
              Item.isValid_sourceFile_iff.mpr ⟨name, hentry⟩, rfl⟩
          | qualified path => exact .inr ⟨_, .notSimple hsize hentry⟩
      · exact .inr ⟨_, .cutOff hempty⟩
      · exact .inr ⟨_, .tooLarge hn hlarge⟩
    · exact .inl ⟨.flag kind hflag, _, rest, rfl, Item.isValid_flag kind hflag, rfl⟩

/-! ## All items -/

theorem advances_item (table : NameTable) (found : Attributes) : Advances (item table found) := by
  rintro ⟨a, bs⟩ found' c' h
  cases bs with
  | nil => cases h
  | cons b bs =>
    rcases exists_item_or_offence table a (List.cons_ne_nil b bs) with
      ⟨i, cs, rest, hcs, -, happend⟩ | ⟨e, he⟩
    · rw [happend, item_append hcs] at h
      cases hupdate : i.update table found with
      | error e =>
        rw [hupdate] at h
        cases h
      | ok found₁ =>
        rw [hupdate] at h
        cases h
        exact Nat.lt_add_of_pos_right (i.length_pos_of_mem_spelling hcs)
    · obtain ⟨c, hc⟩ := he.item_eq_error found
      cases hc.symm.trans h

variable {items : List Item} {found' : Attributes} {stop : Nat}

/-- One round takes one item. -/
private theorem iterateUntil_append (h : bs ∈ i.spelling) (hlt : a < stop) :
    iterateUntil stop (item table) found ⟨a, bs ++ rest⟩ =
      (liftName (i.update table found) >>= iterateUntil stop (item table))
        ⟨a + bs.length, rest⟩ := by
  rw [iterateUntil_eq (advances_item table), if_pos hlt]
  cases hupdate : i.update table found with
  | ok found₁ => exact bind_of_eq_ok (by rw [item_append h, hupdate]; rfl)
  | error e => exact bind_of_eq_error (by rw [item_append h, hupdate]; rfl)

/-- Items whose references can be looked up are taken, and what they say is kept. A reference that
cannot be looked up ends the reading. -/
theorem iterateUntil_append_items (table : NameTable) (found : Attributes) (rest : List UInt8)
    (h : bs ∈ spelling items) (hstop : a + bs.length ≤ stop) :
    match items.foldlM (Item.update table) found with
    | .ok found' => iterateUntil stop (item table) found ⟨a, bs ++ rest⟩ =
        iterateUntil stop (item table) found' ⟨a + bs.length, rest⟩
    | .error e =>
        ∃ c, iterateUntil stop (item table) found ⟨a, bs ++ rest⟩ = .error (.name e) c := by
  induction items generalizing found a bs with
  | nil =>
    obtain rfl : bs = [] := h
    rfl
  | cons i items ih =>
    obtain ⟨cs, ds, hcs, hds, rfl⟩ := mem_spelling_cons_iff.mp h
    rw [List.length_append, ← Nat.add_assoc] at hstop ⊢
    have hpos := i.length_pos_of_mem_spelling hcs
    rw [List.append_assoc, iterateUntil_append hcs (by omega), List.foldlM_cons]
    cases i.update table found with
    | ok found₁ => exact ih found₁ hds hstop
    | error e => exact ⟨_, rfl⟩

end

/-! ## What items say -/

/-- What is known from all items together. Each kind is known of if there is an item of it, and the
source file is the one of the last reference. -/
structure Describes (table : NameTable) (items : List Item) (found : Attributes) : Prop where
  has_iff (kind : Attribute) : found.has kind = true ↔ ∃ i ∈ items, i.kind = kind
  sourceFile_eq_some_iff (text : String) : found.sourceFile = some text ↔
    ∃ ref name, (items.filterMap Item.ref?).getLast? = some ref ∧
      table.entries[ref.index]? = some (.simple name) ∧ text = name.text

/-- The same kinds of items, and the same references in the same order. -/
structure SaySame (items items' : List Item) : Prop where
  kind_iff (kind : Attribute) : (∃ i ∈ items, i.kind = kind) ↔ ∃ i ∈ items', i.kind = kind
  filterMap_ref?_eq : items.filterMap Item.ref? = items'.filterMap Item.ref?

section

variable {table : NameTable} {items items' : List Item} {found found' : Attributes}

theorem Describes.unique (h : Describes table items found) (h' : Describes table items found') :
    found = found' := by
  refine ext_has (fun kind ↦ ?_) (Option.ext fun text ↦ ?_)
  · rw [Bool.eq_iff_iff, h.has_iff, h'.has_iff]
  · rw [h.sourceFile_eq_some_iff, h'.sourceFile_eq_some_iff]

theorem Describes.congr (h : Describes table items found) (hsame : SaySame items items') :
    Describes table items' found where
  has_iff kind := (h.has_iff kind).trans (hsame.kind_iff kind)
  sourceFile_eq_some_iff text := by
    rw [← hsame.filterMap_ref?_eq]
    exact h.sourceFile_eq_some_iff text

theorem Item.update_sourceFile_eq_ok_iff {ref : NameRef} :
    (sourceFile ref).update table found = .ok found' ↔
      ∃ name, table.entries[ref.index]? = some (.simple name) ∧
        { found with sourceFile := some name.text } = found' := by
  rw [update, NameTable.lookupSimple_eq]
  rcases table.entries[ref.index]? with _ | name | path
  · exact iff_of_false nofun nofun
  · constructor
    · intro h
      exact ⟨name, rfl, Except.ok.inj h⟩
    · rintro ⟨_, ⟨⟩, rfl⟩
      rfl
  · exact iff_of_false nofun nofun

theorem Item.exists_update_eq_ok_iff {i : Item} :
    (∃ found', i.update table found = .ok found') ↔ i.IsValid table := by
  cases i with
  | flag kind h => exact iff_of_true ⟨_, rfl⟩ (isValid_flag kind h)
  | sourceFile ref =>
    simp only [update_sourceFile_eq_ok_iff, isValid_sourceFile_iff]
    rw [exists_comm]
    exact exists_congr fun name ↦ by simp

theorem exists_foldlM_update_eq_ok (h : ∀ i ∈ items, i.IsValid table) (found : Attributes) :
    ∃ found', items.foldlM (Item.update table) found = .ok found' := by
  induction items generalizing found with
  | nil => exact ⟨found, rfl⟩
  | cons i items ih =>
    rw [List.forall_mem_cons] at h
    obtain ⟨found₁, h₁⟩ := Item.exists_update_eq_ok_iff.mpr h.1
    rw [List.foldlM_cons, h₁]
    exact ih h.2 found₁

/-- One more item. -/
theorem Describes.update (h : Describes table items found) {i : Item}
    (hi : i.update table found = .ok found') : Describes table (items ++ [i]) found' := by
  cases i with
  | flag kind hkind =>
    obtain rfl : found.mark kind = found' := Except.ok.inj hi
    refine ⟨fun kind' ↦ ?_, fun text ↦ ?_⟩
    · rw [has_mark hkind, h.has_iff]
      simp [or_and_right, exists_or, Item.kind]
    · rw [sourceFile_mark, h.sourceFile_eq_some_iff]
      simp [Item.ref?]
  | sourceFile ref =>
    obtain ⟨name, hname, rfl⟩ := Item.update_sourceFile_eq_ok_iff.mp hi
    refine ⟨fun kind ↦ ?_, fun text ↦ ?_⟩
    · have hkinds : (∃ i ∈ items ++ [.sourceFile ref], i.kind = kind) ↔
          found.has kind = true ∨ .sourceFile = kind := by
        rw [h.has_iff]
        simp [or_and_right, exists_or, Item.kind]
      rw [hkinds]
      cases kind <;> simp [has]
    · simp [Item.ref?, hname, eq_comm]

/-- What items say one after the other describes them. -/
theorem describes_of_foldlM_update (h : items.foldlM (Item.update table) {} = .ok found) :
    (∀ i ∈ items, i.IsValid table) ∧ Describes table items found := by
  induction items using List.reverseRecOn generalizing found with
  | nil =>
    obtain rfl : ({} : Attributes) = found := Except.ok.inj h
    refine ⟨by simp, fun kind ↦ ?_, fun text ↦ ?_⟩
    · cases kind <;> simp [has]
    · simp
  | append_singleton items i ih =>
    simp only [List.foldlM_append, List.foldlM_cons, List.foldlM_nil, bind_pure] at h
    cases hitems : items.foldlM (Item.update table) {} with
    | error e =>
      rw [hitems] at h
      cases h
    | ok found₁ =>
      rw [hitems] at h
      obtain ⟨hvalid, hdescribes⟩ := ih hitems
      refine ⟨?_, hdescribes.update h⟩
      rw [List.forall_mem_append, List.forall_mem_singleton]
      exact ⟨hvalid, Item.exists_update_eq_ok_iff.mp ⟨_, h⟩⟩

/-- Whether and why a look-up fails is known from the references alone. -/
theorem foldlM_update_eq_error_iff {e : NameTable.Fault} :
    items.foldlM (Item.update table) found = .error e ↔
      (items.filterMap Item.ref?).mapM table.lookupSimple = .error e := by
  have hfault {α : Type} (e' : NameTable.Fault) : (.error e' : Except _ α) = .error e ↔ e' = e :=
    iff_of_eq (Except.error.injEq e' e)
  induction items generalizing found with
  | nil => exact iff_of_false nofun nofun
  | cons i items ih =>
    cases i with
    | flag kind h => exact ih
    | sourceFile ref =>
      rw [List.foldlM_cons, Item.update, List.filterMap_cons_some (f := Item.ref?) rfl,
        List.mapM_cons]
      cases table.lookupSimple ref with
      | error e' => exact (hfault e').trans (hfault e').symm
      | ok name =>
        refine ih.trans ?_
        cases (items.filterMap Item.ref?).mapM table.lookupSimple with
        | ok names => exact iff_of_false nofun nofun
        | error e' => exact (hfault e').trans (hfault e').symm

end

/-! ## Payloads -/

section

open Decode

variable {table : NameTable} {items items' : List Item} {found : Attributes} {r r' : Reader}
  {bs rest : List UInt8}

theorem decode_of_foldlM_eq_error {e : NameTable.Fault} (hbs : r.cursor.ahead ∈ spelling items)
    (h : items.foldlM (Item.update table) {} = .error e) :
    sectionDecoder.decode table r = .error (.name e) := by
  have hitems := iterateUntil_append_items table {} [] hbs (le_refl r.cursor.stop)
  rw [h, List.append_nil] at hitems
  exact Reader.eval_eq_error_iff.mpr hitems

theorem decode_of_foldlM_eq_ok (hbs : r.cursor.ahead ∈ spelling items)
    (h : items.foldlM (Item.update table) {} = .ok found) :
    sectionDecoder.decode table r = .ok found := by
  have hitems := iterateUntil_append_items table {} [] hbs (le_refl r.cursor.stop)
  rw [h, List.append_nil] at hitems
  have hend : iterateUntil r.cursor.stop (item table) found ⟨r.cursor.stop, []⟩ =
      .ok found ⟨r.cursor.stop, []⟩ := by
    rw [iterateUntil_eq (advances_item table), if_neg (Nat.lt_irrefl _)]
  exact Reader.eval_eq_ok_iff.mpr ⟨_, hitems.trans hend⟩

theorem exists_decode_eq_ok (hbs : r.cursor.ahead ∈ spelling items)
    (hvalid : ∀ i ∈ items, i.IsValid table) :
    ∃ found, sectionDecoder.decode table r = .ok found ∧ Describes table items found := by
  obtain ⟨found, hfound⟩ := exists_foldlM_update_eq_ok hvalid {}
  exact ⟨found, decode_of_foldlM_eq_ok hbs hfound, (describes_of_foldlM_update hfound).2⟩

/-- The items in front of the first one that is not in order make no difference. -/
theorem Offence.decode_eq_error {e : Pickle.Fault} (hahead : r.cursor.ahead = bs ++ rest)
    (hbs : bs ∈ spelling items) (hvalid : ∀ i ∈ items, i.IsValid table)
    (h : Offence table (r.position + bs.length) rest e) :
    sectionDecoder.decode table r = .error e := by
  obtain ⟨found, hfound⟩ := exists_foldlM_update_eq_ok hvalid {}
  have hpos : 0 < rest.length := List.length_pos_iff.mpr h.ne_nil
  have hlt : r.position + bs.length < r.cursor.stop := by
    rw [Cursor.stop, hahead, List.length_append]
    exact Nat.add_lt_add_left (Nat.lt_add_of_pos_right hpos) _
  have hitems := iterateUntil_append_items table {} rest hbs hlt.le
  rw [hfound, ← hahead] at hitems
  obtain ⟨c, hc⟩ := h.item_eq_error found
  have hend : iterateUntil r.cursor.stop (item table) found ⟨r.position + bs.length, rest⟩ =
      .error e c := by
    rw [iterateUntil_eq (advances_item table), if_pos hlt]
    exact bind_of_eq_error hc
  exact Reader.eval_eq_error_iff.mpr ⟨c, hitems.trans hend⟩

/-- Every payload is made of items that are in order, up to its end or to one that is not. -/
theorem exists_items (table : NameTable) (a : Nat) (bs : List UInt8) :
    ∃ items cs rest, bs = cs ++ rest ∧ cs ∈ spelling items ∧ (∀ i ∈ items, i.IsValid table) ∧
      (rest = [] ∨ ∃ e, Offence table (a + cs.length) rest e) := by
  induction hn : bs.length using Nat.strong_induction_on generalizing a bs with
  | _ n ih =>
    by_cases hbs : bs = []
    · exact ⟨[], [], [], hbs, Language.nil_mem_one, by simp, .inl rfl⟩
    rcases exists_item_or_offence table a hbs with ⟨i, cs, rest, hcs, hi, rfl⟩ | he
    · have hpos := i.length_pos_of_mem_spelling hcs
      rw [List.length_append] at hn
      obtain ⟨items, ds, rest, rfl, hds, hitems, hrest⟩ := ih _ (by omega) (a + cs.length) rest rfl
      refine ⟨i :: items, cs ++ ds, rest, (List.append_assoc _ _ _).symm,
        mem_spelling_cons_iff.mpr ⟨cs, ds, hcs, hds, rfl⟩, ?_, ?_⟩
      · exact List.forall_mem_cons.mpr ⟨hi, hitems⟩
      · rwa [List.length_append, ← Nat.add_assoc]
    · exact ⟨[], [], bs, rfl, Language.nil_mem_one, by simp, .inr he⟩

/-- Either all items are in order and describe the outcome, or the first one that is not is
refused. -/
private theorem exists_decode_eq (table : NameTable) (r : Reader) :
    (∃ items found, r.cursor.ahead ∈ spelling items ∧ (∀ i ∈ items, i.IsValid table) ∧
      Describes table items found ∧ sectionDecoder.decode table r = .ok found) ∨
    ∃ items bs rest e, r.cursor.ahead = bs ++ rest ∧ bs ∈ spelling items ∧
      (∀ i ∈ items, i.IsValid table) ∧ Offence table (r.position + bs.length) rest e ∧
        sectionDecoder.decode table r = .error e := by
  obtain ⟨items, bs, rest, hahead, hbs, hvalid, rfl | ⟨e, he⟩⟩ :=
    exists_items table r.position r.cursor.ahead
  · rw [List.append_nil] at hahead
    rw [← hahead] at hbs
    obtain ⟨found, hfound, hdescribes⟩ := exists_decode_eq_ok hbs hvalid
    exact .inl ⟨items, found, hbs, hvalid, hdescribes, hfound⟩
  · have herror := he.decode_eq_error hahead hbs hvalid
    exact .inr ⟨items, bs, rest, e, hahead, hbs, hvalid, he, herror⟩

theorem decode_eq_ok_iff : sectionDecoder.decode table r = .ok found ↔
    ∃ items, r.cursor.ahead ∈ spelling items ∧ (∀ i ∈ items, i.IsValid table) ∧
      Describes table items found := by
  constructor
  · intro h
    rcases exists_decode_eq table r with
      ⟨items, found', hbs, hvalid, hdescribes, hfound'⟩ | ⟨_, _, _, e, _, _, _, _, herror⟩
    · obtain rfl : found' = found := Except.ok.inj (hfound'.symm.trans h)
      exact ⟨items, hbs, hvalid, hdescribes⟩
    · cases herror.symm.trans h
  · rintro ⟨items, hbs, hvalid, hdescribes⟩
    obtain ⟨found', hfound', hdescribes'⟩ := exists_decode_eq_ok hbs hvalid
    rwa [hdescribes.unique hdescribes']

theorem decode_eq_error_iff {e : Pickle.Fault} : sectionDecoder.decode table r = .error e ↔
    ∃ items bs rest, r.cursor.ahead = bs ++ rest ∧ bs ∈ spelling items ∧
      (∀ i ∈ items, i.IsValid table) ∧ Offence table (r.position + bs.length) rest e := by
  constructor
  · intro h
    rcases exists_decode_eq table r with
      ⟨_, found, _, _, _, hfound⟩ | ⟨items, bs, rest, e', hahead, hbs, hvalid, he, herror⟩
    · cases hfound.symm.trans h
    · obtain rfl : e' = e := Except.error.inj (herror.symm.trans h)
      exact ⟨items, bs, rest, hahead, hbs, hvalid, he⟩
  · rintro ⟨items, bs, rest, hahead, hbs, hvalid, he⟩
    exact he.decode_eq_error hahead hbs hvalid

/-- Payloads whose items say the same are decoded in the same way. -/
theorem decode_eq_of_saySame (hbs : r.cursor.ahead ∈ spelling items)
    (hbs' : r'.cursor.ahead ∈ spelling items') (h : SaySame items items') :
    sectionDecoder.decode table r = sectionDecoder.decode table r' := by
  have herror (e : NameTable.Fault) : items.foldlM (Item.update table) {} = .error e ↔
      items'.foldlM (Item.update table) {} = .error e := by
    rw [foldlM_update_eq_error_iff, foldlM_update_eq_error_iff, h.filterMap_ref?_eq]
  cases hitems : items.foldlM (Item.update table) {} with
  | error e =>
    have hitems' := (herror e).mp hitems
    rw [decode_of_foldlM_eq_error hbs hitems, decode_of_foldlM_eq_error hbs' hitems']
  | ok found =>
    cases hitems' : items'.foldlM (Item.update table) {} with
    | error e => cases hitems.symm.trans ((herror e).mpr hitems')
    | ok found' =>
      have hdescribes := (describes_of_foldlM_update hitems).2.congr h
      obtain rfl := hdescribes.unique (describes_of_foldlM_update hitems').2
      rw [decode_of_foldlM_eq_ok hbs hitems, decode_of_foldlM_eq_ok hbs' hitems']

/-- **Items.** A payload is decoded if it is made of items that are in order, and they describe the
outcome; there is only one way to take it for items. Otherwise it is refused for the first item that
is not in order. The order of the flags, and how often each is given, makes no difference. -/
theorem decode_of_items (table : NameTable) (r : Reader) :
    (∀ found, sectionDecoder.decode table r = .ok found ↔
      ∃ items, r.cursor.ahead ∈ spelling items ∧ (∀ i ∈ items, i.IsValid table) ∧
        Describes table items found) ∧
    (∀ e, sectionDecoder.decode table r = .error e ↔
      ∃ items bs rest, r.cursor.ahead = bs ++ rest ∧ bs ∈ spelling items ∧
        (∀ i ∈ items, i.IsValid table) ∧ Offence table (r.position + bs.length) rest e) ∧
    (∀ items items', r.cursor.ahead ∈ spelling items → r.cursor.ahead ∈ spelling items' →
      items = items') ∧
    ∀ (r' : Reader) (items items' : List Item), r.cursor.ahead ∈ spelling items →
      r'.cursor.ahead ∈ spelling items' → SaySame items items' →
        sectionDecoder.decode table r = sectionDecoder.decode table r' :=
  ⟨fun _ ↦ decode_eq_ok_iff, fun _ ↦ decode_eq_error_iff, fun _ _ ↦ spelling_unique,
    fun _ _ _ ↦ decode_eq_of_saySame⟩

/-- The second byte 128 is a reference and no item, and the flag in front of it can as well be left
out. A byte that stands for nothing is found behind them. -/
theorem decode_of_items_sourceFile :
    let table : NameTable := ⟨#[.simple (.term "A.scala")]⟩
    let reader (bs : List UInt8) : Reader := ⟨7, bs, ⟨7, bs⟩⟩
    let found : Attributes := { explicitNulls := true, sourceFile := some "A.scala" }
    sectionDecoder.decode table (reader [128, 128, 2]) = .ok found ∧
      sectionDecoder.decode table (reader [2, 128, 128, 2]) = .ok found ∧
      sectionDecoder.decode table (reader [128, 128, 2, 9]) =
        .error (.invalidSection Pickle.Section.attributes (.unknownAttribute 9 10)) := by
  intro table reader found
  let flag : Item := .flag .explicitNulls (by decide)
  let source : Item := .sourceFile ⟨0⟩
  have hflag : [2] ∈ flag.spelling := rfl
  have hsource : [128, 128] ∈ source.spelling :=
    ⟨[128], ⟨(stopped_cons_of_isLast rfl).mpr rfl, by decide, by decide⟩, rfl⟩
  have hlast : [2] ∈ spelling [flag] := mem_spelling_cons_iff.mpr ⟨_, [], hflag, rfl, rfl⟩
  have hshort : [128, 128, 2] ∈ spelling [source, flag] :=
    mem_spelling_cons_iff.mpr ⟨_, _, hsource, hlast, rfl⟩
  have hlong : [2, 128, 128, 2] ∈ spelling [flag, source, flag] :=
    mem_spelling_cons_iff.mpr ⟨_, _, hflag, hshort, rfl⟩
  have hvalid : ∀ i ∈ [source, flag], i.IsValid table := by
    rw [List.forall_mem_cons, List.forall_mem_singleton]
    exact ⟨Item.isValid_sourceFile_iff.mpr ⟨_, rfl⟩, Item.isValid_flag _ _⟩
  have hsame : SaySame [source, flag] [flag, source, flag] :=
    ⟨fun kind ↦ by cases kind <;> decide, rfl⟩
  have hdescribes : Describes table [source, flag] found := by
    refine ⟨fun kind ↦ by cases kind <;> decide, fun text ↦ ?_⟩
    constructor
    · rintro ⟨⟩
      exact ⟨⟨0⟩, .term "A.scala", rfl, rfl, rfl⟩
    · rintro ⟨_, _, ⟨⟩, ⟨⟩, rfl⟩
      rfl
  obtain ⟨hok, -, -, hagree⟩ := decode_of_items table (reader [128, 128, 2])
  have hfound := (hok found).mpr ⟨_, hshort, hvalid, hdescribes⟩
  refine ⟨hfound, (hagree (reader _) _ _ hshort hlong hsame).symm.trans hfound, ?_⟩
  obtain ⟨-, herror, -, -⟩ := decode_of_items table (reader [128, 128, 2, 9])
  exact (herror _).mpr ⟨_, _, [9], rfl, hshort, hvalid, .unknown (by decide)⟩

end

end Attributes

end TreePickle
