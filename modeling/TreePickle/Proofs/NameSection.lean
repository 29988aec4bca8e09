import TreePickle.Proofs.RecordReading

/-!
# What is read as a name section

Records are read one after the other, each with the table of the names before it. So the section is
read from the spellings of lists of records, and the table is the one that the records extend the
empty table to: `Pickle.reads_nameSection`.

## Tables of records

`NameTable.extend` adds the names of records one by one, and each record sees what references can
be to at that point, `NameTable.known`. As long as there is a number for each entry, that is the
whole table, and the names are those that the records denote as a list, `Record.denoteAll`. Beyond
that number the table still grows, but references reach only a part of it, and the description by
`extend` still holds. So the bound stands in `NameTable.extend_empty` and not in what is read.

## The end of the section

The records are the rounds of a repetition whose state is the table. A round may not end behind the
section, since a record compares its end with that of the section before its payload is read; so the
last one ends exactly there. That turns rounds with addresses into a product of spellings without,
`Pickle.rounds_entrySpells_iff`.
-/

namespace TreePickle

/-! ## Tables of records -/

namespace NameTable

/-- The table with the names of more records. -/
def extend (t : NameTable) : List Record → Option NameTable
  | [] => some t
  | r :: records => do (t.add (← r.denote t.known)).extend records

theorem toList_entries_add (t : NameTable) (n : Name) :
    (t.add n).entries.toList = t.entries.toList ++ [n] := Array.toList_push

theorem size_add (t : NameTable) (n : Name) : (t.add n).size = t.size + 1 := Array.size_push _

theorem extend_eq {t : NameTable} {records : List Record} (h : t.size + records.length ≤ 2 ^ 32) :
    t.extend records =
      (Record.denoteAll t.entries.toList records).map fun names ↦ ⟨names.toArray⟩ := by
  induction records generalizing t with
  | nil => rfl
  | cons r records ih =>
    rw [List.length_cons] at h
    rw [extend, Record.denoteAll, known_eq (by omega)]
    cases r.denote t.entries.toList with
    | none => rfl
    | some n =>
      have hrest := @ih (t.add n) (by rw [size_add]; omega)
      rwa [toList_entries_add] at hrest

theorem extend_empty {records : List Record} (h : records.length < 2 ^ 32) :
    empty.extend records = (Record.denoteAll [] records).map fun names ↦ ⟨names.toArray⟩ :=
  extend_eq (by simpa [size, empty] using h.le)

theorem known_mk {names : List Name} (h : names.length < 2 ^ 32) :
    (⟨names.toArray⟩ : NameTable).known = names :=
  known_eq (by rwa [size, List.size_toArray])

end NameTable

namespace Pickle

open Base128 Decode

variable {limit stop : Nat}

/-! ## The records of a section -/

/-- A record that extends one table to another. -/
def EntrySpells (last : Nat) (t : NameTable) (a : Nat) (t' : NameTable) (bs : List UInt8) : Prop :=
  ∃ n, RecordSpells last t.known a n bs ∧ t' = t.add n

theorem not_entrySpells_nil (t : NameTable) (a : Nat) (t' : NameTable) :
    ¬EntrySpells stop t a t' [] :=
  fun ⟨_, ⟨⟨r, hr, _⟩, _⟩, _⟩ ↦ r.nil_notMem_spelling hr

theorem rounds_entrySpells_iff {a : Nat} {t t' : NameTable} {bs : List UInt8}
    (hstop : a + bs.length = stop) (hlt : stop < Address.bound) :
    Rounds stop (EntrySpells stop) a t t' bs ↔
      ∃ records : List Record, bs ∈ (records.map Record.spelling).prod ∧
        t.extend records = some t' := by
  constructor
  · intro h
    induction h with
    | ended _ => exact ⟨[], Language.nil_mem_one, rfl⟩
    | next _ hs _ ih =>
      obtain ⟨n, ⟨⟨r, hr, hn⟩, -⟩, rfl⟩ := hs
      rw [List.length_append, ← Nat.add_assoc] at hstop
      obtain ⟨records, hrecords, hextend⟩ := ih hstop
      refine ⟨r :: records, Language.append_mem_mul hr hrecords, ?_⟩
      rw [NameTable.extend, hn]
      exact hextend
  · rintro ⟨records, hrecords, hextend⟩
    -- no record is empty, so that the next one begins in front of `stop`
    induction records generalizing a t bs with
    | nil =>
      cases hextend
      obtain rfl : bs = [] := hrecords
      exact .ended hstop.ge
    | cons r records ih =>
      obtain ⟨b, hb, cs, hcs, rfl⟩ := Language.mem_mul.mp hrecords
      obtain ⟨n, hn, hrest⟩ := Option.bind_eq_some_iff.mp hextend
      have htwo := Record.two_le_length hb
      rw [List.length_append, ← Nat.add_assoc] at hstop
      exact .next (by omega) ⟨n, ⟨⟨r, hb, hn⟩, by omega, by omega⟩, rfl⟩ (ih hstop hcs hrest)

/-- **The name section.** It is read from the records in a frame. -/
theorem reads_nameSection : Reads limit nameSection fun a t bs ↦
    (∃ records : List Record, bs ∈ framed (records.map Record.spelling).prod ∧
      NameTable.empty.extend records = some t) ∧ a + bs.length < Address.bound := by
  have hstep (stop limit : Nat) (t : NameTable) :
      Reads limit (do return t.add (← nameRecord stop t)) (EntrySpells stop t) :=
    (reads_nameRecord stop).bind_pure t.add
  have htable (stop : Nat) : Reads limit (iterateUntil stop _ NameTable.empty) _ :=
    Reads.iterateUntil (hstep stop) not_entrySpells_nil .empty
  refine (Reads.position_bind fun start ↦ (reads_lift .frameEnd).bind fun stop ↦ Reads.stop_bind
    (Reads.guard fun _ ↦ (htable stop).endingAt)).congr fun a t bs hlimit ↦ ?_
  constructor
  · rintro ⟨stop, size, payload, ⟨count, hsize, rfl, hlt⟩, ⟨-, hrounds, hstop⟩, rfl⟩
    obtain ⟨records, hrecords, hextend⟩ := (rounds_entrySpells_iff hstop hlt).mp hrounds
    obtain rfl : payload.length = count := by omega
    rw [List.length_append, ← Nat.add_assoc]
    exact ⟨⟨records, ⟨payload, hrecords, size, hsize, rfl⟩, hextend⟩, hlt⟩
  · rintro ⟨⟨records, ⟨payload, hrecords, size, hsize, rfl⟩, hextend⟩, hlt⟩
    rw [List.length_append, ← Nat.add_assoc] at hlt hlimit
    have hbounds : ¬(a + size.length + payload.length < a ∨
        limit < a + size.length + payload.length) := by omega
    have hrounds := (rounds_entrySpells_iff rfl hlt).mpr ⟨records, hrecords, hextend⟩
    exact ⟨_, size, payload, ⟨_, hsize, rfl, hlt⟩, ⟨hbounds, hrounds, rfl⟩, rfl⟩

end Pickle

end TreePickle
