import TreePickle.Proofs.FileForm

/-!
# The parts of an accepted file

What is in front of the sections is read by one action, `Pickle.front`, and `Pickle.namesStop` is
the address behind it. A file is accepted exactly if it consists of a front and of sections up to
its end: `Pickle.decode_eq_ok_iff_parts`.

## Why a front

A front is read from its bytes whatever stands behind it, so two files with the same front have the
same header, the same names, and sections that begin at the same address. What is said about
sections, about files that are cut off or changed in a section, and about the version of a file, is
said behind a front or in front of one. The description of a front, `Pickle.FrontSpells`, is the
only thing that has to be known about headers and names there.

## How long a file can be

Nothing is asked of the length of a file here, unlike in `Pickle.decode_eq_ok_iff`. Each part that
is read ends at an address, because the end of a frame has to be one, and the last part ends where
the file does: `Pickle.length_lt_of_decode`. So an accepted file cannot be longer than there are
addresses, and the equivalence holds for all files.
-/

namespace TreePickle.Pickle

open Base128 Decode

/-! ## What is in front of the sections -/

/-- Reads the header and the names. -/
def front (reader : Version) : Decode Fault (Header × NameTable) := do
  let header ← Decode.mapError .header (Header.decode reader)
  return (header, ← nameSection)

/-- The address behind the names of a file, where its sections begin. -/
def namesStop (reader : Version) (bytes : List UInt8) : Except Fault Nat :=
  (Reader.ofBytes bytes).eval do
    let _ ← front reader
    position

/-- A header that a reader accepts, and the records of a table in a frame. -/
def FrontSpells (reader : Version) (a : Nat) (v : Header × NameTable) (bs : List UInt8) : Prop :=
  ∃ head names, bs = head ++ names ∧ (head ∈ v.1.spelling ∧ reader.accepts v.1.version = true) ∧
    (∃ records : List Record, names ∈ framed (records.map Record.spelling).prod ∧
      NameTable.empty.extend records = some v.2) ∧ a + bs.length < Address.bound

variable {reader : Version} {limit : Nat}

theorem contents_eq_front_bind : contents reader = do
    let v ← front reader
    return (v.1, v.2, ← sectionList v.2) := by
  simp only [contents, front, bind_assoc, pure_bind]

theorem reads_front : Reads limit (front reader) (FrontSpells reader) := by
  have hheader : Reads limit (Decode.mapError Fault.header (Header.decode reader)) _ :=
    (Reads.header reader).mapError _
  refine (hheader.bind fun header ↦ reads_nameSection.bind_pure (Prod.mk header)).congr
    fun a v bs _ ↦ ?_
  constructor
  · rintro ⟨header, head, names, hhead, ⟨table, ⟨hnames, hlt⟩, rfl⟩, rfl⟩
    rw [Nat.add_assoc, ← List.length_append] at hlt
    exact ⟨head, names, rfl, hhead, hnames, hlt⟩
  · rintro ⟨head, names, rfl, hhead, hnames, hlt⟩
    rw [List.length_append, ← Nat.add_assoc] at hlt
    exact ⟨v.1, head, names, hhead, ⟨v.2, ⟨hnames, hlt⟩, rfl⟩, rfl⟩

theorem namesStop_append {v : Header × NameTable} {bs : List UInt8} (h : FrontSpells reader 0 v bs)
    (rest : List UInt8) : namesStop reader (bs ++ rest) = .ok bs.length := by
  have hfront : front reader ⟨0, bs ++ rest⟩ = .ok v ⟨0 + bs.length, rest⟩ :=
    reads_front.run h rfl
  rw [Nat.zero_add] at hfront
  exact Reader.eval_eq_ok_iff.mpr ⟨_, bind_eq_ok_iff.mpr ⟨v, _, hfront, rfl⟩⟩

/-! ## Accepted files -/

/-- Sections that end before the greatest address end at an address. -/
theorem lt_bound_of_items {a last : Nat} {names : List Name} {ss : List Section} {bs : List UInt8}
    (h : Items last (SectionSpells last names) a ss bs) (ha : a < Address.bound) :
    last < Address.bound := by
  induction h with
  | ended hlast => exact Nat.lt_of_le_of_lt hlast ha
  | next _ hs _ ih => exact ih hs.2.2

/-- The length of an accepted file is an address. -/
theorem length_lt_of_decode {bytes : List UInt8} {p : Pickle} (h : decode reader bytes = .ok p) :
    bytes.length < Address.bound := by
  obtain ⟨-, -, c, hc⟩ := decode_eq_ok_iff_contents.mp h
  rw [contents_eq_front_bind] at hc
  obtain ⟨v, c₁, hfront, hrest⟩ := bind_eq_ok_iff.mp hc
  obtain ⟨ss, c₂, hsections, -⟩ := bind_eq_ok_iff.mp hrest
  obtain ⟨bs, ⟨_, _, -, -, -, hlt⟩, -, hposition⟩ := (reads_front _ c₁ v rfl).mp hfront
  obtain ⟨cs, hitems, -⟩ := (reads_sectionItems c₁ c₂ ss rfl).mp hsections
  have hstop : c₁.stop = 0 + bytes.length := (reads_front.readsAt rfl).stop_eq hfront
  have hlast := lt_bound_of_items hitems (hposition ▸ hlt)
  rwa [hstop, Nat.zero_add] at hlast

/-- **The parts of a file.** -/
theorem decode_eq_ok_iff_parts {bytes : List UInt8} {p : Pickle} :
    decode reader bytes = .ok p ↔ p.bytes = bytes ∧ p.index = indexOf p.sections ∧
      bytes.length < Address.bound ∧ ∃ front tail, bytes = front ++ tail ∧
        FrontSpells reader 0 (p.header, p.names) front ∧
        ∃ fs, SectionForm.PlacesAll p.names.known fs front.length p.sections tail := by
  constructor
  · intro h
    have hlt := length_lt_of_decode h
    obtain ⟨hbytes, hindex, haccepts, head, names, tail, rfl, hhead, hnames, hsections⟩ :=
      (decode_eq_ok_iff hlt).mp h
    refine ⟨hbytes, hindex, hlt, head ++ names, tail, (List.append_assoc _ _ _).symm, ?_, hsections⟩
    refine ⟨head, names, rfl, ⟨hhead, haccepts⟩, hnames, ?_⟩
    rw [← List.append_assoc, List.length_append] at hlt
    omega
  · rintro ⟨hbytes, hindex, hlt, _, tail, rfl, ⟨head, names, rfl, ⟨hhead, haccepts⟩, hnames, -⟩,
      hsections⟩
    exact (decode_eq_ok_iff hlt).mpr ⟨hbytes, hindex, haccepts, head, names, tail,
      List.append_assoc _ _ _, hhead, hnames, hsections⟩

/-- A file of which something can be said is accepted. -/
theorem exists_decode_eq_ok {bytes : List UInt8} {α : Type} {f : Pickle → α} {v : α}
    (h : (decode reader bytes).toOption.map f = some v) :
    ∃ p, decode reader bytes = .ok p ∧ f p = v := by
  obtain ⟨p, hp, hv⟩ := Option.map_eq_some_iff.mp h
  refine ⟨p, ?_, hv⟩
  cases hd : decode reader bytes with
  | ok q =>
    rw [hd] at hp
    exact congrArg Except.ok (Option.some_inj.mp hp)
  | error e =>
    rw [hd] at hp
    cases hp

end TreePickle.Pickle
