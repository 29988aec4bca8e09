import TreePickle.Proofs.FileForm

/-!
# The grammar of files

Three readers are nested when a file is read: one for the file, one for the list of records, one for
the payload of a record. They share a cursor that only the end of the file stops, so a reference
may be read behind the end of the record that it should belong to. That no file is accepted that
way is `Pickle.exists_decode_eq_ok_iff`: the accepted files are exactly those that split into the
parts of a `FileForm` with references in order.

## Forms of a file

An accepted file need not tell how it was written, because numbers can be spelled in many ways. But
it is spelled from some form with references in order, `FileForm.exists_formOf`, and from such a
form all its names are known: they are what the records of the form denote,
`FileForm.FormOf.exists_decode_eq_ok`. The grammar is these two without the names.

The argument is the same in both directions. What a file is read as speaks of a table and of
sections that were found; records in order denote a table, and sections with known labels are found
somewhere. So both can be put in or left out.

## How many names there are

The number of names has to be known to fit into 32 bits, since from then on references reach only a
part of the table. A record takes two bytes, so it does in a file of fewer than `2 ^ 33` bytes.
-/

namespace TreePickle

open Base128

namespace Pickle

/-- There is a number for each record of a frame, because a record takes two bytes. -/
theorem length_lt_of_mem_framed {records : List Record} {bs : List UInt8}
    (h : bs ∈ framed (records.map Record.spelling).prod) (hlt : bs.length < 2 ^ 33) :
    records.length < 2 ^ 32 := by
  obtain ⟨payload, hpayload, size, -, rfl⟩ := h
  have hle := Record.two_mul_length_le hpayload
  rw [List.length_append] at hlt
  omega

end Pickle

/-! ## The forms of a file -/

namespace FileForm

/-- A form that a file can be read as: a reader accepts its version, its references are in order,
and the file spells it. -/
def FormOf (f : FileForm) (reader : Version) (bytes : List UInt8) : Prop :=
  reader.accepts f.header.version = true ∧ f.Scoped ∧ bytes ∈ f.spelling

variable {f : FileForm} {reader : Version} {bytes : List UInt8} {p : Pickle}

/-- In a short file, there is a number for each record. -/
theorem FormOf.length_records_lt (hf : f.FormOf reader bytes) (hlt : bytes.length < 2 ^ 33) :
    f.records.length < 2 ^ 32 := by
  obtain ⟨head, -, _, hrest, rfl⟩ := Language.mem_mul.mp hf.2.2
  obtain ⟨frame, hframe, tail, -, rfl⟩ := Language.mem_mul.mp hrest
  simp only [List.length_append] at hlt
  exact Pickle.length_lt_of_mem_framed hframe (by omega)

/-- A file is read from its form, and its names are those that the records denote. -/
theorem FormOf.exists_decode_eq_ok (hf : f.FormOf reader bytes) (hcount : f.records.length < 2 ^ 32)
    (hlt : bytes.length < Address.bound) :
    ∃ p, Pickle.decode reader bytes = .ok p ∧
      Record.denoteAll [] f.records = some p.names.entries.toList := by
  obtain ⟨haccepts, ⟨hrecords, hlabels⟩, hbytes⟩ := hf
  obtain ⟨head, hhead, _, hrest, rfl⟩ := Language.mem_mul.mp hbytes
  obtain ⟨frame, hframe, tail, htail, rfl⟩ := Language.mem_mul.mp hrest
  obtain ⟨names, hnames, hlen⟩ := Record.exists_denoteAll hrecords
  obtain ⟨ss, hss⟩ := SectionForm.exists_placesAll_iff.mpr ⟨hlen ▸ hlabels, htail⟩
  have hspells : Pickle.Spells f.header ⟨names.toArray⟩ ss (head ++ (frame ++ tail)) := by
    refine ⟨head, frame, tail, rfl, hhead, ⟨f.records, hframe, ?_⟩, f.sections, ?_⟩
    · rw [NameTable.extend_empty hcount, hnames, Option.map_some]
    · rwa [NameTable.known_mk (hlen ▸ hcount)]
  exact ⟨⟨_, f.header, ⟨names.toArray⟩, ss, Pickle.indexOf ss⟩,
    (Pickle.decode_eq_ok_iff hlt).mpr ⟨rfl, rfl, haccepts, hspells⟩, hnames⟩

/-- The names of a file are those of the records of its form. -/
theorem FormOf.denoteAll_eq (hf : f.FormOf reader bytes) (hlt : bytes.length < 2 ^ 33)
    (hp : Pickle.decode reader bytes = .ok p) :
    Record.denoteAll [] f.records = some p.names.entries.toList := by
  have hcount := hf.length_records_lt hlt
  obtain ⟨q, hq, hnames⟩ := hf.exists_decode_eq_ok hcount (hlt.trans (by decide))
  rw [hp, Except.ok.injEq] at hq
  rw [hnames, hq]

/-- Every accepted file has a form. -/
theorem exists_formOf (hp : Pickle.decode reader bytes = .ok p) (hlt : bytes.length < 2 ^ 33) :
    ∃ f : FileForm, f.FormOf reader bytes := by
  obtain ⟨-, -, haccepts, head, frame, tail, rfl, hhead, ⟨records, hframe, hextend⟩, fs, hfs⟩ :=
    (Pickle.decode_eq_ok_iff (hlt.trans (by decide))).mp hp
  simp only [List.length_append] at hlt
  have hcount : records.length < 2 ^ 32 := Pickle.length_lt_of_mem_framed hframe (by omega)
  rw [NameTable.extend_empty hcount] at hextend
  obtain ⟨names, hnames, htable⟩ := Option.map_eq_some_iff.mp hextend
  obtain ⟨-, hlen, -⟩ := Record.denoteAll_eq_some hnames
  rw [List.length_nil, Nat.zero_add] at hlen
  rw [← htable, NameTable.known_mk (hlen ▸ hcount)] at hfs
  obtain ⟨hlabels, htail⟩ := SectionForm.exists_placesAll_iff.mp ⟨_, hfs⟩
  have hrecords : Record.AllScoped [] records :=
    Record.isSome_denoteAll_iff.mp (Option.isSome_of_eq_some hnames)
  exact ⟨⟨p.header, records, fs⟩, haccepts, ⟨hrecords, hlen ▸ hlabels⟩,
    Language.append_mem_mul hhead (Language.append_mem_mul hframe htail)⟩

end FileForm

/-! ## Accepted files -/

namespace Pickle

/-- **The grammar of files.** A reader accepts a file exactly if the whole of it is spelled from a
form with references in order, whose version it accepts. -/
theorem exists_decode_eq_ok_iff (reader : Version) {bytes : List UInt8}
    (h : bytes.length < 2 ^ 33) :
    (∃ p, decode reader bytes = .ok p) ↔
      ∃ f : FileForm, reader.accepts f.header.version = true ∧ f.Scoped ∧ bytes ∈ f.spelling := by
  constructor
  · rintro ⟨p, hp⟩
    exact FileForm.exists_formOf hp h
  · rintro ⟨f, hf⟩
    have hcount := FileForm.FormOf.length_records_lt hf h
    obtain ⟨p, hp, -⟩ := FileForm.FormOf.exists_decode_eq_ok hf hcount (h.trans (by decide))
    exact ⟨p, hp⟩

/-- The last record of a file may refer to the path in front of it, but not to itself. -/
theorem exists_form_and_not_exists_form :
    let file (r : UInt8) : List UInt8 := magic ++ [156, 131, 128, 129, 116] ++
      List.replicate 16 0 ++ [138, 1, 129, 65, 2, 130, 128, 128, 23, 129, r, 128, 129, 7]
    (∃ f : FileForm, Version.current.accepts f.header.version = true ∧ f.Scoped ∧
        file 129 ∈ f.spelling) ∧
      ¬∃ f : FileForm, Version.current.accepts f.header.version = true ∧ f.Scoped ∧
        file 130 ∈ f.spelling := by
  have hex {x : Except Fault Pickle} (h : x.isOk = true) : ∃ p, x = .ok p := by
    cases x with
    | ok p => exact ⟨p, rfl⟩
    | error e => cases h
  have hnot {x : Except Fault Pickle} (h : x.isOk = false) : ¬∃ p, x = .ok p := by
    rintro ⟨p, rfl⟩
    cases h
  refine ⟨?_, ?_⟩
  · exact (exists_decode_eq_ok_iff .current (by decide)).mp (hex (by decide +kernel))
  · exact mt (exists_decode_eq_ok_iff .current (by decide)).mpr (hnot (by decide +kernel))

end Pickle

end TreePickle
