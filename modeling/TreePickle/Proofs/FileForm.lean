import TreePickle.Pickle.Basic
import TreePickle.Proofs.NameSection

/-!
# Files as data

A `FileForm` is what a writer of files decides on: a header, the records of names, and the sections
with their labels by reference. It is written as one string by `FileForm.put`, and it can be
spelled in many ways, `FileForm.spelling`, because numbers can.

The language of its spellings is the grammar of files, together with `FileForm.Scoped` that asks for
references in order. Both directions of reading are proved from one description of what is read,
`Pickle.decode_eq_ok_iff`: a file is accepted exactly if it has a form, and what a writer puts
down is found again.

## Sections in their places

A section that was found is a label and two addresses, and nothing is left of how it was spelled.
`SectionForm.Places` relates it to a form and to the bytes at an address, and
`SectionForm.PlacesAll` does so for the sections of a file, each where the one before it ends. With
the sections forgotten it is the product of the spellings, `SectionForm.exists_placesAll_iff`.

Sections are items of a repetition up to the end of the file, and none of them may end behind it.
So they end exactly there, `SectionForm.items_sectionSpells_iff`, and their places can be told
without the addresses of the repetition.

## Files

`Pickle.Spells` puts the parts together: a header, the frame of the records, and the sections. That
a file has a length that is an address is assumed, because the end of a frame has to be one.
-/

namespace TreePickle

open Base128

/-! ## Forms -/

def Version.spelling (v : Version) : Language UInt8 :=
  natural v.major.toNat * (natural v.minor.toNat * natural v.experimental.toNat)

def Header.spelling (h : Header) : Language UInt8 :=
  {magic} * (h.version.spelling * (framed {Text.utf8 h.tooling} * {h.uuid.toList}))

/-- A section, its label not looked up. -/
structure SectionForm where
  label : NameRef
  payload : List UInt8
  deriving DecidableEq

namespace SectionForm

def spelling (f : SectionForm) : Language UInt8 := f.label.spelling * framed {f.payload}

def put (w : Writer) (f : SectionForm) : Writer := w.putSection f.label.number f.payload

end SectionForm

/-- The parts of a file, its references not followed. -/
structure FileForm where
  header : Header
  records : List Record
  sections : List SectionForm
  deriving DecidableEq

namespace FileForm

/-- All references are to records before them, and to simple names where that is needed. -/
def Scoped (f : FileForm) : Prop :=
  Record.AllScoped [] f.records ∧ ∀ s ∈ f.sections, s.label.index < f.records.length

instance (f : FileForm) : Decidable f.Scoped := inferInstanceAs (Decidable (_ ∧ _))

/-- The strings of the header, of the records in a frame, and of the sections. -/
def spelling (f : FileForm) : Language UInt8 :=
  f.header.spelling * (framed (f.records.map Record.spelling).prod *
    (f.sections.map SectionForm.spelling).prod)

/-- Writes the header and the names. -/
def putNames (f : FileForm) (w : Writer) : Writer :=
  (w.putHeader f.header).putFramed fun w ↦ f.records.foldl (fun w r ↦ r.put w) w

/-- Writes the file. -/
def put (f : FileForm) (w : Writer) : Writer := f.sections.foldl SectionForm.put (f.putNames w)

end FileForm

/-! ## What is read as a header -/

namespace Decode.Reads

variable {limit : Nat}

theorem version : Reads limit Decode.version fun _ v bs ↦ bs ∈ v.spelling := by
  refine (nat.bind fun major ↦ nat.bind fun minor ↦ nat.bind_pure (Version.mk major minor)).congr
    fun _ v bs _ ↦ ?_
  constructor
  · rintro ⟨major, bs₁, _, h₁, ⟨minor, bs₂, bs₃, h₂, ⟨experimental, h₃, rfl⟩, rfl⟩, rfl⟩
    exact Language.append_mem_mul h₁ (Language.append_mem_mul h₂ h₃)
  · intro h
    obtain ⟨bs₁, h₁, _, htail, rfl⟩ := Language.mem_mul.mp h
    obtain ⟨bs₂, h₂, bs₃, h₃, rfl⟩ := Language.mem_mul.mp htail
    exact ⟨_, bs₁, _, h₁, ⟨_, bs₂, bs₃, h₂, ⟨_, h₃, rfl⟩, rfl⟩, rfl⟩

/-- A text behind its length. -/
theorem framedText : Reads limit (do Decode.text (← Decode.length)) fun _ s bs ↦
    bs ∈ framed {Text.utf8 s} := by
  refine (length.bind fun n ↦ text n).congr fun _ s bs _ ↦ ?_
  constructor
  · rintro ⟨_, size, _, hsize, ⟨rfl, rfl⟩, rfl⟩
    exact ⟨_, rfl, size, hsize, rfl⟩
  · rintro ⟨_, rfl, size, hsize, rfl⟩
    exact ⟨_, size, _, hsize, ⟨rfl, rfl⟩, rfl⟩

theorem header (reader : Version) : Reads limit (Header.decode reader) fun _ h bs ↦
    bs ∈ h.spelling ∧ reader.accepts h.version = true := by
  have hmapped {α : Type} {x : Decode TreePickle.Fault α} {S : Nat → α → List UInt8 → Prop}
      (h : Reads limit x S) : Reads limit (Decode.mapError Header.Fault.decode x) S := h.mapError _
  refine ((hmapped (bytes magic.length)).bind fun found ↦ guard fun _ ↦ (hmapped version).bind
    fun v ↦ guard fun _ ↦ (hmapped framedText).bind fun tooling ↦
      (hmapped uuid).bind_pure (Header.mk v tooling)).congr fun _ h bs _ ↦ ?_
  constructor
  · rintro ⟨_, bs₁, _, ⟨rfl, -⟩, ⟨hmagic, v, bs₂, _, h₂, ⟨haccepts, s, bs₃, bs₄, h₃,
      ⟨id, rfl, rfl⟩, rfl⟩, rfl⟩, rfl⟩
    obtain rfl := not_not.mp hmagic
    refine ⟨?_, by simpa using haccepts⟩
    exact Language.append_mem_mul rfl (Language.append_mem_mul h₂ (Language.append_mem_mul h₃ rfl))
  · rintro ⟨hbs, haccepts⟩
    obtain ⟨_, rfl, _, htail, rfl⟩ := Language.mem_mul.mp hbs
    obtain ⟨bs₂, h₂, _, hrest, rfl⟩ := Language.mem_mul.mp htail
    obtain ⟨bs₃, h₃, _, rfl, rfl⟩ := Language.mem_mul.mp hrest
    exact ⟨magic, magic, _, ⟨rfl, rfl⟩, ⟨not_not.mpr rfl, h.version, bs₂, _, h₂,
      ⟨by simpa using haccepts, h.tooling, bs₃, _, h₃, ⟨h.uuid, rfl, rfl⟩, rfl⟩, rfl⟩, rfl⟩

end Decode.Reads

/-! ## What is read as sections -/

/-- The form of a section that was found, with its bytes at an address. -/
def SectionForm.Places (names : List Name) (f : SectionForm) (a : Nat) (s : Pickle.Section)
    (bs : List UInt8) : Prop :=
  ∃ head ∈ f.label.spelling * natural f.payload.length, bs = head ++ f.payload ∧
    names[f.label.index]?.map Name.text = some s.label ∧ s.start = a + head.length ∧
    s.stop = a + bs.length

namespace Pickle

open Decode

variable {limit : Nat} {table : NameTable}

/-- A section that ends at the address `last` at the latest. -/
def SectionSpells (last : Nat) (names : List Name) (a : Nat) (s : Section) (bs : List UInt8) :
    Prop :=
  (∃ f : SectionForm, f.Places names a s bs) ∧ a + bs.length ≤ last ∧ a + bs.length < Address.bound

theorem reads_nextSection (last : Nat) :
    Reads limit (nextSection last table) (SectionSpells last table.known) := by
  have hname : Reads limit (do liftName (table.lookup (← nameRef table))) _ := reads_name
  have hassoc : nextSection last table = (do
      let n ← (do liftName (table.lookup (← nameRef table)) : Decode Fault Name)
      let stop ← lift frameEnd
      let start ← position
      if stop < start ∨ last < stop then throw (.sectionOutOfBounds n.text stop last)
      lift (Decode.advanceTo stop)
      return ⟨n.text, start, stop⟩) := by
    rw [nextSection, bind_assoc]
  rw [hassoc]
  refine (hname.bind fun n ↦ (reads_lift .frameEnd).bind fun stop ↦ Reads.position_bind fun start ↦
    Reads.guard fun _ ↦ (reads_lift (.advanceTo stop)).bind_pure fun _ ↦
      Section.mk n.text start stop).congr fun a s bs _ ↦ ?_
  constructor
  · rintro ⟨n, ref, _, ⟨r, href, hn⟩, ⟨stop, size, payload, ⟨count, hsize, hcount, hlt⟩,
      ⟨hframe, ⟨-, hstop, rfl⟩⟩, rfl⟩, rfl⟩
    obtain rfl : count = payload.length := by omega
    rw [not_or, Nat.not_lt, Nat.not_lt] at hframe
    have hlen : a + (ref ++ (size ++ payload)).length = stop := by
      simp only [List.length_append]
      omega
    refine ⟨⟨⟨r, payload⟩, ref ++ size, Language.append_mem_mul href hsize,
      (List.append_assoc _ _ _).symm, congrArg (Option.map Name.text) hn, ?_, hlen.symm⟩, ?_, ?_⟩
    · rw [List.length_append, Nat.add_assoc]
    · exact hlen ▸ hframe.2
    · exact hlen ▸ hlt
  · rintro ⟨⟨f, head, hhead, rfl, hlabel, hstart, hstop⟩, hlast, hlt⟩
    obtain ⟨ref, href, size, hsize, rfl⟩ := Language.mem_mul.mp hhead
    obtain ⟨label, start, stop⟩ := s
    obtain ⟨n, hn, rfl⟩ := Option.map_eq_some_iff.mp hlabel
    simp only [List.length_append] at hstart hstop hlast hlt
    have hend : stop = a + ref.length + size.length + f.payload.length := by omega
    have hbounds : ¬(stop < a + ref.length + size.length ∨ last < stop) := by omega
    have hsection : (⟨n.text, start, stop⟩ : Section) =
        ⟨n.text, a + ref.length + size.length, stop⟩ := by rw [hstart, Nat.add_assoc]
    exact ⟨n, ref, _, ⟨f.label, href, hn⟩, ⟨stop, size, f.payload, ⟨_, hsize, hend, by omega⟩,
      ⟨hbounds, (), hend.symm, hsection⟩, rfl⟩, List.append_assoc _ _ _⟩

end Pickle

namespace SectionForm

/-- The forms of sections that were found, with their bytes from an address on. -/
inductive PlacesAll (names : List Name) :
    List SectionForm → Nat → List Pickle.Section → List UInt8 → Prop
  | nil {a : Nat} : PlacesAll names [] a [] []
  | cons {f : SectionForm} {fs : List SectionForm} {a : Nat} {s : Pickle.Section}
      {ss : List Pickle.Section} {bs cs : List UInt8} (h : f.Places names a s bs)
      (hr : PlacesAll names fs (a + bs.length) ss cs) :
      PlacesAll names (f :: fs) a (s :: ss) (bs ++ cs)

variable {names : List Name}

theorem Places.length_pos {f : SectionForm} {a : Nat} {s : Pickle.Section} {bs : List UInt8}
    (h : f.Places names a s bs) : 0 < bs.length := by
  obtain ⟨_, hhead, rfl, -⟩ := h
  obtain ⟨ref, href, size, -, rfl⟩ := Language.mem_mul.mp hhead
  have hne : 0 < ref.length := List.length_pos_iff.mpr href.1.ne_nil
  rw [List.length_append, List.length_append]
  omega

/-- Some section is found exactly where a form with a known label is spelled. -/
theorem exists_places_iff {f : SectionForm} {a : Nat} {bs : List UInt8} :
    (∃ s, f.Places names a s bs) ↔ f.label.index < names.length ∧ bs ∈ f.spelling := by
  constructor
  · rintro ⟨s, head, hhead, rfl, hlabel, -⟩
    obtain ⟨n, hn, -⟩ := Option.map_eq_some_iff.mp hlabel
    obtain ⟨ref, href, size, hsize, rfl⟩ := Language.mem_mul.mp hhead
    rw [List.append_assoc]
    exact ⟨(List.getElem?_eq_some_iff.mp hn).1,
      Language.append_mem_mul href ⟨f.payload, rfl, size, hsize, rfl⟩⟩
  · rintro ⟨hlt, hbs⟩
    obtain ⟨ref, href, _, ⟨_, rfl, size, hsize, rfl⟩, rfl⟩ := Language.mem_mul.mp hbs
    refine ⟨⟨names[f.label.index].text, a + (ref ++ size).length,
      a + (ref ++ (size ++ f.payload)).length⟩, ref ++ size, Language.append_mem_mul href hsize,
      (List.append_assoc _ _ _).symm, ?_, rfl, rfl⟩
    rw [List.getElem?_eq_getElem hlt, Option.map_some]

theorem exists_placesAll_iff {fs : List SectionForm} {a : Nat} {bs : List UInt8} :
    (∃ ss, PlacesAll names fs a ss bs) ↔
      (∀ f ∈ fs, f.label.index < names.length) ∧ bs ∈ (fs.map spelling).prod := by
  induction fs generalizing a bs with
  | nil =>
    constructor
    · rintro ⟨_, ⟨⟩⟩
      exact ⟨by simp, Language.nil_mem_one⟩
    · rintro ⟨-, hbs⟩
      obtain rfl : bs = [] := hbs
      exact ⟨[], .nil⟩
  | cons f fs ih =>
    rw [List.forall_mem_cons]
    constructor
    · rintro ⟨_, hall⟩
      cases hall with
      | cons h hr =>
        obtain ⟨hlabel, hbs⟩ := exists_places_iff.mp ⟨_, h⟩
        obtain ⟨hlabels, hcs⟩ := ih.mp ⟨_, hr⟩
        exact ⟨⟨hlabel, hlabels⟩, Language.append_mem_mul hbs hcs⟩
    · rintro ⟨⟨hlabel, hlabels⟩, hall⟩
      obtain ⟨bs, hbs, cs, hcs, rfl⟩ := Language.mem_mul.mp hall
      obtain ⟨s, hs⟩ := exists_places_iff.mpr ⟨hlabel, hbs⟩
      obtain ⟨ss, hss⟩ := ih.mpr ⟨hlabels, hcs⟩
      exact ⟨s :: ss, .cons hs hss⟩

open Decode Pickle in
/-- Sections that stay in the range are found up to its end. -/
theorem items_sectionSpells_iff {stop a : Nat} {ss : List Pickle.Section} {bs : List UInt8}
    (ha : a + bs.length ≤ stop) (hlt : stop < Address.bound) :
    Items stop (SectionSpells stop names) a ss bs ↔
      a + bs.length = stop ∧ ∃ fs, PlacesAll names fs a ss bs := by
  constructor
  · intro h
    induction h with
    | ended h => exact ⟨Nat.le_antisymm ha h, [], .nil⟩
    | next _ hs _ ih =>
      obtain ⟨⟨f, hf⟩, -⟩ := hs
      rw [List.length_append, ← Nat.add_assoc] at ha ⊢
      obtain ⟨hstop, fs, hfs⟩ := ih ha
      exact ⟨hstop, f :: fs, .cons hf hfs⟩
  · rintro ⟨hstop, fs, hfs⟩
    induction hfs with
    | nil => exact .ended hstop.ge
    | @cons f fs a s ss bs cs h hr ih =>
      have hpos := h.length_pos
      rw [List.length_append, ← Nat.add_assoc] at ha hstop
      exact .next (by omega) ⟨⟨f, h⟩, by omega, by omega⟩ (ih ha hstop)

end SectionForm

/-! ## What is read as a file -/

namespace Pickle

open Decode

variable {limit : Nat} {table : NameTable}

theorem reads_sectionItems :
    Reads limit (sectionList table) (Items limit (SectionSpells limit table.known)) := by
  have hne (a : Nat) (s : Section) : ¬SectionSpells limit table.known a s [] := by
    rintro ⟨⟨f, hf⟩, -⟩
    exact absurd hf.length_pos (Nat.lt_irrefl 0)
  exact Reads.stop_bind (.itemsUntil (fun _ ↦ reads_nextSection limit) hne)

theorem reads_sectionList (hlimit : limit < Address.bound) :
    Reads limit (sectionList table) fun a ss bs ↦
      a + bs.length = limit ∧ ∃ fs, SectionForm.PlacesAll table.known fs a ss bs :=
  reads_sectionItems.congr fun _ _ _ ha ↦ SectionForm.items_sectionSpells_iff ha hlimit

/-- What a file is read from: the bytes of its three parts. -/
def Spells (header : Header) (table : NameTable) (sections : List Section) (bytes : List UInt8) :
    Prop :=
  ∃ head names tail, bytes = head ++ (names ++ tail) ∧ head ∈ header.spelling ∧
    (∃ records : List Record, names ∈ framed (records.map Record.spelling).prod ∧
      NameTable.empty.extend records = some table) ∧
    ∃ fs, SectionForm.PlacesAll table.known fs (head ++ names).length sections tail

theorem contents_eq_ok_iff {reader : Version} {bytes : List UInt8}
    (hlt : bytes.length < Address.bound) {header : Header} {table : NameTable}
    {sections : List Section} :
    (∃ c, contents reader ⟨0, bytes⟩ = .ok (header, table, sections) c) ↔
      reader.accepts header.version = true ∧ Spells header table sections bytes := by
  have hheader : Reads bytes.length (Decode.mapError Fault.header (Header.decode reader)) _ :=
    (Reads.header reader).mapError _
  have hcontents : Reads bytes.length (contents reader) _ := hheader.bind fun header ↦
    reads_nameSection.bind fun table ↦ (reads_sectionList hlt).bind_pure fun sections ↦
      (header, table, sections)
  constructor
  · rintro ⟨c, hc⟩
    obtain ⟨_, ⟨_, head, _, ⟨hhead, haccepts⟩, ⟨_, names, tail, ⟨hnames, -⟩,
      ⟨_, ⟨hend, fs, hfs⟩, ⟨⟩⟩, rfl⟩, rfl⟩, ha, -⟩ := (hcontents _ c _ (Nat.zero_add _)).mp hc
    -- the sections end with the file, and nothing is left behind them
    have hnil : c.ahead = [] := by
      have hlen := congrArg List.length ha
      simp only [List.length_append] at hlen hend
      exact List.length_eq_zero_iff.mp (by omega)
    refine ⟨haccepts, head, names, tail, by simpa [hnil] using ha, hhead, hnames, fs, ?_⟩
    simpa using hfs
  · rintro ⟨haccepts, head, names, tail, rfl, hhead, hnames, fs, hfs⟩
    simp only [List.length_append] at hlt hfs
    have hframe : 0 + head.length + names.length < Address.bound := by omega
    have hend : 0 + head.length + names.length + tail.length =
        (head ++ (names ++ tail)).length := by
      rw [List.length_append, List.length_append, Nat.zero_add, Nat.add_assoc]
    have hplaces : SectionForm.PlacesAll table.known fs (0 + head.length + names.length) sections
        tail := by rwa [Nat.zero_add]
    refine ⟨⟨(head ++ (names ++ tail)).length, []⟩, ?_⟩
    rw [hcontents _ _ _ (Nat.zero_add _)]
    refine ⟨_, ?_, (List.append_nil _).symm, (Nat.zero_add _).symm⟩
    exact ⟨header, head, _, ⟨hhead, haccepts⟩, ⟨table, names, tail, ⟨hnames, hframe⟩,
      ⟨sections, ⟨hend, fs, hplaces⟩, rfl⟩, rfl⟩, rfl⟩

theorem decode_eq_ok_iff_contents {reader : Version} {bytes : List UInt8} {p : Pickle} :
    decode reader bytes = .ok p ↔ p.bytes = bytes ∧ p.index = indexOf p.sections ∧
      ∃ c, contents reader ⟨0, bytes⟩ = .ok (p.header, p.names, p.sections) c := by
  have hcontents (v : Header × NameTable × List Section) :
      (Reader.ofBytes bytes).eval (contents reader) = .ok v ↔
        ∃ c, contents reader ⟨0, bytes⟩ = .ok v c := Reader.eval_eq_ok_iff
  rw [← hcontents, decode]
  constructor
  · intro h
    cases hv : (Reader.ofBytes bytes).eval (contents reader) with
    | error e =>
      rw [hv] at h
      cases h
    | ok v =>
      rw [hv] at h
      cases h
      exact ⟨rfl, rfl, rfl⟩
  · rintro ⟨hbytes, hindex, hv⟩
    rw [hv, ← hbytes]
    obtain ⟨_, header, table, sections, index⟩ := p
    obtain rfl : index = indexOf sections := hindex
    rfl

theorem decode_eq_error_iff {reader : Version} {bytes : List UInt8} {e : Fault} :
    decode reader bytes = .error e ↔ ∃ c, contents reader ⟨0, bytes⟩ = .error e c := by
  have hcontents : (Reader.ofBytes bytes).eval (contents reader) = .error e ↔
      ∃ c, contents reader ⟨0, bytes⟩ = .error e c := Reader.eval_eq_error_iff
  rw [← hcontents, decode]
  cases (Reader.ofBytes bytes).eval (contents reader) with
  | ok v => exact iff_of_false (fun h ↦ by cases h) fun h ↦ by cases h
  | error e' =>
    change Except.error e' = Except.error e ↔ _
    rw [Except.error.injEq, Except.error.injEq]

/-- **What a file is read as.** -/
theorem decode_eq_ok_iff {reader : Version} {bytes : List UInt8}
    (hlt : bytes.length < Address.bound) {p : Pickle} :
    decode reader bytes = .ok p ↔ p.bytes = bytes ∧ p.index = indexOf p.sections ∧
      reader.accepts p.header.version = true ∧ Spells p.header p.names p.sections bytes := by
  rw [decode_eq_ok_iff_contents, contents_eq_ok_iff hlt]

end Pickle

end TreePickle
