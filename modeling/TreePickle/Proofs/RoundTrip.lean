import TreePickle.Proofs.Grammar

/-!
# Files that are written are read

A file is written part by part, and a writer knows of nothing but the bytes before. What it appends
is a spelling of the form, so the file is accepted by `Pickle.decode_eq_ok_iff`. What is found in it
is said by `FileForm.decode_put`: the header, a name for each record, and each section in the place
where the writer has put it.

## Places of sections

Each part of a file is described by a language, and for the header and the names that is enough. For
the sections it is not, because their addresses are part of what is found. They are followed one by
one: a section begins where the writer stands in front of it, behind the bytes of its head, and ends
where the writer stands behind it, `SectionForm.exists_placesAll_put`. The induction leaves the
writer open for that reason.

## What is found

Names are compared with the records one by one, by the names in front of each of them, so that the
statement does not depend on how a list of records is gone through. A section is found with the text
of the name that its label refers to, and with its payload in its range, `SectionForm.FoundIn`.

The hypotheses are those under which a form can be written at all: its references are in order, its
parameters are numbers of 32 bits, there is a number for each record, and the length of the file is
an address.
-/

namespace TreePickle

open Base128

/-! ## Headers and names -/

namespace Writer.Appends

theorem putVersion (v : Version) : Appends (·.putVersion v) v.spelling := by
  have hexperimental := putNat v.experimental
  exact (hexperimental.comp (putNat v.minor)).comp (putNat v.major)

theorem putHeader (h : Header) : Appends (·.putHeader h) h.spelling := by
  have huuid := putBytes h.uuid.toList
  exact ((huuid.comp (putText h.tooling)).comp (putVersion h.version)).comp (putBytes magic)

end Writer.Appends

theorem FileForm.appends_putNames {f : FileForm} (h : ∀ r ∈ f.records, ∀ p ∈ r.params, p.Valid) :
    Writer.Appends f.putNames
      (f.header.spelling * framed (f.records.map Record.spelling).prod) := by
  have hrecords : Writer.Appends (fun w ↦ f.records.foldl (fun w r ↦ r.put w) w) _ :=
    .foldl fun r hr ↦ Record.appends_put (h r hr)
  exact (Writer.Appends.putFramed hrecords).comp (.putHeader f.header)

/-! ## Sections -/

namespace SectionForm

variable {names : List Name}

/-- A section that has the form's label, and the form's payload in its range. -/
def FoundIn (names : List Name) (bytes : List UInt8) (f : SectionForm) (s : Pickle.Section) :
    Prop :=
  names[f.label.index]?.map Name.text = some s.label ∧
    ∃ before after, bytes = before ++ f.payload ++ after ∧ s.start = before.length ∧
      s.stop = (before ++ f.payload).length

theorem PlacesAll.foundIn {fs : List SectionForm} {before bs : List UInt8}
    {ss : List Pickle.Section} (h : PlacesAll names fs before.length ss bs) :
    List.Forall₂ (FoundIn names (before ++ bs)) fs ss := by
  generalize ha : before.length = a at h
  induction h generalizing before with
  | nil => exact .nil
  | @cons f fs a s ss bs cs h hr ih =>
    subst ha
    have hrest := @ih (before ++ bs) List.length_append
    obtain ⟨head, -, rfl, hlabel, hstart, hstop⟩ := h
    rw [← List.append_assoc]
    refine .cons ⟨hlabel, before ++ head, cs, ?_, ?_, ?_⟩ hrest
    · simp only [List.append_assoc]
    · rw [hstart, List.length_append]
    · rw [hstop, List.append_assoc, @List.length_append _ before]

/-- What a writer puts in front of a payload. -/
def head (f : SectionForm) : List UInt8 :=
  encode .unsigned f.label.index ++ encode .unsigned f.payload.length

theorem bytes_put (w : Writer) (f : SectionForm) :
    (put w f).bytes = w.bytes ++ (f.head ++ f.payload) := by
  rw [put, Writer.bytes_putSection, head, List.append_assoc, List.append_assoc, List.append_assoc]
  rfl

theorem size_put (w : Writer) (f : SectionForm) :
    (put w f).size = w.size + (f.head ++ f.payload).length := by
  rw [← Writer.length_bytes, bytes_put, List.length_append, Writer.length_bytes]

theorem size_le_size_foldl_put (w : Writer) (fs : List SectionForm) :
    w.size ≤ (fs.foldl put w).size := by
  induction fs generalizing w with
  | nil => exact Nat.le_refl _
  | cons f fs ih =>
    refine Nat.le_trans ?_ (ih (put w f))
    rw [size_put]
    exact Nat.le_add_right _ _

/-- The addresses where a writer stands behind each of the sections that it writes. -/
def stops (w : Writer) : List SectionForm → List Nat
  | [] => []
  | f :: fs => (put w f).size :: stops (put w f) fs

/-- Written sections are found where the writer has put them. -/
theorem exists_placesAll_put {fs : List SectionForm} (w : Writer)
    (hlabels : ∀ f ∈ fs, f.label.index < names.length)
    (hlt : (fs.foldl put w).size < Address.bound) :
    ∃ ss bs, (fs.foldl put w).bytes = w.bytes ++ bs ∧ PlacesAll names fs w.size ss bs ∧
      ss.map Pickle.Section.stop = stops w fs := by
  -- the writer is left open: the address of a section is where the writer stands in front of it
  induction fs generalizing w with
  | nil => exact ⟨[], [], (List.append_nil _).symm, .nil, rfl⟩
  | cons f fs ih =>
    obtain ⟨hlabel, hlabels⟩ := List.forall_mem_cons.mp hlabels
    obtain ⟨ss, cs, hbytes, hplaces, hstops⟩ := ih (put w f) hlabels hlt
    have hpayload : f.payload.length < Address.bound := by
      refine Nat.lt_of_le_of_lt (Nat.le_trans ?_ (size_le_size_foldl_put (put w f) fs)) hlt
      rw [size_put, List.length_append]
      omega
    have hhead : f.head ∈ f.label.spelling * natural f.payload.length :=
      Language.append_mem_mul (encode_mem_natural (f.label.number.toNat_lt.trans (by decide)))
        (encode_mem_natural hpayload)
    have hplace : f.Places names w.size ⟨names[f.label.index].text, w.size + f.head.length,
        (put w f).size⟩ (f.head ++ f.payload) := by
      refine ⟨f.head, hhead, rfl, ?_, rfl, size_put w f⟩
      rw [List.getElem?_eq_getElem hlabel, Option.map_some]
    refine ⟨_ :: ss, _, ?_, .cons hplace (size_put w f ▸ hplaces), congrArg (_ :: ·) hstops⟩
    rw [List.foldl_cons, hbytes, bytes_put, List.append_assoc]

end SectionForm

/-- A written file has the form that was written. -/
theorem FileForm.formOf_put {f : FileForm} {reader : Version} (hscoped : f.Scoped)
    (hparams : ∀ r ∈ f.records, ∀ p ∈ r.params, p.Valid)
    (hsize : (f.put .empty).size < Address.bound)
    (haccepts : reader.accepts f.header.version = true) :
    f.FormOf reader (f.put .empty).bytes := by
  obtain ⟨names, -, hlen⟩ := Record.exists_denoteAll hscoped.1
  obtain ⟨ss, tail, hbytes, hplaces, -⟩ :=
    SectionForm.exists_placesAll_put (f.putNames .empty) (hlen ▸ hscoped.2) hsize
  obtain ⟨-, htail⟩ := SectionForm.exists_placesAll_iff.mp ⟨ss, hplaces⟩
  obtain ⟨front, hfront, hmem⟩ := appends_putNames hparams .empty
  rw [Writer.bytes_empty, List.nil_append] at hfront
  have hput : (f.put .empty).bytes = front ++ tail := by rw [put, hbytes, hfront]
  have hlt : front.length < Address.bound := by
    rw [← Writer.length_bytes, hput, List.length_append] at hsize
    omega
  refine ⟨haccepts, hscoped, ?_⟩
  rw [hput, spelling, ← mul_assoc]
  exact Language.append_mem_mul (hmem hlt) htail

/-- **Written files are read.** A reader that accepts the version of a form reads what is written of
it, and finds all of it: the header, a name for each record that the record denotes by the names in
front of it, and each section under its label, with its payload where the writer has put it. -/
theorem FileForm.decode_put {f : FileForm} {reader : Version} (hscoped : f.Scoped)
    (hparams : ∀ r ∈ f.records, ∀ p ∈ r.params, p.Valid) (hcount : f.records.length < 2 ^ 32)
    (hsize : (f.put .empty).size < Address.bound)
    (haccepts : reader.accepts f.header.version = true) :
    ∃ p, Pickle.decode reader (f.put .empty).bytes = .ok p ∧ p.header = f.header ∧
      p.names.size = f.records.length ∧
      (∀ (i : Nat) (h : i < f.records.length),
        f.records[i].denote (p.names.entries.toList.take i) = p.names.entries[i]?) ∧
      List.Forall₂ (SectionForm.FoundIn p.names.entries.toList (f.put .empty).bytes) f.sections
        p.sections ∧
      p.sections.map Pickle.Section.stop = SectionForm.stops (f.putNames .empty) f.sections := by
  obtain ⟨names, hnames, hlen⟩ := Record.exists_denoteAll hscoped.1
  obtain ⟨-, -, hentries⟩ := Record.denoteAll_eq_some hnames
  obtain ⟨ss, tail, hbytes, hplaces, hstops⟩ :=
    SectionForm.exists_placesAll_put (f.putNames .empty) (hlen ▸ hscoped.2) hsize
  obtain ⟨front, hfront, hmem⟩ := appends_putNames hparams .empty
  rw [Writer.bytes_empty, List.nil_append] at hfront
  have hput : (f.put .empty).bytes = front ++ tail := by rw [put, hbytes, hfront]
  rw [← Writer.length_bytes, hfront] at hplaces
  have hlt : (f.put .empty).bytes.length < Address.bound := by rwa [Writer.length_bytes]
  obtain ⟨head, hhead, frame, hframe, rfl⟩ := Language.mem_mul.mp <| hmem <| by
    rw [hput, List.length_append] at hlt
    omega
  have hspells : Pickle.Spells f.header ⟨names.toArray⟩ ss (f.put .empty).bytes := by
    refine ⟨head, frame, tail, by rw [hput, List.append_assoc], hhead, ⟨f.records, hframe, ?_⟩,
      f.sections, ?_⟩
    · rw [NameTable.extend_empty hcount, hnames, Option.map_some]
    · rwa [NameTable.known_mk (hlen ▸ hcount)]
  refine ⟨⟨(f.put .empty).bytes, f.header, ⟨names.toArray⟩, ss, Pickle.indexOf ss⟩, ?_, rfl, ?_, ?_,
    ?_, hstops⟩
  · exact (Pickle.decode_eq_ok_iff hlt).mpr ⟨rfl, rfl, haccepts, hspells⟩
  · rw [NameTable.size, List.size_toArray, hlen]
  · intro i hi
    simpa using hentries i hi
  · rw [hput]
    exact hplaces.foundIn

/-- A file with a record of each tag, and with a section under the text of a path. -/
def FileForm.eachTag : FileForm where
  header := ⟨.current, "tool", Vector.replicate 16 7⟩
  records := [.utf8 "a", .utf8 "b", .qualified ⟨0⟩ ⟨1⟩, .expanded ⟨0⟩ ⟨1⟩, .expandPrefix ⟨0⟩ ⟨1⟩,
    .unique ⟨1⟩ 300 [⟨0⟩, ⟨3⟩], .defaultGetter ⟨1⟩ 0, .superAccessor ⟨1⟩, .inlineAccessor ⟨1⟩,
    .bodyRetainer ⟨1⟩, .objectClass ⟨2⟩, .targetSigned ⟨1⟩ ⟨0⟩ ⟨2⟩ [.typeParams (2 ^ 31)],
    .signed ⟨1⟩ ⟨2⟩ [.typeParams 1, .term ⟨2⟩]]
  sections := [⟨⟨2⟩, [1, 2, 3]⟩, ⟨⟨0⟩, []⟩]

theorem FileForm.decode_put_eachTag :
    ∃ p, Pickle.decode .current (eachTag.put .empty).bytes = .ok p ∧ p.header = eachTag.header ∧
      p.names.size = 13 ∧
      List.Forall₂ (SectionForm.FoundIn p.names.entries.toList (eachTag.put .empty).bytes)
        eachTag.sections p.sections ∧
      p.sections.map Pickle.Section.stop = [91, 93] := by
  obtain ⟨p, hp, hheader, hsize, -, hsections, hstops⟩ := @FileForm.decode_put eachTag .current
    (by decide) (by decide) (by decide) (by decide +kernel) (by decide)
  exact ⟨p, hp, hheader, hsize, hsections, hstops.trans (by decide +kernel)⟩

end TreePickle
