import TreePickle.Proofs.FileParts

/-!
# The sections of a file

Sections lie one behind the other, from the end of the names to the end of the file: `Pickle.Tiles`.
They are found by their labels, of several ones with the same label the last, and a payload is
always there to be read. `Pickle.sections_of_decode` says so of every accepted file.

## Where the sections are

`Pickle.Tiles` is about ranges only and knows of no bytes. Ranges are in order, and between two of
them there are two bytes at least, which are the least that a label and a length take. That the last
one ends at the end of the file is a field of its own: it does not follow from the others, and
without it there could be bytes at the end that belong to no section. For a file without sections it
says that the file ends with its names. Ranges are read off the places of the section forms,
`SectionForm.PlacesAll.tiles`, by induction on the list.

## What a label stands for

The index is made by inserting one section after the other, so a later one takes the place of an
earlier one. It is compared with the list of sections by induction from the end of the list,
`Pickle.getElem?_indexOf`, and nothing has to be known of the table for that but how it looks up
what was inserted.

## What can fail

To look up a label is to cut out the range of its section and to run a decoder on it. The cut is
inside of the file, so it never fails (`Pickle.sub_of_mem_sections`), and the outcome is that of the
decoder (`Pickle.lookup_of_decode`). What the decoder gets is written out as `Section.reader`, with
the addresses of the file.
-/

namespace TreePickle

namespace Pickle

/-! ## Where the sections are -/

/-- Sections that fill the addresses from `first` to `last` one behind the other. In front of each
payload there are two bytes at least, of its label and of its length. -/
structure Tiles (first last : Nat) (ss : List Section) : Prop where
  start_le_stop : ∀ s ∈ ss, s.start ≤ s.stop
  first_le : ∀ s ∈ ss, first + 2 ≤ s.start
  stop_le : ∀ s ∈ ss, s.stop ≤ last
  apart : ss.Pairwise fun s s' ↦ s.stop + 2 ≤ s'.start
  /-- The last section ends at `last`. If there is none, there is nothing to fill. -/
  ends : ss.getLast?.elim first Section.stop = last

namespace Tiles

variable {first last : Nat} {s : Section} {ss : List Section}

theorem nil (a : Nat) : Tiles a a [] where
  start_le_stop := by simp
  first_le := by simp
  stop_le := by simp
  apart := .nil
  ends := rfl

theorem eq_or_exists_stop_eq (h : Tiles first last ss) :
    first = last ∨ ∃ s ∈ ss, s.stop = last := by
  have hends := h.ends
  cases hlast : ss.getLast? with
  | none =>
    rw [hlast] at hends
    exact .inl hends
  | some s =>
    rw [hlast] at hends
    exact .inr ⟨s, List.mem_of_getLast? hlast, hends⟩

theorem first_le_last (h : Tiles first last ss) : first ≤ last := by
  rcases h.eq_or_exists_stop_eq with hends | ⟨s, hs, hends⟩
  · exact hends.le
  · have hfirst := h.first_le s hs
    have hle := h.start_le_stop s hs
    omega

theorem cons (hfirst : first + 2 ≤ s.start) (hle : s.start ≤ s.stop) (h : Tiles s.stop last ss) :
    Tiles first last (s :: ss) where
  start_le_stop := List.forall_mem_cons.mpr ⟨hle, h.start_le_stop⟩
  first_le := by
    refine List.forall_mem_cons.mpr ⟨hfirst, fun t ht ↦ ?_⟩
    have := h.first_le t ht
    omega
  stop_le := List.forall_mem_cons.mpr ⟨h.first_le_last, h.stop_le⟩
  apart := List.pairwise_cons.mpr ⟨h.first_le, h.apart⟩
  ends := by
    rw [← h.ends]
    cases ss with
    | nil => rfl
    | cons t ts =>
      rw [List.getLast?_cons_cons, List.getLast?_cons]
      rfl

end Tiles

end Pickle

theorem SectionForm.PlacesAll.tiles {names : List Name} {fs : List SectionForm} {a : Nat}
    {ss : List Pickle.Section} {bs : List UInt8} (h : PlacesAll names fs a ss bs) :
    Pickle.Tiles a (a + bs.length) ss := by
  induction h with
  | nil => exact .nil _
  | cons h _ ih =>
    obtain ⟨_, hhead, rfl, -, hstart, hstop⟩ := h
    obtain ⟨ref, href, size, hsize, rfl⟩ := Language.mem_mul.mp hhead
    have hreflen : 0 < ref.length := List.length_pos_iff.mpr href.1.ne_nil
    have hsizelen : 0 < size.length := List.length_pos_iff.mpr hsize.1.ne_nil
    rw [← hstop] at ih
    rw [List.length_append, ← Nat.add_assoc, ← hstop]
    simp only [List.length_append] at hstart hstop
    exact .cons (by omega) (by omega) ih

namespace Pickle

/-! ## Sections by their labels -/

theorem indexOf_append_singleton (ss : List Section) (s : Section) :
    indexOf (ss ++ [s]) = (indexOf ss).insert s.label s := by
  rw [indexOf, indexOf, List.foldl_append]
  rfl

/-- The index has the last section of each label. -/
theorem getElem?_indexOf (ss : List Section) (label : String) :
    (indexOf ss)[label]? = (ss.filter fun s ↦ s.label = label).getLast? := by
  -- a section is inserted behind those before it
  induction ss using List.reverseRecOn with
  | nil => simp [indexOf]
  | append_singleton ss s ih =>
    rw [indexOf_append_singleton, Std.HashMap.getElem?_insert, List.filter_append, ih]
    by_cases hs : s.label = label
    · simp [hs]
    · simp [hs]

/-! ## Payloads -/

/-- A reader of the payload of a section. -/
def Section.reader (s : Section) (bytes : List UInt8) : Reader :=
  ⟨s.start, bytes.extract s.start s.stop, ⟨s.start, bytes.extract s.start s.stop⟩⟩

theorem sub_ofBytes {bytes : List UInt8} {s : Section} (hle : s.start ≤ s.stop)
    (hstop : s.stop ≤ bytes.length) :
    (Reader.ofBytes bytes).sub s.start s.stop = .ok (s.reader bytes) := by
  have hcheck (a : Nat) (ha : a ≤ bytes.length) : (Reader.ofBytes bytes).check a = .ok () := by
    have hin : 0 ≤ a ∧ a ≤ 0 + bytes.length := ⟨Nat.zero_le a, by rwa [Nat.zero_add]⟩
    exact if_pos hin
  rw [Reader.sub, hcheck s.start (hle.trans hstop), hcheck s.stop hstop,
    if_neg (Nat.not_lt.mpr hle)]
  rfl

variable {reader : Version} {bytes : List UInt8} {p : Pickle}

theorem exists_tiles_of_decode (h : decode reader bytes = .ok p) :
    ∃ a, namesStop reader bytes = .ok a ∧ Tiles a bytes.length p.sections := by
  obtain ⟨-, -, -, front, tail, rfl, hfront, fs, hfs⟩ := decode_eq_ok_iff_parts.mp h
  rw [List.length_append]
  exact ⟨front.length, namesStop_append hfront tail, hfs.tiles⟩

theorem section?_of_decode (h : decode reader bytes = .ok p) (label : String) :
    p.section? label = (p.sections.filter fun s ↦ s.label = label).getLast? := by
  rw [section?, (decode_eq_ok_iff_parts.mp h).2.1, getElem?_indexOf]

theorem section?_eq_none_iff (h : decode reader bytes = .ok p) (label : String) :
    p.section? label = none ↔ ∀ s ∈ p.sections, s.label ≠ label := by
  rw [section?_of_decode h, List.getLast?_eq_none_iff, List.filter_eq_nil_iff]
  simp only [decide_eq_true_eq, ne_eq]

theorem mem_of_section?_eq_some (h : decode reader bytes = .ok p) {label : String} {s : Section}
    (hs : p.section? label = some s) : s ∈ p.sections := by
  rw [section?_of_decode h] at hs
  exact List.mem_of_mem_filter (List.mem_of_getLast? hs)

/-- The range of a section can be cut out of the file. -/
theorem sub_of_mem_sections (h : decode reader bytes = .ok p) {s : Section} (hs : s ∈ p.sections) :
    (Reader.ofBytes p.bytes).sub s.start s.stop = .ok (s.reader bytes) := by
  obtain ⟨a, -, htiles⟩ := exists_tiles_of_decode h
  rw [(decode_eq_ok_iff_parts.mp h).1]
  exact sub_ofBytes (htiles.start_le_stop s hs) (htiles.stop_le s hs)

/-- A payload is always found, so that only its decoder can fail. -/
theorem lookup_of_decode {α : Type} (h : decode reader bytes = .ok p) (d : SectionDecoder α) :
    p.lookup d = (p.section? d.label).mapM fun s ↦ d.decode p.names (s.reader bytes) := by
  rw [lookup]
  cases hs : p.section? d.label with
  | none => rfl
  | some s =>
    dsimp only
    rw [sub_of_mem_sections h (mem_of_section?_eq_some h hs), Option.mapM_some]
    rfl

theorem lookup_rawSection (h : decode reader bytes = .ok p) (label : String) :
    p.lookup (rawSection label) =
      .ok ((p.section? label).map fun s ↦ bytes.extract s.start s.stop) := by
  have hlabel : (rawSection label).label = label := rfl
  rw [lookup_of_decode h, hlabel]
  cases p.section? label with
  | none => rfl
  | some s => rfl

/-- **The sections of an accepted file.** They fill the file from the end of the names on; a label
stands for the last section that has it; and all payloads can be read. -/
theorem sections_of_decode (h : decode reader bytes = .ok p) :
    (∃ a, namesStop reader bytes = .ok a ∧ Tiles a bytes.length p.sections) ∧
      (∀ s ∈ p.sections, (Reader.ofBytes p.bytes).sub s.start s.stop = .ok (s.reader bytes)) ∧
      ∀ label, p.section? label = (p.sections.filter fun s ↦ s.label = label).getLast? ∧
        (p.section? label = none ↔ ∀ s ∈ p.sections, s.label ≠ label) ∧
        (p.lookup (rawSection label) = .ok none ↔ ∀ s ∈ p.sections, s.label ≠ label) ∧
        ∀ s, p.section? label = some s →
          p.lookup (rawSection label) = .ok (some (bytes.extract s.start s.stop)) := by
  refine ⟨exists_tiles_of_decode h, fun s hs ↦ sub_of_mem_sections h hs, fun label ↦ ?_⟩
  have hnone := section?_eq_none_iff h label
  have hlookup := lookup_rawSection h label
  refine ⟨section?_of_decode h label, hnone, ?_, fun s hs ↦ ?_⟩
  · rw [← hnone, hlookup, Except.ok.injEq, Option.map_eq_none_iff]
  · rw [hlookup, hs, Option.map_some]

/-- A text that is the label of two sections by different names, and a section without payload. -/
theorem sections_of_decode_twice :
    let bytes := magic ++ [156, 131, 128, 128] ++ List.replicate 16 0 ++
      [143, 1, 129, 97, 1, 129, 98, 2, 130, 128, 129, 1, 131, 97, 46, 98] ++
      [130, 129, 7, 131, 130, 8, 9, 128, 128]
    ∃ p, decode .current bytes = .ok p ∧
      p.sections = [⟨"a.b", 42, 43⟩, ⟨"a.b", 45, 47⟩, ⟨"a", 49, 49⟩] ∧
      (∃ a, namesStop .current bytes = .ok a ∧ Tiles a bytes.length p.sections) ∧
      p.lookup (rawSection "a.b") = .ok (some [8, 9]) ∧
      p.lookup (rawSection "a") = .ok (some []) ∧ p.lookup (rawSection "b") = .ok none := by
  intro bytes
  obtain ⟨p, hp, hsections⟩ : ∃ p, decode .current bytes = .ok p ∧
      p.sections = [⟨"a.b", 42, 43⟩, ⟨"a.b", 45, 47⟩, ⟨"a", 49, 49⟩] :=
    exists_decode_eq_ok (by decide +kernel)
  obtain ⟨htiles, -, hlabels⟩ := sections_of_decode hp
  rw [hsections] at hlabels
  refine ⟨p, hp, hsections, htiles, ?_, ?_, ?_⟩
  · exact (hlabels "a.b").2.2.2 ⟨"a.b", 45, 47⟩ ((hlabels "a.b").1.trans (by decide))
  · exact (hlabels "a").2.2.2 ⟨"a", 49, 49⟩ ((hlabels "a").1.trans (by decide))
  · exact (hlabels "b").2.2.1.mpr (by decide)

end Pickle

end TreePickle
