import Mathlib.Data.List.Pairwise
import TreePickle.Pickle.Attributes
import TreePickle.Proofs.SectionIndex

/-!
# Payloads are opaque

Reading a file passes over the payloads of its sections. So the bytes of a payload can be replaced
by any others, as many as before, and the file is read as the same header, names and sections:
`Pickle.decode_overwrite`. What is seen of the change is seen through the label of that section
only.

## Forms with another payload

The argument is one on forms, not on runs. A form with another payload of the same length is spelled
by the same label and the same length, and what follows it stays at its addresses:
`SectionForm.Places.overwrite`. Among several sections one is overwritten and the others stay,
`SectionForm.PlacesAll.overwrite`, by induction on where in the list it is. The file that is spelled
by the new forms is the old one with other bytes in a range, and it is accepted because it is
spelled by a form.

## Other sections

A decoder may do anything with the reader it is given. So that it gives what it gave before, be it a
value or a fault, its reader has to be the same as before, and not only one with the same answers to
some requests. That it is the same follows from the ranges: those of different sections are apart,
`Pickle.Tiles.apart_of_ne`, and bytes outside of the overwritten range stay,
`Pickle.extract_overwrite_of_apart`.

## Labels

Two sections can have the same label, and then only the last of them can be looked up. If it is the
other one that is overwritten, the label gives what it gave before. The statement therefore asks
which section a label stands for, and not whether the labels are different.
-/

namespace TreePickle

namespace Pickle

/-! ## Other bytes in a range -/

/-- The file with other bytes in the place of the payload of a section. -/
def Section.overwrite (s : Section) (bytes payload : List UInt8) : List UInt8 :=
  bytes.take s.start ++ (payload ++ bytes.drop s.stop)

section

variable {s : Section} {bytes payload : List UInt8}

theorem Section.start_add_size (hle : s.start ≤ s.stop) : s.start + s.size = s.stop :=
  Nat.add_sub_of_le hle

theorem getElem?_overwrite (hle : s.start ≤ s.stop) (hstop : s.stop ≤ bytes.length)
    (hsize : payload.length = s.size) (i : Nat) :
    (s.overwrite bytes payload)[i]? =
      if s.start ≤ i ∧ i < s.stop then payload[i - s.start]? else bytes[i]? := by
  have hlen : (bytes.take s.start).length = s.start := List.length_take_of_le (hle.trans hstop)
  have hend : s.start + payload.length = s.stop := hsize ▸ Section.start_add_size hle
  rw [Section.overwrite]
  by_cases hfront : i < s.start
  · rw [List.getElem?_append_left (by omega), List.getElem?_take_of_lt hfront, if_neg (by omega)]
  · rw [List.getElem?_append_right (by omega), hlen]
    by_cases hpayload : i < s.stop
    · rw [List.getElem?_append_left (by omega), if_pos ⟨Nat.not_lt.mp hfront, hpayload⟩]
    · have hi : s.stop + (i - s.start - payload.length) = i := by omega
      rw [List.getElem?_append_right (by omega), List.getElem?_drop, hi,
        if_neg fun h ↦ hpayload h.2]

/-- Ranges apart from the payload stay as they are. -/
theorem extract_overwrite_of_apart (hle : s.start ≤ s.stop) (hstop : s.stop ≤ bytes.length)
    (hsize : payload.length = s.size) {a b : Nat} (h : s.stop ≤ a ∨ b ≤ s.start) :
    (s.overwrite bytes payload).extract a b = bytes.extract a b := by
  refine List.ext_getElem? fun i ↦ ?_
  rw [List.extract_eq_take_drop, List.extract_eq_take_drop, List.getElem?_take, List.getElem?_take,
    List.getElem?_drop, List.getElem?_drop, getElem?_overwrite hle hstop hsize]
  by_cases hi : i < b - a
  · rw [if_pos hi, if_pos hi, if_neg (by omega)]
  · rw [if_neg hi, if_neg hi]

theorem extract_overwrite (hle : s.start ≤ s.stop) (hstop : s.stop ≤ bytes.length)
    (hsize : payload.length = s.size) :
    (s.overwrite bytes payload).extract s.start s.stop = payload := by
  have hlen : (bytes.take s.start).length = s.start := List.length_take_of_le (hle.trans hstop)
  rw [List.extract_eq_take_drop, Section.overwrite, List.drop_left' hlen]
  exact List.take_left' hsize

end

/-- Different sections of a file have ranges apart from each other. -/
theorem Tiles.apart_of_ne {first last : Nat} {ss : List Section} (h : Tiles first last ss)
    {s t : Section} (hs : s ∈ ss) (ht : t ∈ ss) (hne : s ≠ t) :
    s.stop ≤ t.start ∨ t.stop ≤ s.start := by
  have hsymm : Std.Symm fun s t : Section ↦ s.stop ≤ t.start ∨ t.stop ≤ s.start :=
    ⟨fun _ _ ↦ Or.symm⟩
  have hpairs : ss.Pairwise fun s t ↦ s.stop ≤ t.start ∨ t.stop ≤ s.start :=
    h.apart.imp fun hst ↦ .inl (Nat.le_of_add_right_le hst)
  exact hpairs.forall hs ht hne

end Pickle

/-! ## Forms with another payload -/

namespace SectionForm

variable {names : List Name} {f : SectionForm} {a : Nat} {s : Pickle.Section}
  {bs payload : List UInt8}

/-- A section with another payload of the same length is found where it was. -/
theorem Places.overwrite (h : f.Places names a s bs) (hsize : payload.length = s.size) :
    ∃ head, bs = head ++ f.payload ∧ a + head.length = s.start ∧
      f.payload.length = payload.length ∧
      Places names ⟨f.label, payload⟩ a s (head ++ payload) := by
  obtain ⟨head, hhead, rfl, hlabel, hstart, hstop⟩ := h
  have hlen : f.payload.length = payload.length := by
    rw [hsize, Pickle.Section.size, Address.distance, hstart, hstop, List.length_append]
    omega
  rw [hlen] at hhead
  rw [List.length_append, hlen, ← List.length_append] at hstop
  exact ⟨head, rfl, hstart.symm, hlen, head, hhead, rfl, hlabel, hstart, hstop⟩

/-- In the bytes of several sections, the payload of one of them can be replaced. -/
theorem PlacesAll.overwrite {fs : List SectionForm} {ss : List Pickle.Section}
    (h : PlacesAll names fs a ss bs) (hs : s ∈ ss) (hsize : payload.length = s.size) :
    ∃ before old after, bs = before ++ (old ++ after) ∧ a + before.length = s.start ∧
      old.length = payload.length ∧
      ∃ fs', PlacesAll names fs' a ss (before ++ (payload ++ after)) := by
  induction h with
  | nil => cases hs
  | @cons f fs a t ss bs cs hf hrest ih =>
    rcases List.mem_cons.mp hs with rfl | hs
    · obtain ⟨head, rfl, hstart, hlen, hplaces⟩ := hf.overwrite hsize
      refine ⟨head, f.payload, cs, List.append_assoc _ _ _, hstart, hlen,
        ⟨f.label, payload⟩ :: fs, ?_⟩
      rw [← List.append_assoc]
      refine .cons hplaces ?_
      rwa [List.length_append, ← hlen, ← List.length_append]
    · obtain ⟨before, old, after, rfl, hstart, hlen, fs', hplaces⟩ := ih hs
      refine ⟨bs ++ before, old, after, (List.append_assoc _ _ _).symm, ?_, hlen, f :: fs', ?_⟩
      · rw [List.length_append, ← Nat.add_assoc, hstart]
      · rw [List.append_assoc]
        exact .cons hf hplaces

end SectionForm

namespace Pickle

open Decode

variable {reader : Version} {bytes payload : List UInt8} {p : Pickle} {s : Section}

/-! ## Files with another payload -/

/-- The whole file is read as before, its bytes apart. -/
theorem decode_overwrite_eq (h : decode reader bytes = .ok p) (hs : s ∈ p.sections)
    (hsize : payload.length = s.size) :
    decode reader (s.overwrite bytes payload) =
      .ok { p with bytes := s.overwrite bytes payload } := by
  obtain ⟨-, hindex, hlt, front, tail, rfl, hfront, fs, hfs⟩ := decode_eq_ok_iff_parts.mp h
  obtain ⟨before, old, after, rfl, hstart, hlen, fs', hplaces⟩ := hfs.overwrite hs hsize
  obtain ⟨a, -, htiles⟩ := exists_tiles_of_decode h
  have hle := htiles.start_le_stop s hs
  -- the bytes in front of the payload and those behind it are the same as before
  have hbytes : s.overwrite (front ++ (before ++ (old ++ after))) payload =
      front ++ (before ++ (payload ++ after)) := by
    have hfront : (front ++ before).length = s.start := by rw [List.length_append, hstart]
    have hback : (front ++ before ++ old).length = s.stop := by
      rw [List.length_append, hfront, hlen, hsize, Section.start_add_size hle]
    have htake : (front ++ (before ++ (old ++ after))).take s.start = front ++ before := by
      rw [← List.append_assoc, List.take_left' hfront]
    have hdrop : (front ++ (before ++ (old ++ after))).drop s.stop = after := by
      rw [← List.append_assoc, ← List.append_assoc, List.drop_left' hback]
    rw [Section.overwrite, htake, hdrop, List.append_assoc]
  rw [hbytes]
  refine decode_eq_ok_iff_parts.mpr ⟨rfl, hindex, ?_, front, _, rfl, hfront, fs', hplaces⟩
  simpa only [List.length_append, hlen] using hlt

/-- A section is given the same reader as before if it is another one than that overwritten. -/
theorem reader_overwrite_of_ne (h : decode reader bytes = .ok p) (hs : s ∈ p.sections)
    (hsize : payload.length = s.size) {t : Section} (ht : t ∈ p.sections) (hne : t ≠ s) :
    t.reader (s.overwrite bytes payload) = t.reader bytes := by
  obtain ⟨a, -, htiles⟩ := exists_tiles_of_decode h
  have hwindow := extract_overwrite_of_apart (htiles.start_le_stop s hs) (htiles.stop_le s hs) hsize
    (htiles.apart_of_ne ht hs hne).symm
  rw [Section.reader, hwindow, Section.reader]

/-- **Payloads are opaque.** A file with other bytes in the payload of one section is read as the
same header, names and sections. A decoder of any section but that one gives what it gave before,
be it a value or a fault, and the bytes of that one are the new ones. -/
theorem decode_overwrite (h : decode reader bytes = .ok p) (hs : s ∈ p.sections)
    (hsize : payload.length = s.size) :
    ∃ q, decode reader (s.overwrite bytes payload) = .ok q ∧
      q.header = p.header ∧ q.names = p.names ∧ q.sections = p.sections ∧
      (∀ label, q.section? label = p.section? label) ∧
      (∀ (α : Type) (d : SectionDecoder α), p.section? d.label ≠ some s →
        q.lookup d = p.lookup d) ∧
      ∀ label, p.section? label = some s → q.lookup (rawSection label) = .ok (some payload) := by
  have hq := decode_overwrite_eq h hs hsize
  refine ⟨_, hq, rfl, rfl, rfl, fun label ↦ rfl, ?_, ?_⟩
  · intro α d hne
    rw [lookup_of_decode hq, lookup_of_decode h]
    change (p.section? d.label).mapM _ = (p.section? d.label).mapM _
    cases ht : p.section? d.label with
    | none => rfl
    | some t =>
      rw [ht] at hne
      have hreader := reader_overwrite_of_ne h hs hsize (mem_of_section?_eq_some h ht)
        fun hts ↦ hne (congrArg some hts)
      rw [Option.mapM_some, Option.mapM_some, hreader]
  · intro label hlabel
    obtain ⟨a, -, htiles⟩ := exists_tiles_of_decode h
    rw [lookup_rawSection hq]
    change Except.ok ((p.section? label).map _) = _
    rw [hlabel, Option.map_some,
      extract_overwrite (htiles.start_le_stop s hs) (htiles.stop_le s hs) hsize]

/-- A payload in front of the attributes, overwritten with what looks like one more section. -/
theorem decode_overwrite_besideAttributes :
    let bytes := magic ++ [156, 131, 128, 128] ++ List.replicate 16 0 ++
      [143, 1, 129, 65, 1, 138, 65, 116, 116, 114, 105, 98, 117, 116, 101, 115] ++
      [128, 130, 7, 8, 129, 129, 5]
    let s : Section := ⟨"A", 42, 44⟩
    ∃ p q, decode .current bytes = .ok p ∧ s ∈ p.sections ∧
      decode .current (s.overwrite bytes [129, 255]) = .ok q ∧ q.sections = p.sections ∧
      q.lookup Attributes.sectionDecoder = p.lookup Attributes.sectionDecoder ∧
      q.lookup (rawSection "A") = .ok (some [129, 255]) ∧
      q.lookup (rawSection Section.attributes) = .ok (some [5]) := by
  intro bytes s
  obtain ⟨p, hp, hsections⟩ : ∃ p, decode .current bytes = .ok p ∧
      p.sections = [s, ⟨Section.attributes, 46, 47⟩] := exists_decode_eq_ok (by decide +kernel)
  have hs : s ∈ p.sections := hsections ▸ List.mem_cons_self
  have hsection (label : String) := section?_of_decode hp label
  rw [hsections] at hsection
  have hattributes : p.section? Section.attributes = some ⟨Section.attributes, 46, 47⟩ :=
    (hsection _).trans (by decide)
  have hne : p.section? Section.attributes ≠ some s := by
    rw [hattributes]
    decide
  obtain ⟨q, hq, -, -, hsame, -, hothers, hown⟩ := @decode_overwrite _ _ [129, 255] p s hp hs rfl
  refine ⟨p, q, hp, hs, hq, hsame, hothers _ Attributes.sectionDecoder hne, ?_, ?_⟩
  · exact hown "A" ((hsection "A").trans (by decide))
  · rw [hothers _ (rawSection Section.attributes) hne, lookup_rawSection hp, hattributes]
    rfl

end Pickle

end TreePickle
