import TreePickle.Proofs.SectionIndex

/-!
# Files that are cut off

A file does not say how long it is. If it is cut off behind its names or behind one of its sections,
what is left is a file with fewer sections; cut off anywhere else it is refused. This is
`Pickle.decode_take`, for every length that is left.

## Cutting a list of sections

Sections that are cut in two lists are spelled one behind the other, the second list from the
address on where the first ends: `SectionForm.PlacesAll.exists_append`. So a cut behind a section
leaves bytes that are spelled by some sections, and a file that is spelled by a form is accepted.

## Why nothing else is accepted

The other direction starts from two readings of the same bytes, one of the whole file and one of
what is left. At most one section can be read from some bytes, so the two agree section by section
as long as there is one in both, `SectionForm.PlacesAll.append_of_prefix`. The shorter reading comes
to its end first and its end is the cut. It has used up all that is left, which makes it a beginning
of the longer one, and the address of the cut is the end of one of its sections, or of the names if
there is none.

The header and the names are compared as one part. What is read from the beginning of some bytes is
unique as well, whatever follows, so in both readings it is the same header, the same names, and the
same address for the sections to begin at.

## What is left

The sections of what is left are those that end in front of the cut. As a filter this does not speak
of places in the list, `Pickle.Tiles.filter_append`.
-/

namespace TreePickle

namespace SectionForm.PlacesAll

variable {fs fs' : List SectionForm} {a : Nat} {ss ss' : List Pickle.Section}

theorem exists_append {names : List Name} {bs : List UInt8}
    (h : PlacesAll names fs a (ss ++ ss') bs) :
    ∃ cs ds, bs = cs ++ ds ∧ (∃ fs₁, PlacesAll names fs₁ a ss cs) ∧
      ∃ fs₂, PlacesAll names fs₂ (a + cs.length) ss' ds := by
  induction ss generalizing fs a bs with
  | nil => exact ⟨[], bs, rfl, ⟨[], .nil⟩, fs, h⟩
  | cons s ss ih =>
    cases h with
    | @cons f fs _ _ _ b bs hf hrest =>
      obtain ⟨cs, ds, rfl, ⟨fs₁, hcs⟩, fs₂, hds⟩ := ih hrest
      refine ⟨b ++ cs, ds, (List.append_assoc b cs ds).symm, ⟨f :: fs₁, .cons hf hcs⟩, fs₂, ?_⟩
      rwa [List.length_append, ← Nat.add_assoc]

/-- The sections up to one of them are spelled in the bytes up to its end. -/
theorem exists_upTo {names : List Name} {bs : List UInt8} (h : PlacesAll names fs a ss bs)
    {s : Pickle.Section} (hs : s ∈ ss) :
    ∃ cs ds, bs = cs ++ ds ∧ a + cs.length = s.stop ∧ ∃ ss₁ fs₁, PlacesAll names fs₁ a ss₁ cs := by
  obtain ⟨before, after, rfl⟩ := List.append_of_mem hs
  rw [← List.singleton_append, ← List.append_assoc] at h
  obtain ⟨cs, ds, hbytes, ⟨fs₁, hcs⟩, -⟩ := h.exists_append
  have hends := hcs.tiles.ends
  rw [List.getLast?_concat] at hends
  exact ⟨cs, ds, hbytes, hends.symm, _, fs₁, hcs⟩

/-- Sections that are read from a beginning of the bytes are the first ones of all. -/
theorem append_of_prefix {table : NameTable} {cs ds : List UInt8}
    (h : PlacesAll table.known fs a ss (cs ++ ds)) (h' : PlacesAll table.known fs' a ss' cs)
    (hlt : a + (cs ++ ds).length < Address.bound) :
    ∃ rest, ss = ss' ++ rest ∧ ∃ fs₂, PlacesAll table.known fs₂ (a + cs.length) rest ds := by
  induction h' generalizing fs ss with
  | nil => exact ⟨ss, rfl, fs, h⟩
  | @cons f' fs' a s' ss' b' cs hf' hrest' ih =>
    rw [List.append_assoc] at h hlt
    generalize hbytes : b' ++ (cs ++ ds) = bytes at h hlt
    cases h with
    | nil =>
      have hnil : b' = [] := (List.append_eq_nil_iff.mp hbytes).1
      exact absurd hnil (List.ne_nil_of_length_pos hf'.length_pos)
    | @cons f fs _ s ss b bs hf hrest =>
      -- the first section is read in one way only
      have hspells : Pickle.SectionSpells (a + (b ++ bs).length) table.known a s b := by
        rw [List.length_append] at hlt ⊢
        exact ⟨⟨f, hf⟩, by omega, by omega⟩
      have hspells' : Pickle.SectionSpells (a + (b ++ bs).length) table.known a s' b' := by
        rw [← hbytes, List.length_append] at hlt ⊢
        exact ⟨⟨f', hf'⟩, by omega, by omega⟩
      have hlimit : a + b'.length + (cs ++ ds).length = a + (b ++ bs).length := by
        rw [← hbytes, Nat.add_assoc, ← List.length_append]
      obtain ⟨rfl, rfl, rfl⟩ := (Pickle.reads_nextSection (a + (b ++ bs).length)).unique hspells'
        hspells hbytes hlimit
      rw [List.length_append, ← Nat.add_assoc] at hlt
      obtain ⟨rest, rfl, hds⟩ := ih hrest hlt
      refine ⟨rest, rfl, ?_⟩
      rwa [List.length_append, ← Nat.add_assoc]

end SectionForm.PlacesAll

namespace Pickle

open Decode

/-! ## Sections in front of an address -/

theorem Tiles.filter_append {first middle last : Nat} {ss ss' : List Section}
    (h : Tiles first middle ss) (h' : Tiles middle last ss') :
    (ss ++ ss').filter (fun s ↦ s.stop ≤ middle) = ss := by
  have hfront : ss.filter (fun s ↦ s.stop ≤ middle) = ss := by
    rw [List.filter_eq_self]
    intro s hs
    exact decide_eq_true (h.stop_le s hs)
  have hrest : ss'.filter (fun s ↦ s.stop ≤ middle) = [] := by
    rw [List.filter_eq_nil_iff]
    intro s hs
    have hfirst := h'.first_le s hs
    have hle := h'.start_le_stop s hs
    rw [decide_eq_true_eq]
    omega
  rw [List.filter_append, hfront, hrest, List.append_nil]

/-! ## Cuts -/

variable {reader : Version} {bytes : List UInt8} {p q : Pickle} {k : Nat}

/-- What is left of a file has the same header and names. Its sections end where the file was cut
off, and the other ones begin there. -/
theorem exists_append_of_decode_take (h : decode reader bytes = .ok p)
    (hq : decode reader (bytes.take k) = .ok q) (hk : k ≤ bytes.length) :
    q.header = p.header ∧ q.names = p.names ∧ ∃ a rest, namesStop reader bytes = .ok a ∧
      p.sections = q.sections ++ rest ∧ Tiles a k q.sections ∧ Tiles k bytes.length rest := by
  obtain ⟨-, -, hlt, front, tail, rfl, hfront, fs, hfs⟩ := decode_eq_ok_iff_parts.mp h
  obtain ⟨-, -, -, front', cs, hcut, hfront', fs', hfs'⟩ := decode_eq_ok_iff_parts.mp hq
  obtain ⟨ds, hbytes⟩ : ∃ ds, front ++ tail = front' ++ (cs ++ ds) := by
    refine ⟨(front ++ tail).drop k, ?_⟩
    rw [← List.append_assoc, ← hcut, List.take_append_drop]
  have hlen : front'.length + cs.length = k := by
    rw [← List.length_append, ← hcut, List.length_take_of_le hk]
  obtain ⟨hparts, rfl, rfl⟩ := reads_front.unique hfront hfront' hbytes rfl
  injection hparts with hheader hnames
  rw [← hnames] at hfs'
  rw [List.length_append] at hlt
  obtain ⟨rest, hrest, fs₂, hds⟩ := hfs.append_of_prefix hfs' hlt
  have hlast : front.length + cs.length + ds.length = (front ++ (cs ++ ds)).length := by
    rw [List.length_append, List.length_append, Nat.add_assoc]
  have htiles := hfs'.tiles
  have htiles' := hds.tiles
  rw [hlast] at htiles'
  rw [hlen] at htiles htiles'
  exact ⟨hheader.symm, hnames.symm, front.length, rest, namesStop_append hfront _, hrest, htiles,
    htiles'⟩

/-- Behind the names and behind each section a file can be cut off. -/
theorem exists_decode_take (h : decode reader bytes = .ok p)
    (hk : namesStop reader bytes = .ok k ∨ ∃ s ∈ p.sections, s.stop = k) :
    ∃ q, decode reader (bytes.take k) = .ok q := by
  obtain ⟨-, -, hlt, front, tail, rfl, hfront, fs, hfs⟩ := decode_eq_ok_iff_parts.mp h
  obtain ⟨cs, ds, rfl, hk, ss, fs₁, hcs⟩ : ∃ cs ds, tail = cs ++ ds ∧ front.length + cs.length = k ∧
      ∃ ss fs₁, SectionForm.PlacesAll p.names.known fs₁ front.length ss cs := by
    rcases hk with hk | ⟨s, hs, hk⟩
    · rw [namesStop_append hfront] at hk
      exact ⟨[], tail, rfl, Except.ok.inj hk, [], [], .nil⟩
    · rw [← hk]
      exact hfs.exists_upTo hs
  have hcut : (front ++ (cs ++ ds)).take k = front ++ cs := by
    rw [← List.append_assoc, ← hk, ← List.length_append, List.take_left]
  rw [hcut]
  rw [← List.append_assoc, List.length_append] at hlt
  exact ⟨⟨front ++ cs, p.header, p.names, ss, indexOf ss⟩, decode_eq_ok_iff_parts.mpr
    ⟨rfl, rfl, by omega, front, cs, rfl, hfront, fs₁, hcs⟩⟩

/-- **Files that are cut off.** What is left of a file is accepted exactly if it ends with the names
or with a section, and then it is read as before, with the sections that are left. -/
theorem decode_take (h : decode reader bytes = .ok p) (hk : k ≤ bytes.length) :
    ((∃ q, decode reader (bytes.take k) = .ok q) ↔
      namesStop reader bytes = .ok k ∨ ∃ s ∈ p.sections, s.stop = k) ∧
    ∀ q, decode reader (bytes.take k) = .ok q →
      q.header = p.header ∧ q.names = p.names ∧
        q.sections = p.sections.filter fun s ↦ s.stop ≤ k := by
  constructor
  · constructor
    · rintro ⟨q, hq⟩
      obtain ⟨-, -, a, rest, hnames, hsections, htiles, -⟩ := exists_append_of_decode_take h hq hk
      rw [hsections]
      rcases htiles.eq_or_exists_stop_eq with rfl | ⟨s, hs, hstop⟩
      · exact .inl hnames
      · exact .inr ⟨s, List.mem_append_left rest hs, hstop⟩
    · exact exists_decode_take h
  · intro q hq
    obtain ⟨hheader, hnames, a, rest, -, hsections, htiles, hrest⟩ :=
      exists_append_of_decode_take h hq hk
    rw [hsections, htiles.filter_append hrest]
    exact ⟨hheader, hnames, rfl⟩

/-- Of two sections one is left, but not one and a half. -/
theorem decode_take_between :
    let bytes := magic ++ [156, 131, 128, 128] ++ List.replicate 16 0 ++
      [131, 1, 129, 65] ++ [128, 129, 7, 128, 130, 8, 9]
    ∃ p, decode .current bytes = .ok p ∧ namesStop .current bytes = .ok 28 ∧
      p.sections = [⟨"A", 30, 31⟩, ⟨"A", 33, 35⟩] ∧
      (∃ q, decode .current (bytes.take 28) = .ok q ∧ q.sections = []) ∧
      (∃ q, decode .current (bytes.take 31) = .ok q ∧ q.sections = [⟨"A", 30, 31⟩]) ∧
      ¬∃ q, decode .current (bytes.take 34) = .ok q := by
  intro bytes
  obtain ⟨p, hp, hsections⟩ : ∃ p, decode .current bytes = .ok p ∧
      p.sections = [⟨"A", 30, 31⟩, ⟨"A", 33, 35⟩] := exists_decode_eq_ok (by decide +kernel)
  have hnames : namesStop .current bytes = .ok 28 := by decide +kernel
  have hcut (k : Nat) (hk : k ≤ 35) := decode_take hp hk
  rw [hsections] at hcut
  refine ⟨p, hp, hnames, hsections, ?_, ?_, fun hq ↦ ?_⟩
  · obtain ⟨q, hq⟩ := (hcut 28 (by decide)).1.mpr (.inl hnames)
    exact ⟨q, hq, ((hcut 28 (by decide)).2 q hq).2.2⟩
  · obtain ⟨q, hq⟩ := (hcut 31 (by decide)).1.mpr (.inr ⟨⟨"A", 30, 31⟩, by simp, rfl⟩)
    exact ⟨q, hq, ((hcut 31 (by decide)).2 q hq).2.2⟩
  · rcases (hcut 34 (by decide)).1.mp hq with hk | ⟨s, hs, hk⟩
    · rw [hnames] at hk
      cases hk
    · revert s
      decide

end Pickle

end TreePickle
