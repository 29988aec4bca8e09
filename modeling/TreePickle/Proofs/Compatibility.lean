import TreePickle.Proofs.FileParts
import TreePickle.Proofs.Outcome

/-!
# Versions and what they can read

A reader accepts its own version and the older stable ones: `Version.accepts_iff`. A file is read in
the same way by each reader that accepts its version, and refused for its version by all others. So
the version of the reader decides whether a file is read, and nothing else:
`Pickle.decode_of_version`.

## Acceptance as an order

Acceptance is reflexive, transitive and antisymmetric. A newer reader may therefore take the place
of one that it accepts, and no file is lost. The laws are derived from `Version.accepts_iff` alone.
An experimental version is accepted by itself only. It can stand at the upper end of a chain and
nowhere else, and among the stable versions there is one chain for each major version.

## One file, two readers

The version of the reader is looked at in one place, behind the version of the file and in front of
everything else. What is accepted by one reader is made of parts, and of these only the header asks
for the version of the reader, and only whether it accepts that of the file. So the same parts serve
for any other reader that does, `Pickle.decode_of_accepts`. If a reader does not, the run ends
there, and what follows is not looked at: `Pickle.decode_of_not_accepts` is about any bytes in the
place of the rest, those of no file included.
-/

namespace TreePickle

/-! ## The order of versions -/

namespace Version

variable {u v w : Version}

theorem isExperimental_eq_false_iff : v.isExperimental = false ↔ v.experimental = 0 := by
  rw [isExperimental, bne_eq_false_iff_eq]

/-- A reader accepts its own version, and the older stable ones. -/
theorem accepts_iff : u.accepts v = true ↔
    v = u ∨ (v.major = u.major ∧ v.isExperimental = false ∧ v.minor < u.minor) := by
  have heq : v = u ↔
      v.major = u.major ∧ v.minor = u.minor ∧ v.experimental = u.experimental := by
    cases u
    cases v
    rw [Version.mk.injEq]
  rw [accepts, Bool.and_eq_true, beq_iff_eq, heq]
  by_cases hv : v.isExperimental = true
  · rw [if_pos hv, Bool.and_eq_true, beq_iff_eq, beq_iff_eq, hv]
    simp
  · rw [Bool.not_eq_true] at hv
    -- of the reader's own minor version, the file is the stable one and so has to be the reader
    have hown : u.isExperimental = false ↔ v.experimental = u.experimental := by
      rw [isExperimental_eq_false_iff, isExperimental_eq_false_iff.mp hv, eq_comm]
    rw [if_neg (by simp [hv]), Bool.or_eq_true, Bool.and_eq_true, beq_iff_eq, decide_eq_true_eq,
      Bool.not_eq_true', hown, hv]
    tauto

theorem accepts_refl (v : Version) : v.accepts v = true := accepts_iff.mpr (.inl rfl)

theorem accepts_trans (huv : u.accepts v = true) (hvw : v.accepts w = true) :
    u.accepts w = true := by
  rw [accepts_iff] at huv hvw ⊢
  rcases hvw with rfl | ⟨hmajor, hstable, hminor⟩
  · exact huv
  · rcases huv with rfl | ⟨hmajor', -, hminor'⟩
    · exact .inr ⟨hmajor, hstable, hminor⟩
    · exact .inr ⟨hmajor.trans hmajor', hstable, UInt32.lt_trans hminor hminor'⟩

theorem accepts_antisymm (huv : u.accepts v = true) (hvu : v.accepts u = true) : u = v := by
  rw [accepts_iff] at huv hvu
  rcases huv with rfl | ⟨-, -, hminor⟩
  · rfl
  · rcases hvu with rfl | ⟨-, -, hminor'⟩
    · rfl
    · exact absurd hminor (UInt32.lt_asymm hminor')

end Version

/-! ## One file, two readers -/

namespace Pickle

open Decode

variable {reader reader' : Version} {bytes : List UInt8} {p : Pickle} {v : Version}

/-- A reader that accepts the version of a file reads it as another one did. -/
theorem decode_of_accepts (h : decode reader bytes = .ok p)
    (haccepts : reader'.accepts p.header.version = true) : decode reader' bytes = .ok p := by
  obtain ⟨hbytes, hindex, hlt, front, tail, rfl, hfront, hsections⟩ := decode_eq_ok_iff_parts.mp h
  obtain ⟨head, names, hparts, ⟨hhead, -⟩, hnames⟩ := hfront
  exact decode_eq_ok_iff_parts.mpr ⟨hbytes, hindex, hlt, front, tail, rfl,
    ⟨head, names, hparts, ⟨hhead, haccepts⟩, hnames⟩, hsections⟩

theorem version_of_decode (h : decode reader bytes = .ok p) :
    reader.accepts p.header.version = true ∧
      ∃ version ∈ p.header.version.spelling, ∃ rest, bytes = magic ++ (version ++ rest) := by
  obtain ⟨-, -, -, front, tail, rfl, ⟨head, names, rfl, ⟨hhead, haccepts⟩, -⟩, -⟩ :=
    decode_eq_ok_iff_parts.mp h
  obtain ⟨_, rfl, _, htail, rfl⟩ := Language.mem_mul.mp hhead
  obtain ⟨version, hversion, rest, -, rfl⟩ := Language.mem_mul.mp htail
  refine ⟨haccepts, version, hversion, rest ++ (names ++ tail), ?_⟩
  simp only [List.append_assoc]

/-- What follows the version of a file is not looked at by a reader that does not accept it. -/
theorem decode_of_not_accepts (haccepts : reader.accepts v = false) {version : List UInt8}
    (hversion : version ∈ v.spelling) (rest : List UInt8) :
    decode reader (magic ++ (version ++ rest)) =
      .error (.header (.incompatibleVersion v reader)) := by
  have hmagic : Decode.bytes magic.length ⟨0, magic ++ (version ++ rest)⟩ =
      .ok magic ⟨0 + magic.length, version ++ rest⟩ :=
    (Reads.bytes magic.length).run ⟨rfl, rfl⟩ rfl
  have hread : Decode.version ⟨0 + magic.length, version ++ rest⟩ =
      .ok v ⟨0 + magic.length + version.length, rest⟩ := Reads.version.run hversion rfl
  have hheader : Header.decode reader ⟨0, magic ++ (version ++ rest)⟩ =
      .error (.incompatibleVersion v reader) ⟨0 + magic.length + version.length, rest⟩ := by
    refine bind_eq_error_iff.mpr (.inr ⟨magic, _, mapError_eq_ok_iff.mpr hmagic, ?_⟩)
    rw [if_neg (not_not.mpr rfl)]
    refine bind_eq_error_iff.mpr (.inr ⟨v, _, mapError_eq_ok_iff.mpr hread, ?_⟩)
    rw [if_pos (by simp [haccepts])]
    rfl
  refine decode_eq_error_iff.mpr ⟨⟨0 + magic.length + version.length, rest⟩, ?_⟩
  exact bind_eq_error_iff.mpr (.inl (mapError_eq_error_iff.mpr ⟨_, hheader, rfl⟩))

/-- **Versions.** The version of a reader decides whether a file is read, and not how. Acceptance is
an order, so that a reader can be replaced by any other one that accepts it. -/
theorem decode_of_version :
    (∀ (r r' : Version) (bytes : List UInt8) (p : Pickle), decode r bytes = .ok p →
      decode r' bytes = if r'.accepts p.header.version then .ok p
        else .error (.header (.incompatibleVersion p.header.version r'))) ∧
    (∀ r r' : Version, r'.accepts r = true →
      ∀ (bytes : List UInt8) (p : Pickle), decode r bytes = .ok p → decode r' bytes = .ok p) ∧
    (∀ u : Version, u.accepts u = true) ∧
    (∀ u v w : Version, u.accepts v = true → v.accepts w = true → u.accepts w = true) ∧
    (∀ u v : Version, u.accepts v = true → v.accepts u = true → u = v) ∧
    ∀ r v : Version, r.accepts v = false → ∀ version ∈ v.spelling, ∀ rest : List UInt8,
      decode r (magic ++ (version ++ rest)) = .error (.header (.incompatibleVersion v r)) := by
  refine ⟨?_, ?_, Version.accepts_refl, fun u v w ↦ Version.accepts_trans,
    fun u v ↦ Version.accepts_antisymm, ?_⟩
  · intro r r' bytes p h
    by_cases haccepts : r'.accepts p.header.version = true
    · rw [if_pos haccepts]
      exact decode_of_accepts h haccepts
    · rw [if_neg haccepts]
      obtain ⟨-, version, hversion, rest, rfl⟩ := version_of_decode h
      exact decode_of_not_accepts (Bool.not_eq_true _ ▸ haccepts) hversion rest
  · intro r r' hr bytes p h
    exact decode_of_accepts h (Version.accepts_trans hr (version_of_decode h).1)
  · intro r v haccepts version hversion rest
    exact decode_of_not_accepts haccepts hversion rest

/-- A snapshot of the next minor version reads a stable file, and a snapshot of the file's own minor
version does not. -/
theorem decode_of_version_snapshots :
    let bytes := magic ++ [156, 131, 128, 128] ++ List.replicate 16 0 ++ [128]
    ∃ p, decode ⟨28, 3, 0⟩ bytes = .ok p ∧ decode ⟨28, 4, 1⟩ bytes = .ok p ∧
      decode ⟨28, 3, 1⟩ bytes = .error (.header (.incompatibleVersion ⟨28, 3, 0⟩ ⟨28, 3, 1⟩)) := by
  intro bytes
  obtain ⟨p, hp, hversion⟩ : ∃ p, decode ⟨28, 3, 0⟩ bytes = .ok p ∧ p.header.version = ⟨28, 3, 0⟩ :=
    exists_decode_eq_ok (by decide +kernel)
  obtain ⟨hread, hnewer, -⟩ := decode_of_version
  refine ⟨p, hp, hnewer _ _ (by decide) _ _ hp, ?_⟩
  rw [hread _ ⟨28, 3, 1⟩ _ _ hp, hversion, if_neg (by decide)]

end Pickle

end TreePickle
