import TreePickle.Proofs.Numeral
import TreePickle.Writer

/-!
# What a writing operation appends

`Writer.Appends put L` says that `put` appends one of the strings of the language `L`. Frames carry
their length in 64 bits, so this is claimed only where no more bytes are appended than there are
addresses: a file beyond that size could not be read by anyone.

## Languages between writing and reading

What is appended to a writer depends on nothing that it holds, and operations in a row append
strings of the product of their languages, `Appends.comp`. A list that is written item by item
appends a string of the product over the list, `Appends.foldl`. So a writing operation can be
compared with a reading action through the language alone: the one appends strings of it, the other
accepts exactly these, and neither mentions the other.

The language says less than the operation. It allows all spellings of a number and all lengths that
are right, of which a writer chooses the shortest. For what is read back that is enough.

## Frames

`framed L` are the strings of `L` behind their lengths. The bound on the size comes in here and
nowhere else: the length of a payload is a number that has to fit into 64 bits, and an operation
that appends no more than that cannot have put a longer payload into a frame.
-/

namespace TreePickle

open Base128

/-! ## Frames -/

/-- The strings of `L`, each behind its length. -/
def framed (L : Language UInt8) : Language UInt8 :=
  {bs | ∃ payload ∈ L, ∃ size ∈ natural payload.length, bs = size ++ payload}

theorem encode_mem_natural {n : Nat} (h : n < Address.bound) : encode .unsigned n ∈ natural n := by
  refine Decode.encode_mem_numeral (Kind.fits_iff.mpr ⟨Int.natCast_nonneg n, ?_⟩)
  rw [Kind.bound]
  exact_mod_cast h

theorem encode_mem_integer {v : Int} (hle : -0x8000000000000000 ≤ v)
    (hlt : v < 0x8000000000000000) : encode .signed v ∈ integer v :=
  Decode.encode_mem_numeral (Kind.fits_iff.mpr ⟨hle, hlt⟩)

/-- The frame of a payload that is not too long. -/
theorem encode_append_mem_framed {L : Language UInt8} {payload : List UInt8} (hp : payload ∈ L)
    (hlt : payload.length < Address.bound) :
    encode .unsigned payload.length ++ payload ∈ framed L :=
  ⟨payload, hp, _, encode_mem_natural hlt, rfl⟩

/-! ## Operations -/

namespace Writer

variable {put put' : Writer → Writer} {L L' : Language UInt8}

/-- The bytes that `put` appends are a string of `L`, if they can have addresses at all. -/
def Appends (put : Writer → Writer) (L : Language UInt8) : Prop :=
  ∀ w, ∃ bs, (put w).bytes = w.bytes ++ bs ∧ (bs.length < Address.bound → bs ∈ L)

namespace Appends

theorem id : Appends id 1 := fun _ ↦ ⟨[], (List.append_nil _).symm, fun _ ↦ Language.nil_mem_one⟩

/-- Two operations in a row append a string of the one and then a string of the other. -/
theorem comp (h' : Appends put' L') (h : Appends put L) :
    Appends (fun w ↦ put' (put w)) (L * L') := by
  intro w
  obtain ⟨bs, hbs, hL⟩ := h w
  obtain ⟨bs', hbs', hL'⟩ := h' (put w)
  refine ⟨bs ++ bs', ?_, fun hlt ↦ ?_⟩
  · rw [hbs', hbs, List.append_assoc]
  · rw [List.length_append] at hlt
    exact Language.append_mem_mul (hL (by omega)) (hL' (by omega))

/-- Writing a list of things one by one. -/
theorem foldl {α : Type} {put : Writer → α → Writer} {L : α → Language UInt8} {xs : List α}
    (h : ∀ x ∈ xs, Appends (put · x) (L x)) :
    Appends (fun w ↦ xs.foldl put w) (xs.map L).prod := by
  induction xs with
  | nil => exact id
  | cons x xs ih =>
    exact (ih fun y hy ↦ h y (List.mem_cons_of_mem x hy)).comp (h x List.mem_cons_self)

theorem putByte (b : UInt8) : Appends (·.putByte b) {[b]} :=
  fun w ↦ ⟨[b], w.bytes_putByte b, fun _ ↦ rfl⟩

theorem putBytes (bs : List UInt8) : Appends (·.putBytes bs) {bs} :=
  fun w ↦ ⟨bs, w.bytes_putBytes bs, fun _ ↦ rfl⟩

theorem putNat (n : UInt32) : Appends (·.putNat n) (natural n.toNat) :=
  fun w ↦ ⟨_, w.bytes_putNat n, fun _ ↦
    encode_mem_natural (n.toNat_lt.trans (by decide))⟩

theorem putLongNat (n : UInt64) : Appends (·.putLongNat n) (natural n.toNat) :=
  fun w ↦ ⟨_, w.bytes_putLongNat n, fun _ ↦ encode_mem_natural n.toNat_lt⟩

theorem putInt (v : Int32) : Appends (·.putInt v) (integer v.toInt) := by
  refine fun w ↦ ⟨_, w.bytes_putInt v, fun _ ↦ encode_mem_integer ?_ ?_⟩
  · exact le_trans (by decide) v.le_toInt
  · exact lt_of_lt_of_le v.toInt_lt (by decide)

theorem putLongInt (v : Int64) : Appends (·.putLongInt v) (integer v.toInt) :=
  fun w ↦ ⟨_, w.bytes_putLongInt v, fun _ ↦ encode_mem_integer v.le_toInt v.toInt_lt⟩

theorem putFramed (h : Appends put L) : Appends (·.putFramed put) (framed L) := by
  intro w
  obtain ⟨payload, hp, hL⟩ := h empty
  rw [bytes_empty, List.nil_append] at hp
  refine ⟨encode .unsigned payload.length ++ payload, ?_, fun hlt ↦ ?_⟩
  · rw [bytes_putFramed, hp, List.append_assoc]
  · rw [List.length_append] at hlt
    exact encode_append_mem_framed (hL (by omega)) (by omega)

theorem putText (s : String) : Appends (·.putText s) (framed {Text.utf8 s}) := by
  intro w
  refine ⟨encode .unsigned (Text.utf8 s).length ++ Text.utf8 s, ?_, fun hlt ↦ ?_⟩
  · rw [bytes_putText, List.append_assoc]
  · rw [List.length_append] at hlt
    exact encode_append_mem_framed rfl (by omega)

end Appends

end Writer

end TreePickle
