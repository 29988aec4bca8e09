import Mathlib.Algebra.Order.BigOperators.Group.List
import TreePickle.Proofs.Canonical
import TreePickle.Proofs.FileForm

/-!
# The size of what is written

A file can only be read if its bytes have addresses, so a file that is made up from something has to
be shown to be small enough. The name section of a file is bounded here by the number of its records
and by what is in them: `FileForm.size_putNames_le`.

## Bounds for writers

`Writer.Grows n put` says that `put` appends at most `n` bytes, and its lemmas follow the operations
of a writer, as those of `Writer.Appends` do. The one says how many bytes there are and the other
which ones, and the bound of an operation that spells something follows from what it spells,
`Writer.Grows.of_bytes`.

A frame is the exception. Its length is not known before it has been written, and it is a number
like any other only if the frame is shorter than the addresses go. That is asked of what goes into
the frame, and the hypothesis is passed on to the records.

## How large a record is

A number is allowed ten bytes, be it small or large. That is far from tight, and it makes the bound
of a record a sum: there are at most three numbers besides those that its tag leaves open, each
parameter is a number, and a text has its bytes. `Record.openSize` is what a tag does not limit, and
all else is the same constant for all records.
-/

namespace TreePickle

open Base128

theorem Base128.length_encode_unsigned_le {n : Nat} (h : n < Address.bound) :
    (encode .unsigned n).length ≤ 10 :=
  length_encode_le (encode_mem_natural h).2.2

namespace Writer

variable {m n : Nat} {put put' : Writer → Writer}

/-- `put` appends at most `n` bytes. -/
def Grows (n : Nat) (put : Writer → Writer) : Prop := ∀ w, (put w).size ≤ w.size + n

namespace Grows

theorem of_bytes {bs : List UInt8} (hbytes : ∀ w, (put w).bytes = w.bytes ++ bs)
    (hn : bs.length ≤ n) : Grows n put := by
  intro w
  rw [← length_bytes, hbytes, List.length_append, length_bytes]
  exact Nat.add_le_add_left hn _

theorem mono (h : Grows m put) (hmn : m ≤ n) : Grows n put :=
  fun w ↦ (h w).trans (Nat.add_le_add_left hmn _)

theorem comp (h' : Grows m put') (h : Grows n put) : Grows (n + m) fun w ↦ put' (put w) := by
  intro w
  calc (put' (put w)).size
      ≤ (put w).size + m := h' (put w)
    _ ≤ w.size + n + m := Nat.add_le_add_right (h w) m
    _ = w.size + (n + m) := Nat.add_assoc _ _ _

/-- Writing a list of things one by one. -/
theorem foldl {α : Type} {put : Writer → α → Writer} {f : α → Nat} {xs : List α}
    (h : ∀ x ∈ xs, Grows (f x) (put · x)) : Grows (xs.map f).sum fun w ↦ xs.foldl put w := by
  induction xs with
  | nil => exact fun w ↦ Nat.le_refl _
  | cons x xs ih =>
    rw [List.map_cons, List.sum_cons]
    exact (ih fun y hy ↦ h y (List.mem_cons_of_mem x hy)).comp (h x List.mem_cons_self)

/-- Writing a list of numbers. -/
theorem foldl_const {α : Type} {put : Writer → α → Writer} {xs : List α}
    (h : ∀ x, Grows n (put · x)) : Grows (n * xs.length) fun w ↦ xs.foldl put w :=
  (foldl fun x _ ↦ h x).mono (by simp [Nat.mul_comm])

theorem putByte (b : UInt8) : Grows 1 (·.putByte b) :=
  of_bytes (fun w ↦ w.bytes_putByte b) (Nat.le_refl 1)

theorem putBytes (bs : List UInt8) : Grows bs.length (·.putBytes bs) :=
  of_bytes (fun w ↦ w.bytes_putBytes bs) (Nat.le_refl _)

theorem putLongNat (v : UInt64) : Grows 10 (·.putLongNat v) :=
  of_bytes (fun w ↦ w.bytes_putLongNat v) (length_encode_unsigned_le v.toNat_lt)

theorem putNat (v : UInt32) : Grows 10 (·.putNat v) :=
  of_bytes (fun w ↦ w.bytes_putNat v)
    (length_encode_unsigned_le (v.toNat_lt.trans (b := 2 ^ 32) (by decide)))

theorem putInt (v : Int32) : Grows 10 (·.putInt v) := by
  refine of_bytes (fun w ↦ w.bytes_putInt v) (length_encode_le (Kind.fits_iff.mpr ⟨?_, ?_⟩))
  · exact le_trans (by decide) v.le_toInt
  · exact lt_of_lt_of_le v.toInt_lt (by decide)

theorem putFramed (h : Grows n put) (hn : n < Address.bound) :
    Grows (10 + n) (·.putFramed put) := by
  have hpayload : (put .empty).bytes.length ≤ n := by
    have hput := h .empty
    rw [← length_bytes, ← length_bytes, bytes_empty, List.length_nil] at hput
    omega
  have hlength := length_encode_unsigned_le (hpayload.trans_lt hn)
  have hbytes (w : Writer) := (w.bytes_putFramed put).trans (List.append_assoc _ _ _)
  refine of_bytes hbytes ?_
  rw [List.length_append]
  omega

end Grows

end Writer

namespace Record

open Writer

/-- What the parts of a record take that its tag does not limit in number. -/
def openSize : Record → Nat
  | utf8 text => (Text.utf8 text).length
  | unique _ _ bases => 10 * bases.length
  | targetSigned _ _ _ params => 10 * params.length
  | signed _ _ params => 10 * params.length
  | _ => 0

theorem grows_putRef (r : NameRef) : Grows 10 (putRef · r) := .putNat r.number

theorem grows_putParam (p : RecordParam) : Grows 10 (putParam · p) := .putInt _

/-- There are at most three numbers besides. -/
theorem grows_putPayload (r : Record) : Grows (30 + r.openSize) r.putPayload := by
  have href := grows_putRef
  cases r with
  | utf8 text => exact (Grows.putBytes (Text.utf8 text)).mono (Nat.le_add_left _ _)
  | qualified q n => exact ((href n).comp (href q)).mono (Nat.le_add_right_of_le (by decide))
  | expanded o n => exact ((href n).comp (href o)).mono (Nat.le_add_right_of_le (by decide))
  | expandPrefix o n => exact ((href n).comp (href o)).mono (Nat.le_add_right_of_le (by decide))
  | unique s number bases =>
    have hbases : Grows (10 * bases.length) fun w ↦ bases.foldl putRef w := .foldl_const href
    exact ((hbases.comp (.putLongNat number)).comp (href s)).mono (by rw [openSize]; omega)
  | defaultGetter u index =>
    exact ((Grows.putLongNat index).comp (href u)).mono (Nat.le_add_right_of_le (by decide))
  | superAccessor u => exact (href u).mono (Nat.le_add_right_of_le (by decide))
  | inlineAccessor u => exact (href u).mono (Nat.le_add_right_of_le (by decide))
  | bodyRetainer u => exact (href u).mono (Nat.le_add_right_of_le (by decide))
  | objectClass u => exact (href u).mono (Nat.le_add_right_of_le (by decide))
  | targetSigned u t result params =>
    have hparams : Grows (10 * params.length) fun w ↦ params.foldl putParam w :=
      .foldl_const grows_putParam
    exact (((hparams.comp (href result)).comp (href t)).comp (href u)).mono
      (by rw [openSize]; omega)
  | signed u result params =>
    have hparams : Grows (10 * params.length) fun w ↦ params.foldl putParam w :=
      .foldl_const grows_putParam
    exact ((hparams.comp (href result)).comp (href u)).mono (by rw [openSize]; omega)

theorem grows_put {r : Record} (h : 30 + r.openSize < Address.bound) :
    Grows (41 + r.openSize) r.put := by
  have hrecord : Grows (1 + (10 + (30 + r.openSize))) fun w ↦ w.putNameRecord r.tag r.putPayload :=
    (Grows.putFramed r.grows_putPayload h).comp (.putByte r.tag.toByte)
  have hput : Grows (1 + (10 + (30 + r.openSize))) r.put := by
    cases r <;> exact hrecord
  exact hput.mono (by omega)

end Record

/-- A name section, with its header in front, is small if its records are. -/
theorem FileForm.size_putNames_le {f : FileForm} {n : Nat}
    (h : (f.records.map Record.openSize).sum ≤ n)
    (hn : 41 * f.records.length + n < Address.bound) :
    (f.putNames .empty).size ≤
      (Writer.empty.putHeader f.header).size + 10 + 41 * f.records.length + n := by
  have hrecord (r : Record) (hr : r ∈ f.records) : Writer.Grows (41 + r.openSize) r.put := by
    have hle : r.openSize ≤ (f.records.map Record.openSize).sum :=
      List.single_le_sum (fun _ _ ↦ Nat.zero_le _) _ (List.mem_map_of_mem hr)
    have hpos : 1 ≤ f.records.length := List.length_pos_of_mem hr
    exact Record.grows_put (by omega)
  have hrecords : Writer.Grows (41 * f.records.length + n)
      fun w ↦ f.records.foldl (fun w r ↦ r.put w) w := by
    refine (Writer.Grows.foldl hrecord).mono ?_
    rw [List.sum_map_add, List.map_const', List.sum_replicate_nat]
    omega
  have hframed : (f.putNames .empty).size ≤ _ :=
    (Writer.Grows.putFramed hrecords hn) (Writer.empty.putHeader f.header)
  omega

end TreePickle
