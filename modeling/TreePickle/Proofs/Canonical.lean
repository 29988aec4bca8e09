import TreePickle.Proofs.Numeral
import TreePickle.Writer

/-!
# All spellings of a number

A number has as many spellings as one likes, but only in one way: in front of what is written for it
there may be groups that repeat its sign. So each number has one spelling that is shorter than all
others, and writing chooses it.

## Groups from the last one back

Reading folds the groups from the first one on, and writing takes them off a number from the last
one back. `Base128.exists_eq_replicate_append` goes the way of writing, by induction on the groups
in front of the last one: without its last group, the value is the quotient that the other groups
are written for, and the quotient has the same sign. A quotient that is all sign has only groups
that repeat it, and here the padding comes from; a quotient that is not determines the next group.

`Base128.mem_numeral_iff` says so of all the bytes: the spellings of a number are what is written
for it, behind any number of copies of `Base128.signGroup`.

## Reading and writing

`Decode.IsCanonical` says it of a reading action and a writing operation, with what follows: ten
bytes are enough, no two numbers are written alike, and any other spelling is longer. It is proved
once for both kinds of numbers, from what the action accepts and what the operation appends. That
the operations, which shift and mask a word from its low end, append what the recursion on the
quotient gives is `Base128.encodeNat_eq` and `Base128.encodeInt_eq`.
-/

namespace TreePickle

namespace Base128

/-! ## Signs -/

/-- The group that repeats the sign of a number, without the stop bit. -/
def signGroup (v : Int) : UInt8 := if v < 0 then 0x7F else 0x00

theorem isLast_signGroup (v : Int) : isLast (signGroup v) = false := by
  rw [signGroup]
  split
  · rfl
  · rfl

theorem magnitude_cons (b : UInt8) (bs : List UInt8) :
    magnitude (b :: bs) = magnitude bs + 128 ^ bs.length * payload b := by
  rw [magnitude, magnitude, List.map_cons, List.reverse_cons, Nat.ofDigits_append,
    Nat.ofDigits_singleton, List.length_reverse, List.length_map]

theorem magnitude_lt (bs : List UInt8) : magnitude bs < 128 ^ bs.length := by
  induction bs with
  | nil => exact Nat.zero_lt_one
  | cons b bs ih =>
    have hb : payload b < 128 := Nat.mod_lt _ (by decide)
    rw [magnitude_cons, List.length_cons, pow_succ]
    calc magnitude bs + 128 ^ bs.length * payload b
        < 128 ^ bs.length + 128 ^ bs.length * payload b := by omega
      _ = 128 ^ bs.length * (payload b + 1) := by ring
      _ ≤ 128 ^ bs.length * 128 := Nat.mul_le_mul_left _ hb

/-- The sign bit is the sign of the value. -/
theorem value_neg_iff {k : Kind} {bs : List UInt8} :
    value k bs < 0 ↔ isNegative k bs = true := by
  have hlt : (magnitude bs : Int) < 128 ^ bs.length := by exact_mod_cast magnitude_lt bs
  rw [value]
  cases isNegative k bs with
  | false => simp
  | true => simpa using hlt

/-- To repeat the sign in front does not change the value. -/
theorem value_signGroup_cons (k : Kind) (bs : List UInt8) :
    value k (signGroup (value k bs) :: bs) = value k bs := by
  by_cases hneg : isNegative k bs = true
  · have hsign : signGroup (value k bs) = 0x7F := if_pos (value_neg_iff.mpr hneg)
    have hhead : isNegative k (0x7F :: bs) = true := by
      cases k with
      | unsigned => cases bs <;> cases hneg
      | signed => rfl
    have hpayload : payload 0x7F = 127 := rfl
    rw [hsign, value, value, hhead, hneg, if_pos rfl, if_pos rfl, magnitude_cons, hpayload,
      List.length_cons, pow_succ]
    push_cast
    ring
  · have hsign : signGroup (value k bs) = 0x00 := if_neg (mt value_neg_iff.mp hneg)
    have hhead : isNegative k (0x00 :: bs) = false := by cases k <;> rfl
    have hpayload : payload 0x00 = 0 := rfl
    rw [Bool.not_eq_true] at hneg
    rw [hsign, value, value, hhead, hneg, magnitude_cons, hpayload, mul_zero, add_zero]
    rfl

theorem signGroup_cons_mem_numeral {k : Kind} {v : Int} {bs : List UInt8} (h : bs ∈ numeral k v) :
    signGroup v :: bs ∈ numeral k v := by
  obtain ⟨hstopped, rfl, hfits⟩ := h
  exact ⟨(stopped_cons_of_not_isLast (isLast_signGroup _)).mpr hstopped,
    value_signGroup_cons k bs, hfits⟩

/-! ## Groups from the last one back -/

theorem eq_group {b : UInt8} {v : Int} (hb : isLast b = false) (hv : (payload b : Int) = v % 128) :
    b = group v := by
  simp only [isLast, decide_eq_false_iff_not] at hb
  simp only [payload] at hv
  rw [← UInt8.toNat_inj, group, UInt8.toNat_ofNat']
  omega

theorem eq_lastGroup {b : UInt8} {v : Int} (hb : isLast b = true)
    (hv : (payload b : Int) = v % 128) : b = lastGroup v := by
  have hlt := b.toNat_lt
  simp only [isLast, decide_eq_true_eq] at hb
  simp only [payload] at hv
  rw [← UInt8.toNat_inj, lastGroup, UInt8.toNat_ofNat']
  omega

theorem signGroup_ediv (v : Int) : signGroup (v / 128) = signGroup v := by
  rw [signGroup, signGroup]
  exact if_congr (by omega) rfl rfl

theorem value_emod (k : Kind) (bs : List UInt8) (b : UInt8) :
    value k (bs ++ [b]) % 128 = payload b := by
  have hb : payload b < 128 := Nat.mod_lt _ (by decide)
  by_cases hbs : bs = []
  · subst hbs
    rw [List.nil_append, value_singleton]
    cases k with
    | unsigned =>
      rw [Kind.leading]
      omega
    | signed =>
      rw [Kind.leading]
      split <;> omega
  · rw [value_append_singleton hbs]
    omega

theorem value_ediv {k : Kind} {bs : List UInt8} (h : bs ≠ []) (b : UInt8) :
    value k (bs ++ [b]) / 128 = value k bs := by
  have hb : payload b < 128 := Nat.mod_lt _ (by decide)
  rw [value_append_singleton h]
  omega

theorem fitsGroup_value_singleton (k : Kind) (b : UInt8) :
    k.fitsGroup (value k [b]) = true := by
  have hb : payload b < 128 := Nat.mod_lt _ (by decide)
  rw [value_singleton]
  cases k with
  | unsigned =>
    rw [Kind.leading, Kind.fitsGroup, decide_eq_true_eq]
    omega
  | signed =>
    rw [Kind.leading, Kind.fitsGroup, decide_eq_true_eq]
    split <;> omega

/-- What is left of a number that fits into one group is its sign. -/
theorem leadingGroups_ediv {k : Kind} {v : Int} (hv : k.fitsGroup v = true)
    (hsign : k = .unsigned → 0 ≤ v) :
    leadingGroups k (v / 128) = [] ∧ group (v / 128) = signGroup v := by
  have hquotient : k.fitsGroup (v / 128) = true ∧
      (0 ≤ v ∧ v / 128 = 0 ∨ v < 0 ∧ v / 128 = -1) := by
    cases k with
    | unsigned =>
      have hnonneg := hsign rfl
      simp only [Kind.fitsGroup, decide_eq_true_eq] at hv ⊢
      omega
    | signed =>
      simp only [Kind.fitsGroup, decide_eq_true_eq] at hv ⊢
      omega
  obtain ⟨hfits, ⟨hnonneg, hzero⟩ | ⟨hneg, hone⟩⟩ := hquotient
  · refine ⟨by rw [leadingGroups, if_pos hfits], ?_⟩
    rw [hzero, signGroup, if_neg (Int.not_lt.mpr hnonneg)]
    rfl
  · refine ⟨by rw [leadingGroups, if_pos hfits], ?_⟩
    rw [hone, signGroup, if_pos hneg]
    rfl

/-- The groups in front of the last one are those that are written, behind groups that repeat the
sign. -/
theorem exists_eq_replicate_append {k : Kind} {gs : List UInt8}
    (hgs : ∀ g ∈ gs, isLast g = false) (b : UInt8) :
    ∃ n, gs = List.replicate n (signGroup (value k (gs ++ [b]))) ++
      leadingGroups k (value k (gs ++ [b])) := by
  induction gs using List.reverseRecOn generalizing b with
  | nil =>
    refine ⟨0, ?_⟩
    rw [List.nil_append, leadingGroups, if_pos (fitsGroup_value_singleton k b)]
    rfl
  | append_singleton gs g ih =>
    obtain ⟨n, hn⟩ := ih (fun d hd ↦ hgs d (List.mem_append_left _ hd)) g
    have hne : gs ++ [g] ≠ [] := by simp
    have hdiv := value_ediv (k := k) hne b
    generalize value k (gs ++ [g] ++ [b]) = v at hdiv ⊢
    rw [← hdiv, signGroup_ediv] at hn
    have hg : g = group (v / 128) := by
      refine eq_group (hgs g (by simp)) ?_
      rw [hdiv, value_emod]
    cases hv : k.fitsGroup v with
    | true =>
      -- one more group of the sign: the number fits into the group behind it
      have hsign : k = .unsigned → 0 ≤ v := by
        rintro rfl
        have hnonneg : ¬value .unsigned (gs ++ [g]) < 0 := by
          rw [value_neg_iff]
          cases gs <;> simp [isNegative]
        omega
      obtain ⟨hnil, hgroup⟩ := leadingGroups_ediv hv hsign
      rw [hnil, List.append_nil] at hn
      refine ⟨n + 1, ?_⟩
      rw [leadingGroups, if_pos hv, List.append_nil, List.replicate_succ', ← hn, hg, hgroup]
    | false =>
      refine ⟨n, ?_⟩
      rw [leadingGroups, if_neg (by simp [hv]), ← List.append_assoc, ← hn, hg]

/-! ## Spellings and their lengths -/

/-- **All spellings of a number** are the one that is written, and that one behind groups that
repeat the sign. -/
theorem mem_numeral_iff {k : Kind} {v : Int} (h : k.fits v = true) {bs : List UInt8} :
    bs ∈ numeral k v ↔ ∃ n, bs = List.replicate n (signGroup v) ++ encode k v := by
  constructor
  · rintro ⟨⟨gs, b, rfl, hgs, hb⟩, rfl, -⟩
    obtain ⟨n, hn⟩ := @exists_eq_replicate_append k gs hgs b
    have hlast : b = lastGroup (value k (gs ++ [b])) := eq_lastGroup hb (value_emod k gs b).symm
    refine ⟨n, ?_⟩
    rw [encode, ← List.append_assoc, ← hn, ← hlast]
  · rintro ⟨n, rfl⟩
    induction n with
    | zero => exact Decode.encode_mem_numeral h
    | succ n ih => exact signGroup_cons_mem_numeral ih

/-- Whether a number fits into `n` groups in front of a last one. -/
def Kind.FitsGroups : Kind → Nat → Int → Prop
  | .unsigned, n, v => v < 128 * 128 ^ n
  | .signed, n, v => -64 * 128 ^ n ≤ v ∧ v < 64 * 128 ^ n

theorem length_leadingGroups_le {k : Kind} {n : Nat} {v : Int} (h : k.FitsGroups n v) :
    (leadingGroups k v).length ≤ n := by
  induction n generalizing v with
  | zero =>
    have hfits : k.fitsGroup v = true := by
      cases k <;> simpa [Kind.FitsGroups, Kind.fitsGroup] using h
    rw [leadingGroups, if_pos hfits]
    rfl
  | succ n ih =>
    rw [leadingGroups]
    split
    · exact Nat.zero_le _
    · have hdiv : k.FitsGroups n (v / 128) := by
        cases k <;> simp only [Kind.FitsGroups, pow_succ] at h ⊢ <;> omega
      rw [List.length_append, List.length_singleton]
      exact Nat.succ_le_succ (ih hdiv)

/-- Ten groups are enough for 64 bits. -/
theorem length_encode_le {k : Kind} {v : Int} (h : k.fits v = true) : (encode k v).length ≤ 10 := by
  have hgroups : k.FitsGroups 9 v := by
    rw [Kind.fits_iff] at h
    cases k <;> simp only [Kind.FitsGroups, Kind.least, Kind.bound] at h ⊢ <;> omega
  rw [encode, List.length_append, List.length_singleton]
  exact Nat.succ_le_succ (length_leadingGroups_le hgroups)

end Base128

/-! ## Reading and writing -/

namespace Decode

open Base128

variable {α : Type}

/-- What `put` appends for a number is the shortest of the byte strings that `x` reads as that
number, and all others are longer by some copies of the group `fill` in front. -/
structure IsCanonical (x : Decode Fault α) (put : Writer → α → Writer) (fill : α → UInt8) :
    Prop where
  /-- What is appended does not depend on what was written before. -/
  appends : ∀ w v, (put w v).bytes = w.bytes ++ (put .empty v).bytes
  reads_iff : ∀ a v bs, x ⟨a, bs⟩ = .ok v ⟨a + bs.length, []⟩ ↔
    ∃ n, bs = List.replicate n (fill v) ++ (put .empty v).bytes
  length_le : ∀ v, (put .empty v).bytes.length ≤ 10
  injective : Function.Injective fun v ↦ (put .empty v).bytes
  shortest : ∀ a v bs, x ⟨a, bs⟩ = .ok v ⟨a + bs.length, []⟩ → bs ≠ (put .empty v).bytes →
    (put .empty v).bytes.length < bs.length

theorem isCanonical_of_reads {x : Decode Fault α} {put : Writer → α → Writer} {fill : α → UInt8}
    {k : Kind} {denote : α → Int} (hreads : ∀ limit, Reads limit x fun _ v bs ↦
      bs ∈ numeral k (denote v))
    (hput : ∀ w v, (put w v).bytes = w.bytes ++ encode k (denote v))
    (hfill : ∀ v, signGroup (denote v) = fill v) (hfits : ∀ v, k.fits (denote v) = true) :
    IsCanonical x put fill := by
  have hcode (v : α) : (put .empty v).bytes = encode k (denote v) := by
    rw [hput, Writer.bytes_empty, List.nil_append]
  have hiff (a : Nat) (v : α) (bs : List UInt8) : x ⟨a, bs⟩ = .ok v ⟨a + bs.length, []⟩ ↔
      ∃ n, bs = List.replicate n (fill v) ++ (put .empty v).bytes := by
    rw [(hreads _).all_iff, mem_numeral_iff (hfits v), hfill, hcode]
  refine ⟨fun w v ↦ ?_, hiff, fun v ↦ ?_, fun v v' hvv' ↦ ?_, fun a v bs hbs hne ↦ ?_⟩
  · rw [hput, hcode]
  · rw [hcode]
    exact length_encode_le (hfits v)
  · have hv := (hiff 0 v _).mpr ⟨0, rfl⟩
    have hv' := (hiff 0 v' _).mpr ⟨0, rfl⟩
    rw [List.replicate_zero, List.nil_append] at hv hv'
    dsimp only at hvv'
    rw [hvv', hv'] at hv
    injection hv with heq
    exact heq.symm
  · obtain ⟨n, rfl⟩ := (hiff a v bs).mp hbs
    have hn : n ≠ 0 := by
      rintro rfl
      exact hne rfl
    rw [List.length_append, List.length_replicate]
    omega

/-- **Numbers are written in their shortest spelling**, and any other is that one behind bytes that
repeat the sign: zeros, or ones for a number below zero. -/
theorem isCanonical_numbers :
    IsCanonical longNat Writer.putLongNat (fun _ ↦ 0x00) ∧
      IsCanonical longInt Writer.putLongInt fun v ↦ if 0 ≤ v.toInt then 0x00 else 0x7F := by
  refine ⟨isCanonical_of_reads (fun _ ↦ .longNat) Writer.bytes_putLongNat (fun n ↦ ?_) fun n ↦ ?_,
    isCanonical_of_reads (fun _ ↦ .longInt) Writer.bytes_putLongInt (fun v ↦ ?_) fun v ↦ ?_⟩
  · exact if_neg (Int.not_lt.mpr (Int.natCast_nonneg _))
  · have hlt := n.toNat_lt
    rw [Kind.fits_unsigned_iff]
    omega
  · by_cases hv : 0 ≤ v.toInt
    · rw [signGroup, if_neg (Int.not_lt.mpr hv), if_pos hv]
    · rw [signGroup, if_pos (Int.not_le.mp hv), if_neg hv]
  · exact Kind.fits_signed_iff.mpr ⟨v.le_toInt, v.toInt_lt⟩

end Decode

end TreePickle
