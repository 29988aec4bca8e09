import Mathlib.Order.Bounds.Basic
import TreePickle.Proofs.Numeral
import TreePickle.Reader

/-!
# Exact values and exact faults of numbers

`Decode.Reads.number` says which bytes are accepted as which number. Here is what a number read
comes to on all bytes, and how far it moves the reader. It goes on to the first byte behind which
there is no more to read, `Base128.Stops`: the byte has the stop bit, or the groups up to it stand
for a number that needs more than 64 bits. If there is no such byte, the bytes have ended before the
number has. If there is one, the groups up to it are the number, and it is compared with the range
of what is read.

## Words and exact values

The value of the groups is `Base128.value`, by positions and without any bound. What is read is a
word, with a test before each shift that tells whether another group would fit in, and with the
first group of a signed number shifted into its sign. The two meet in `Decode.number`:
`Decode.map_longNat` and `Decode.map_longInt` take the words to it, and here it is taken to the
positions, by an induction on the bytes with the groups read before as the part that is known.

## All widths

A stop bit and a number too large may come together, and the bytes may end there too; the number is
too large then. The narrow widths go on to the same byte and compare with their own range there, and
the end of a frame is compared as a whole. So `Decode.IsExact` is one statement for all reads, with
the range as parameters and an offset for the address that the end of a frame adds. Each read is a
computation from one number, `Decode.Completes`, and what is left to prove of it is arithmetic: in
the range there is a result that denotes the exact number, and outside of it there is none.
-/

namespace TreePickle

/-! ## Where a number stops -/

namespace Base128

/-- There is no more to read behind these bytes of a number. -/
def Stops (k : Kind) (bs : List UInt8) : Prop :=
  bs.getLast?.any isLast = true ∨ k.fits (value k bs) = false

instance (k : Kind) (bs : List UInt8) : Decidable (Stops k bs) :=
  inferInstanceAs (Decidable (_ ∨ _))

/-- The numbers of bytes behind which a number may be said to stop. -/
def stops (k : Kind) (bs : List UInt8) : Set Nat := {n | n ≤ bs.length ∧ Stops k (bs.take n)}

theorem value_unsigned_nonneg (bs : List UInt8) : 0 ≤ value .unsigned bs := by
  have hsign : isNegative .unsigned bs = false := by cases bs <;> rfl
  rw [value, hsign]
  simp

theorem not_stops_nil (k : Kind) : ¬Stops k [] := by
  cases k <;> decide

theorem stops_append_singleton_iff {k : Kind} {bs : List UInt8} {b : UInt8} :
    Stops k (bs ++ [b]) ↔ isLast b = true ∨ k.fits (value k (bs ++ [b])) = false := by
  rw [Stops, List.getLast?_concat, Option.any_some]

/-- A number that stops behind `n` bytes and behind no fewer. -/
theorem isLeast_stops_iff {k : Kind} {bs : List UInt8} {n : Nat} :
    IsLeast (stops k bs) n ↔
      (n ≤ bs.length ∧ Stops k (bs.take n)) ∧ ∀ m < n, ¬Stops k (bs.take m) := by
  rw [IsLeast, mem_lowerBounds]
  refine and_congr_right fun hn ↦ ?_
  constructor
  · intro h m hm hstops
    exact absurd (h m ⟨hm.le.trans hn.1, hstops⟩) (Nat.not_le.mpr hm)
  · intro h m hm
    exact Nat.le_of_not_lt fun hlt ↦ h m hlt hm.2

end Base128

open Base128

/-! ## Numbers of 64 bits -/

namespace Decode

section

variable {k : Kind} {start p n : Nat} {bs l : List UInt8}

private theorem numberFrom_of_stops {b : UInt8} (h : Stops k (bs ++ [b])) :
    numberFrom k start p (value? k bs) (b :: l) =
      if k.fits (value k (bs ++ [b])) then .ok (value k (bs ++ [b])) ⟨p + 1, l⟩
      else .error (.numberOverflow start) ⟨p + 1, l⟩ := by
  rw [stops_append_singleton_iff] at h
  rw [numberFrom, extend_value?]
  cases hfits : k.fits (value k (bs ++ [b])) with
  | false => rfl
  | true =>
    have hlast : isLast b = true := h.resolve_right (by simp [hfits])
    simp [hlast]

private theorem numberFrom_of_not_stops {b : UInt8} (h : ¬Stops k (bs ++ [b])) :
    numberFrom k start p (value? k bs) (b :: l) =
      numberFrom k start (p + 1) (value? k (bs ++ [b])) l := by
  rw [stops_append_singleton_iff, not_or, Bool.not_eq_true, Bool.not_eq_false] at h
  have hnext : value? k (bs ++ [b]) = some (value k (bs ++ [b])) := if_neg (by simp)
  rw [numberFrom, extend_value?, hnext]
  simp [h.1, h.2]

/-- With `bs` read before, the bytes end before the number does. -/
private theorem numberFrom_of_forall_not_stops (h : ∀ n ≤ l.length, ¬Stops k (bs ++ l.take n)) :
    numberFrom k start p (value? k bs) l =
      .error (.unexpectedEnd (p + l.length)) ⟨p + l.length, []⟩ := by
  induction l generalizing p bs with
  | nil => rfl
  | cons b l ih =>
    have hb : ¬Stops k (bs ++ [b]) := h 1 (Nat.le_add_left 1 l.length)
    have hl : ∀ n ≤ l.length, ¬Stops k (bs ++ [b] ++ l.take n) := by
      intro n hn
      rw [List.append_assoc]
      exact h (n + 1) (Nat.succ_le_succ hn)
    rw [numberFrom_of_not_stops hb, ih hl, List.length_cons, Nat.add_right_comm, Nat.add_assoc]

/-- With `bs` read before, the number stops `n` bytes further on. -/
private theorem numberFrom_of_first_stops (hbs : ¬Stops k bs) (hn : n ≤ l.length)
    (hstops : Stops k (bs ++ l.take n)) (hfirst : ∀ m < n, ¬Stops k (bs ++ l.take m)) :
    numberFrom k start p (value? k bs) l =
      if k.fits (value k (bs ++ l.take n)) then .ok (value k (bs ++ l.take n)) ⟨p + n, l.drop n⟩
      else .error (.numberOverflow start) ⟨p + n, l.drop n⟩ := by
  induction l generalizing p bs n with
  | nil =>
    rw [List.take_nil, List.append_nil] at hstops
    exact absurd hstops hbs
  | cons b l ih =>
    match n with
    | 0 =>
      rw [List.take_zero, List.append_nil] at hstops
      exact absurd hstops hbs
    | 1 => exact numberFrom_of_stops hstops
    | n + 2 =>
      have hb : ¬Stops k (bs ++ [b]) := hfirst 1 (Nat.succ_lt_succ n.succ_pos)
      have hsplit (m : Nat) : bs ++ (b :: l).take (m + 1) = bs ++ [b] ++ l.take m := by simp
      have hrest : ∀ m < n + 1, ¬Stops k (bs ++ [b] ++ l.take m) := by
        intro m hm
        rw [← hsplit]
        exact hfirst (m + 1) (Nat.succ_lt_succ hm)
      rw [hsplit] at hstops
      rw [numberFrom_of_not_stops hb, ih hb (Nat.le_of_succ_le_succ hn) hstops hrest, hsplit,
        List.drop_succ_cons, Nat.add_right_comm p 1, Nat.add_assoc p]

theorem number_of_stops_eq_empty {c : Cursor} (h : stops k c.ahead = ∅) :
    number k c = .error (.unexpectedEnd c.stop) (c.drop c.ahead.length) := by
  rw [number, Cursor.drop, List.drop_length]
  have hnone : ∀ n ≤ c.ahead.length, ¬Stops k ([] ++ c.ahead.take n) := fun n hn hstops ↦
    Set.eq_empty_iff_forall_notMem.mp h n ⟨hn, hstops⟩
  exact numberFrom_of_forall_not_stops hnone

theorem number_of_isLeast_stops {c : Cursor} (h : IsLeast (stops k c.ahead) n) :
    number k c =
      if k.fits (value k (c.ahead.take n)) then .ok (value k (c.ahead.take n)) (c.drop n)
      else .error (.numberOverflow c.position) (c.drop n) := by
  obtain ⟨⟨hn, hstops⟩, hfirst⟩ := isLeast_stops_iff.mp h
  exact @numberFrom_of_first_stops k c.position c.position n [] c.ahead (not_stops_nil k) hn hstops
    hfirst

end

end Decode

/-! ## All widths -/

namespace Reader

/-- The bytes from the place of a reader to the end of its range. -/
def rest (r : Reader) : List UInt8 := r.window.drop (r.position - r.start)

/-- The reader `n` bytes further on. -/
def advance (r : Reader) (n : Nat) : Reader := { r with cursor := ⟨r.position + n, r.rest.drop n⟩ }

end Reader

namespace Decode

variable {α : Type} {r : Reader}

/-- At the place of `r`, `x` reads a number from `least` to `bound`: the value of the groups, and
what `offset` adds for the address behind them. If that is not in the range it is refused, with the
address where it begins, and the reader stands behind the groups either way. `denote` tells which
number a result is. -/
structure IsExact (r : Reader) (k : Kind) (offset : Nat → Int) (least bound : Int)
    (denote : α → Int) (x : Decode Fault α) : Prop where
  /-- The bytes end before the number does. -/
  cutOff : stops k r.rest = ∅ →
    r.run x = (.error (.unexpectedEnd r.stop), r.advance r.rest.length)
  inRange (n : Nat) (hn : IsLeast (stops k r.rest) n) :
    let exact := value k (r.rest.take n) + offset (r.position + n)
    least ≤ exact ∧ exact < bound → ∃ a, denote a = exact ∧ r.run x = (.ok a, r.advance n)
  outOfRange (n : Nat) (hn : IsLeast (stops k r.rest) n) :
    let exact := value k (r.rest.take n) + offset (r.position + n)
    ¬(least ≤ exact ∧ exact < bound) →
      r.run x = (.error (.numberOverflow r.position), r.advance n)

/-- What `x` gives is computed from a number of 64 bits and the address behind it, or refused as too
large. -/
def Completes (k : Kind) (finish : Nat → Int → Option α) (x : Decode Fault α) : Prop :=
  ∀ c, x c = match number k c with
    | .ok v c' =>
        match finish c'.position v with
        | some a => .ok a c'
        | none => .error (.numberOverflow c.position) c'
    | .error e c' => .error e c'

namespace Completes

variable {k : Kind} {finish : Nat → Int → Option α} {x : Decode Fault α} {c c' : Cursor} {v : Int}

theorem of_error (hx : Completes k finish x) {e : Fault} (h : number k c = .error e c') :
    x c = .error e c' := by rw [hx c, h]

theorem of_eq_some (hx : Completes k finish x) (h : number k c = .ok v c') {a : α}
    (ha : finish c'.position v = some a) : x c = .ok a c' := by
  rw [hx c, h]
  dsimp only
  rw [ha]

theorem of_eq_none (hx : Completes k finish x) (h : number k c = .ok v c')
    (hv : finish c'.position v = none) : x c = .error (.numberOverflow c.position) c' := by
  rw [hx c, h]
  dsimp only
  rw [hv]

/-- The action that follows the number does not move the reader. -/
theorem of_bind {f : Nat → Int → Decode Fault α} (h : ∀ start v c, f start v c =
    match finish c.position v with
    | some a => .ok a c
    | none => .error (.numberOverflow start) c) :
    Completes k finish (do
      let start ← position
      let v ← number k
      f start v) := by
  intro c
  change EStateM.bind (number k) (f c.position) c = _
  rw [EStateM.bind]
  cases number k c with
  | ok v c' => exact h c.position v c'
  | error e c' => rfl

theorem of_bind_pure (g : Int → α) :
    Completes k (fun _ v ↦ some (g v)) (do return g (← number k)) := by
  intro c
  change EStateM.bind (number k) _ c = _
  rw [EStateM.bind]
  cases number k c with
  | ok v c' => rfl
  | error e c' => rfl

/-- A number that is computed from one of 64 bits is read exactly, if the range that it is compared
with is not wider. -/
theorem isExact {offset : Nat → Int} {least bound : Int} {denote : α → Int}
    (hx : Completes k finish x)
    (hsome : ∀ p v, k.fits v = true → least ≤ v + offset p ∧ v + offset p < bound →
      ∃ a, finish p v = some a ∧ denote a = v + offset p)
    (hnone : ∀ p v, k.fits v = true → ¬(least ≤ v + offset p ∧ v + offset p < bound) →
      finish p v = none)
    (hwide : ∀ p bs, least ≤ value k bs + offset p ∧ value k bs + offset p < bound →
      k.fits (value k bs) = true) (hr : r.Coherent) :
    IsExact r k offset least bound denote x := by
  have hahead : r.cursor.ahead = r.rest := hr.ahead_eq
  have hdrop (n : Nat) : r.cursor.drop n = ⟨r.position + n, r.rest.drop n⟩ := by
    rw [← hahead]
    rfl
  have hnumber {n : Nat} (hn : IsLeast (stops k r.rest) n) :
      number k r.cursor = if k.fits (value k (r.rest.take n))
        then .ok (value k (r.rest.take n)) ⟨r.position + n, r.rest.drop n⟩
        else .error (.numberOverflow r.position) ⟨r.position + n, r.rest.drop n⟩ := by
    rw [number_of_isLeast_stops (hahead ▸ hn), hahead, hdrop]
    rfl
  constructor
  · intro hempty
    have hcut := number_of_stops_eq_empty (hahead ▸ hempty)
    rw [hahead, hdrop, hr.stop_cursor] at hcut
    rw [Reader.run, hx.of_error hcut]
    rfl
  · intro n hn exact hrange
    have h := hnumber hn
    have hfits := hwide _ _ hrange
    rw [if_pos hfits] at h
    obtain ⟨a, ha, hdenote⟩ := hsome _ _ hfits hrange
    refine ⟨a, hdenote, ?_⟩
    rw [Reader.run, hx.of_eq_some h ha]
    rfl
  · intro n hn exact hrange
    cases hfits : k.fits (value k (r.rest.take n)) with
    | false =>
      have h := hnumber hn
      rw [hfits] at h
      rw [Reader.run, hx.of_error h]
      rfl
    | true =>
      have h := hnumber hn
      rw [hfits] at h
      rw [Reader.run, hx.of_eq_none h (hnone _ _ hfits hrange)]
      rfl

end Completes

/-- The widths compare a number with their range. -/
private theorem ite_pure_throw_eq {p : Prop} [Decidable p] (a : α) (e : Fault) (c : Cursor) :
    (if p then pure a else throw e : Decode Fault α) c =
      match if p then some a else none with
      | some a => .ok a c
      | none => .error e c := by
  split
  · rfl
  · rfl

theorem completes_longNat :
    Completes .unsigned (fun _ v ↦ some (UInt64.ofNat v.toNat)) longNat := by
  rw [longNat_eq]
  exact .of_bind_pure _

theorem completes_longInt : Completes .signed (fun _ v ↦ some (Int64.ofInt v)) longInt := by
  rw [longInt_eq]
  exact .of_bind_pure _

theorem completes_length : Completes .unsigned (fun _ v ↦ some v.toNat) length := by
  rw [length_eq]
  exact .of_bind_pure _

theorem completes_nat : Completes .unsigned
    (fun _ v ↦ if v < UInt32.size then some (UInt32.ofNat v.toNat) else none) nat := by
  rw [nat_eq]
  exact Completes.of_bind fun _ _ c ↦ ite_pure_throw_eq _ _ c

theorem completes_int : Completes .signed
    (fun _ v ↦ if -0x80000000 ≤ v ∧ v < 0x80000000 then some (Int32.ofInt v) else none) int := by
  rw [int_eq]
  exact Completes.of_bind fun _ _ c ↦ ite_pure_throw_eq _ _ c

theorem completes_frameEnd :
    Completes .unsigned (fun p v ↦ Address.advance? p v.toNat) frameEnd := by
  rw [frameEnd, length_eq]
  simp only [bind_assoc, pure_bind]
  refine Completes.of_bind fun start v c ↦ ?_
  rw [bind_apply_position]
  cases Address.advance? c.position v.toNat with
  | some stop => rfl
  | none => rfl

/-! ## The outcome of each read -/

/-- A natural number below `2 ^ 64` has 64 bits. -/
private theorem fits_unsigned {bs : List UInt8} {bound : Int} (h : value .unsigned bs < bound)
    (hbound : bound ≤ 2 ^ 64) : Kind.unsigned.fits (value .unsigned bs) = true := by
  have hnonneg := value_unsigned_nonneg bs
  rw [Kind.fits_unsigned_iff]
  omega

theorem isExact_longNat (hr : r.Coherent) :
    IsExact r .unsigned (fun _ ↦ 0) 0 (2 ^ 64) (fun n : UInt64 ↦ n.toNat) longNat := by
  refine completes_longNat.isExact (fun p v _ hv ↦ ⟨_, rfl, ?_⟩) (fun p v hv h ↦ ?_)
    (fun p bs h ↦ fits_unsigned h.2 ?_) hr
  · rw [UInt64.toNat_ofNat']
    omega
  · rw [Kind.fits_unsigned_iff] at hv
    omega
  · omega

theorem isExact_longInt (hr : r.Coherent) :
    IsExact r .signed (fun _ ↦ 0) (-2 ^ 63) (2 ^ 63) Int64.toInt longInt := by
  refine completes_longInt.isExact (fun p v _ hv ↦ ⟨_, rfl, ?_⟩) (fun p v hv h ↦ ?_)
    (fun p bs h ↦ ?_) hr
  · rw [Int64.toInt_ofInt_of_le (by omega) (by omega), add_zero]
  · rw [Kind.fits_signed_iff] at hv
    omega
  · rw [Kind.fits_signed_iff]
    omega

theorem isExact_nat (hr : r.Coherent) :
    IsExact r .unsigned (fun _ ↦ 0) 0 (2 ^ 32) (fun n : UInt32 ↦ n.toNat) nat := by
  refine completes_nat.isExact (fun p v _ hv ↦ ⟨_, if_pos ?_, ?_⟩) (fun p v hv h ↦ if_neg ?_)
    (fun p bs h ↦ fits_unsigned h.2 ?_) hr
  · rw [UInt32.size]
    omega
  · rw [UInt32.toNat_ofNat']
    omega
  · rw [Kind.fits_unsigned_iff] at hv
    rw [UInt32.size]
    omega
  · omega

theorem isExact_int (hr : r.Coherent) :
    IsExact r .signed (fun _ ↦ 0) (-2 ^ 31) (2 ^ 31) Int32.toInt int := by
  refine completes_int.isExact (fun p v _ hv ↦ ⟨_, if_pos ?_, ?_⟩) (fun p v _ h ↦ if_neg ?_)
    (fun p bs h ↦ ?_) hr
  · omega
  · rw [Int32.toInt_ofInt_of_le (by omega) (by omega), add_zero]
  · omega
  · rw [Kind.fits_signed_iff]
    omega

theorem isExact_length (hr : r.Coherent) :
    IsExact r .unsigned (fun _ ↦ 0) 0 (2 ^ 64) (fun n : Nat ↦ n) length := by
  refine completes_length.isExact (fun p v _ hv ↦ ⟨_, rfl, ?_⟩) (fun p v hv h ↦ ?_)
    (fun p bs h ↦ fits_unsigned h.2 ?_) hr
  · omega
  · rw [Kind.fits_unsigned_iff] at hv
    omega
  · omega

/-- The end of a frame is the length and the address behind it, and has to be an address. -/
theorem isExact_frameEnd (hr : r.Coherent) :
    IsExact r .unsigned (fun p ↦ p) 0 (2 ^ 64) (fun n : Nat ↦ n) frameEnd := by
  have hwide (p : Nat) (bs : List UInt8) (h : 0 ≤ value .unsigned bs + p ∧
      value .unsigned bs + p < 2 ^ 64) : Kind.unsigned.fits (value .unsigned bs) = true := by
    have hp := Int.natCast_nonneg p
    exact fits_unsigned (Int.lt_of_le_of_lt (by omega) h.2) le_rfl
  refine completes_frameEnd.isExact (fun p v hv h ↦ ?_) (fun p v hv h ↦ ?_) hwide hr
  · rw [Kind.fits_unsigned_iff] at hv
    refine ⟨p + v.toNat, Address.advance?_eq_some_iff.mpr ⟨rfl, ?_⟩, by omega⟩
    rw [Address.bound, UInt64.size]
    omega
  · rw [Kind.fits_unsigned_iff] at hv
    rw [Address.advance?_eq_none_iff, Address.bound, UInt64.size]
    omega

/-- **Numbers are read exactly**, or refused with the fault that the exact number calls for: those
of 64 bits, the narrower ones, lengths, and ends of frames. -/
theorem isExact_numbers (r : Reader) (hr : r.Coherent) :
    IsExact r .unsigned (fun _ ↦ 0) 0 (2 ^ 64) (fun n : UInt64 ↦ n.toNat) longNat ∧
    IsExact r .signed (fun _ ↦ 0) (-2 ^ 63) (2 ^ 63) Int64.toInt longInt ∧
    IsExact r .unsigned (fun _ ↦ 0) 0 (2 ^ 32) (fun n : UInt32 ↦ n.toNat) nat ∧
    IsExact r .signed (fun _ ↦ 0) (-2 ^ 31) (2 ^ 31) Int32.toInt int ∧
    IsExact r .unsigned (fun _ ↦ 0) 0 (2 ^ 64) (fun n : Nat ↦ n) length ∧
    IsExact r .unsigned (fun p ↦ p) 0 (2 ^ 64) (fun n : Nat ↦ n) frameEnd :=
  ⟨isExact_longNat hr, isExact_longInt hr, isExact_nat hr, isExact_int hr, isExact_length hr,
    isExact_frameEnd hr⟩

/-- Ten groups of ones at the end of a range. The last one has the stop bit and makes the number too
large, unless the first one is a sign. -/
theorem isExact_numbers_ones :
    let ones : List UInt8 := List.replicate 9 0x7F ++ [0xFF]
    let r : Reader := ⟨3, 0 :: ones, ⟨4, ones⟩⟩
    r.Coherent ∧ IsLeast (stops .unsigned r.rest) 10 ∧ IsLeast (stops .signed r.rest) 10 ∧
      r.run longNat = (.error (.numberOverflow 4), r.advance 10) ∧
      (∃ v : Int64, v.toInt = -1 ∧ r.run longInt = (.ok v, r.advance 10)) ∧
      r.run frameEnd = (.error (.numberOverflow 4), r.advance 10) := by
  intro ones r
  have hr : r.Coherent := ⟨by decide, by decide, rfl⟩
  have hu : IsLeast (stops .unsigned r.rest) 10 := isLeast_stops_iff.mpr (by decide +kernel)
  have hs : IsLeast (stops .signed r.rest) 10 := isLeast_stops_iff.mpr (by decide +kernel)
  obtain ⟨hlongNat, hlongInt, -, -, -, hframeEnd⟩ := isExact_numbers r hr
  exact ⟨hr, hu, hs, hlongNat.outOfRange 10 hu (by decide +kernel),
    hlongInt.inRange 10 hs (by decide +kernel), hframeEnd.outOfRange 10 hu (by decide +kernel)⟩

end Decode

end TreePickle
