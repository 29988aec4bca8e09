import TreePickle.Base128
import TreePickle.Cursor.Basic

/-!
# Reading numbers

A number ends with the byte that has the stop bit, or with the byte that makes it too large. Either
way the cursor stays behind the last byte that was read, and a number that is too large is told by
the address where it begins. The narrower widths read a whole number first and compare afterwards,
so a number that is too large for them is passed over up to its stop bit.

## The construction

`longNat` and `longInt` keep the groups so far in a word, `UInt64` or `Int64`. They share one loop,
`wordFrom`, which takes a byte, asks `Base128.extendNat` or `Base128.extendInt` for the word with
one more group, and looks at the stop bit only if there is room for it. A natural number begins with
the word zero; a signed one begins with its first byte, and may end with it.

## The exact reader

`number` is the same walk over the bytes with the value as an integer, compared with the range of
64 bits after each byte. It never loses a bit, so what it accepts can be told by positions and
powers of 128. `map_longNat` and `map_longInt` say that the words hold what `number` computes, and
that the faults and the cursors are the same: the loop keeps the invariant that the word stands for
the value so far, and `Base128.map_extendNat` and `Base128.map_extendInt` are its steps. Results
about the words are derived from results about `number` by these equations and by no other way.
-/

namespace TreePickle.Decode

open Base128

/-! ## Words -/

/-- Reads on in a number that began at `start`; `value` is the word of its groups so far, and
`extend` refuses a group that there is no room for. -/
def wordFrom {α : Type} (extend : α → UInt8 → Option α) (start position : Nat) (value : α) :
    List UInt8 → EStateM.Result Fault Cursor α
  | [] => .error (.unexpectedEnd position) ⟨position, []⟩
  | b :: rest =>
      match extend value b with
      | none => .error (.numberOverflow start) ⟨position + 1, rest⟩
      | some value =>
          if b &&& 0x80 != 0 then .ok value ⟨position + 1, rest⟩
          else wordFrom extend start (position + 1) value rest

/-- A natural number of 64 bits. -/
def longNat : Decode Fault UInt64 := fun c ↦
  wordFrom extendNat c.position c.position 0 c.ahead

/-- A signed number of 64 bits. -/
def longInt : Decode Fault Int64 := fun c ↦
  match c.ahead with
  | [] => .error (.unexpectedEnd c.position) c
  | b :: rest =>
      let value := leadingInt b
      if b &&& 0x80 != 0 then .ok value ⟨c.position + 1, rest⟩
      else wordFrom extendInt c.position (c.position + 1) value rest

/-- A natural number of 32 bits. -/
def nat : Decode Fault UInt32 := do
  let start ← position
  let value ← longNat
  if value ≤ 0xFFFFFFFF then return value.toUInt32 else throw (.numberOverflow start)

/-- A signed number of 32 bits. -/
def int : Decode Fault Int32 := do
  let start ← position
  let value ← longInt
  if Int32.minValue.toInt64 ≤ value ∧ value ≤ Int32.maxValue.toInt64 then return value.toInt32
  else throw (.numberOverflow start)

/-- A count of bytes; any number of 64 bits will do. -/
def length : Decode Fault Nat := return (← longNat).toNat

/-- The length of a frame, as the address where the frame ends. The frame begins behind the length,
and its end must be an address; whether it lies in the range is not checked here. -/
def frameEnd : Decode Fault Nat := do
  let start ← position
  let size ← length
  match Address.advance? (← position) size with
  | some stop => return stop
  | none => throw (.numberOverflow start)

/-! ## Exact values -/

/-- Reads on in a number that began at `start`; `value?` is the value of its groups so far. -/
def numberFrom (k : Kind) (start position : Nat) (value? : Option Int) :
    List UInt8 → EStateM.Result Fault Cursor Int
  | [] => .error (.unexpectedEnd position) ⟨position, []⟩
  | b :: rest =>
      let value := k.extend value? b
      if !k.fits value then .error (.numberOverflow start) ⟨position + 1, rest⟩
      else if isLast b then .ok value ⟨position + 1, rest⟩
      else numberFrom k start (position + 1) (some value) rest

/-- A number of 64 bits, as an integer. -/
def number (k : Kind) : Decode Fault Int := fun c ↦
  numberFrom k c.position c.position none c.ahead

private theorem numberFrom_leadingGroups (k : Kind) (start position : Nat) {v : Int}
    (h : k.fits v = true) (rest : List UInt8) :
    numberFrom k start position none (leadingGroups k v ++ rest) =
      numberFrom k start (position + (leadingGroups k v).length) (k.headValue v) rest := by
  induction v using leadingGroups.induct k generalizing rest with
  | case1 v hg =>
    rw [leadingGroups, if_pos hg, Kind.headValue, if_pos hg]
    rfl
  | case2 v hg ih =>
    have hv := Kind.fits_div h
    rw [leadingGroups, if_neg hg, List.append_assoc, ih hv, List.cons_append, numberFrom]
    simp only [Kind.extend_headValue hv (payload_group _), hv, isLast_group]
    simp [Kind.headValue, hg, Nat.add_assoc]

/-- A number that fits is read back from its bytes, whatever follows them. -/
theorem number_encode {k : Kind} {v : Int} (h : k.fits v = true) (a : Nat) (rest : List UInt8) :
    number k ⟨a, encode k v ++ rest⟩ = .ok v ⟨a + (encode k v).length, rest⟩ := by
  rw [number, encode, List.append_assoc, numberFrom_leadingGroups k a a h, List.cons_append,
    numberFrom]
  simp [Kind.extend_headValue h (payload_lastGroup v), h, isLast_lastGroup, Nat.add_assoc]

/-! ## Words hold exact values -/

/-- If each step is exact then so is the loop. -/
private theorem numberFrom_eq_wordFrom {α : Type} {extend : α → UInt8 → Option α}
    {denote : α → Int} {k : Kind} (hstep : ∀ value b, (extend value b).map denote =
      Option.guard k.fits (denote value * 128 + payload b)) (start p : Nat) (value : α)
    (l : List UInt8) :
    numberFrom k start p (some (denote value)) l =
      match wordFrom extend start p value l with
      | .ok w c => .ok (denote w) c
      | .error e c => .error e c := by
  induction l generalizing p value with
  | nil => rfl
  | cons b l ih =>
    have hb := hstep value b
    rw [numberFrom, wordFrom, and_stopBit_eq, Kind.extend]
    cases hfits : k.fits (denote value * 128 + payload b) with
    | false =>
      rw [Option.guard, hfits, if_neg Bool.false_ne_true, Option.map_eq_none_iff] at hb
      rw [hb]
      rfl
    | true =>
      rw [Option.guard, hfits, if_pos rfl, Option.map_eq_some_iff] at hb
      obtain ⟨w, hw, hdenote⟩ := hb
      rw [hw, ← hdenote]
      cases isLast b with
      | true => rfl
      | false => exact ih (p + 1) w

private theorem map_apply {α β : Type} (f : α → β) (x : Decode Fault α) (c : Cursor) :
    (f <$> x) c = match x c with
      | .ok a c => .ok (f a) c
      | .error e c => .error e c := by
  change EStateM.map f x c = _
  rw [EStateM.map]
  cases x c with
  | ok a c => rfl
  | error e c => rfl

/-- Natural numbers of 64 bits are exact. -/
theorem map_longNat : (fun n : UInt64 ↦ (n.toNat : Int)) <$> longNat = number .unsigned := by
  funext c
  have hzero (l : List UInt8) : numberFrom .unsigned c.position c.position none l =
      numberFrom .unsigned c.position c.position (some (UInt64.toNat 0)) l := by
    cases l with
    | nil => rfl
    | cons b l => simp [numberFrom, Kind.extend, Kind.leading]
  rw [number, hzero, numberFrom_eq_wordFrom map_extendNat, map_apply]
  rfl

/-- Signed numbers of 64 bits are exact. -/
theorem map_longInt : Int64.toInt <$> longInt = number .signed := by
  funext c
  obtain ⟨p, l⟩ := c
  cases l with
  | nil => rfl
  | cons b l =>
    have hfits : Kind.signed.fits (Kind.signed.leading b) = true := by
      rw [← toInt_leadingInt, Kind.fits_signed_iff]
      exact ⟨Int64.le_toInt _, Int64.toInt_lt _⟩
    rw [map_apply, longInt, number, numberFrom, Kind.extend, hfits, ← and_stopBit_eq,
      ← toInt_leadingInt]
    dsimp only
    cases b &&& 0x80 != 0 with
    | true => rfl
    | false => exact (numberFrom_eq_wordFrom map_extendInt p (p + 1) (leadingInt b) l).symm

theorem longNat_eq : longNat = do return UInt64.ofNat (← number .unsigned).toNat := by
  rw [← map_longNat, bind_map_left]
  simp

theorem longInt_eq : longInt = do return Int64.ofInt (← number .signed) := by
  rw [← map_longInt, bind_map_left]
  simp

theorem length_eq : length = do return (← number .unsigned).toNat := by
  rw [← map_longNat, bind_map_left]
  rfl

theorem nat_eq : nat = (do
    let start ← position
    let value ← number .unsigned
    if value < UInt32.size then return UInt32.ofNat value.toNat
    else throw (.numberOverflow start)) := by
  rw [nat, ← map_longNat]
  refine bind_congr fun start ↦ ?_
  rw [bind_map_left]
  refine bind_congr fun value ↦ ?_
  have hle : value ≤ 0xFFFFFFFF ↔ (value.toNat : Int) < UInt32.size :=
    UInt64.le_iff_toNat_le.trans (Nat.lt_succ_iff.symm.trans Int.ofNat_lt.symm)
  simp only [hle, Int.toNat_natCast, UInt32.ofNat_uInt64ToNat]

theorem int_eq : int = (do
    let start ← position
    let value ← number .signed
    if -0x80000000 ≤ value ∧ value < 0x80000000 then return Int32.ofInt value
    else throw (.numberOverflow start)) := by
  rw [int, ← map_longInt]
  refine bind_congr fun start ↦ ?_
  rw [bind_map_left]
  refine bind_congr fun value ↦ ?_
  have hrange : Int32.minValue.toInt64 ≤ value ∧ value ≤ Int32.maxValue.toInt64 ↔
      -0x80000000 ≤ value.toInt ∧ value.toInt < 0x80000000 := by
    rw [Int64.le_iff_toInt_le, Int64.le_iff_toInt_le]
    exact and_congr_right fun _ ↦ Int.lt_add_one_iff.symm
  simp only [hrange, Int32.ofInt_int64ToInt]

end TreePickle.Decode
