/-!
# Numbers in base 128

A number is written as a sequence of groups of seven bits, the most significant first, one group a
byte. The byte of the last group has its top bit set, the *stop bit*; the others have it clear.
In a signed number the first group is in two's complement, so bit 6 of the first byte is the sign.

Writing is canonical: `encode` uses the fewest groups that hold the number. Reading is liberal,
since leading groups that only repeat the sign change nothing.

## Integers and words

There are two layers. The first one is arithmetic on `Int`: `Kind.extend` appends a group to a
value, `Kind.fits` compares with the range of 64 bits, and `leadingGroups` recurses on the quotient
by 128. Everything that is proved about numbers is proved there. The second one is what runs, on
words of 64 bits: shifts and masks, with the test for room in front of the shift when a number is
read, and with a loop that starts at the low end when it is written.

One equation for each word operation joins them. For reading it is a single step,
`map_extendNat` and `map_extendInt`: a group is refused exactly if the value with it would leave
the range, and else the word is that value. For writing it is the whole loop, `encodeNat_eq` and
`encodeInt_eq`.

## The end of a signed number

The loop for signed numbers stops when the rest is all sign and bit 6 of the group in front agrees
with it. That is the test whether the value fits into one group, `isComplete_eq`; so the loop ends
where `leadingGroups` does, and for the same reason.
-/

namespace TreePickle.Base128

/-! ## Single groups -/

/-- The seven bits that a byte carries, as a natural number. -/
def payload (b : UInt8) : Nat := b.toNat % 128

/-- Whether a byte has the stop bit. -/
def isLast (b : UInt8) : Bool := decide (128 ≤ b.toNat)

/-- The byte of a group without the stop bit: the seven low bits of `v`. -/
def group (v : Int) : UInt8 := UInt8.ofNat (v % 128).toNat

/-- The same byte with the stop bit. -/
def lastGroup (v : Int) : UInt8 := UInt8.ofNat ((v % 128).toNat + 128)

/-! ## The two kinds of numbers -/

/-- Numbers are read as unsigned or as signed ones, of 64 bits either way. -/
inductive Kind where
  | unsigned
  | signed
  deriving DecidableEq, Repr

namespace Kind

/-- The value of a leading group. -/
def leading : Kind → UInt8 → Int
  | unsigned, b => payload b
  | signed, b => if payload b < 64 then payload b else (payload b : Int) - 128

/-- The value of the groups so far, `value?`, followed by the group of one more byte. -/
def extend (k : Kind) (value? : Option Int) (b : UInt8) : Int :=
  match value? with
  | none => k.leading b
  | some value => value * 128 + payload b

/-- The least value of 64 bits. -/
def least : Kind → Int
  | unsigned => 0
  | signed => -0x8000000000000000

/-- The first value that is too large for 64 bits. -/
def bound : Kind → Int
  | unsigned => 0x10000000000000000
  | signed => 0x8000000000000000

/-- Whether a value fits into 64 bits. -/
def fits (k : Kind) (v : Int) : Bool := decide (k.least ≤ v ∧ v < k.bound)

/-- Whether a value fits into a single group. -/
def fitsGroup : Kind → Int → Bool
  | unsigned, v => decide (v < 128)
  | signed, v => decide (-64 ≤ v ∧ v < 64)

end Kind

/-! ## Writing -/

/-- The groups in front of the last one, fewest first: none if `v` fits into the last group. -/
def leadingGroups (k : Kind) (v : Int) : List UInt8 :=
  if k.fitsGroup v then []
  else leadingGroups k (v / 128) ++ [group (v / 128)]
termination_by v.natAbs
decreasing_by
  rename_i h
  cases k <;> simp [Kind.fitsGroup] at h <;> omega

/-- The bytes of a number. -/
def encode (k : Kind) (v : Int) : List UInt8 := leadingGroups k v ++ [lastGroup v]

/-! ## What is written can be read -/

theorem payload_group (v : Int) : (payload (group v) : Int) = v % 128 := by
  simp only [payload, group, UInt8.toNat_ofNat']
  omega

theorem payload_lastGroup (v : Int) : (payload (lastGroup v) : Int) = v % 128 := by
  simp only [payload, lastGroup, UInt8.toNat_ofNat']
  omega

theorem isLast_group (v : Int) : isLast (group v) = false := by
  simp only [isLast, group, UInt8.toNat_ofNat', decide_eq_false_iff_not]
  omega

theorem isLast_lastGroup (v : Int) : isLast (lastGroup v) = true := by
  simp only [isLast, lastGroup, UInt8.toNat_ofNat', decide_eq_true_eq]
  omega

namespace Kind

theorem fits_iff {k : Kind} {v : Int} : k.fits v = true ↔ k.least ≤ v ∧ v < k.bound :=
  decide_eq_true_iff

theorem fits_unsigned_iff {v : Int} :
    unsigned.fits v = true ↔ 0 ≤ v ∧ v < 0x10000000000000000 := fits_iff

theorem fits_signed_iff {v : Int} :
    signed.fits v = true ↔ -0x8000000000000000 ≤ v ∧ v < 0x8000000000000000 := fits_iff

/-- A number that fits still fits without its last group. -/
theorem fits_div {k : Kind} {v : Int} (h : k.fits v = true) : k.fits (v / 128) = true := by
  rw [fits_iff] at h ⊢
  cases k <;> simp only [least, bound] at h ⊢ <;> omega

/-- The value of the groups in front of the last one, if there are any. -/
def headValue (k : Kind) (v : Int) : Option Int := if k.fitsGroup v then none else some (v / 128)

/-- The last group completes the groups in front of it. -/
theorem extend_headValue {k : Kind} {v : Int} {b : UInt8} (h : k.fits v = true)
    (hb : (payload b : Int) = v % 128) : k.extend (k.headValue v) b = v := by
  unfold headValue
  split
  · rename_i hg
    rw [fits_iff] at h
    cases k <;> simp only [extend, leading, fitsGroup, least, decide_eq_true_eq] at h hg ⊢
    · omega
    · split <;> omega
  · simp only [extend]
    omega

end Kind

/-! ## Words: single groups -/

theorem payload_lt (b : UInt8) : payload b < 128 := Nat.mod_lt _ (by decide)

/-- What two functions do to a byte can be compared byte by byte. -/
private theorem eq_of_forall_byte {α : Type} {f g : UInt8 → α}
    (h : ∀ n : Fin 256, f (UInt8.ofNat n) = g (UInt8.ofNat n)) (b : UInt8) : f b = g b := by
  simpa using h ⟨b.toNat, b.toNat_lt⟩

theorem toNat_and_payload (b : UInt8) : (b &&& 0x7F).toNat = payload b :=
  (UInt8.toNat_and b 0x7F).trans (Nat.and_two_pow_sub_one_eq_mod b.toNat 7)

theorem and_stopBit_eq : ∀ b : UInt8, (b &&& 0x80 != 0) = isLast b :=
  eq_of_forall_byte (by decide +kernel)

/-- Bit 6 of a byte: the sign, in the first group of a signed number. -/
def hasSign (b : UInt8) : Bool := (b &&& 0x7F) &&& 0x40 != 0

theorem hasSign_eq : ∀ b : UInt8, hasSign b = decide (64 ≤ payload b) :=
  eq_of_forall_byte (by decide +kernel)

/-- The first group of a signed number, with its sign in all higher bits of the word. -/
def leadingInt (b : UInt8) : Int64 := ((b <<< 1).toInt8 >>> 1).toInt64

theorem toInt_leadingInt : ∀ b : UInt8, (leadingInt b).toInt = Kind.signed.leading b :=
  eq_of_forall_byte (by decide +kernel)

theorem toUInt8_and_nat (n : UInt64) : (n &&& 0x7F).toUInt8 = group n.toNat := by
  have hlow : n.toNat &&& UInt64.toNat 0x7F = n.toNat % 128 :=
    Nat.and_two_pow_sub_one_eq_mod n.toNat 7
  rw [← UInt8.toNat_inj, UInt64.toNat_toUInt8, UInt64.toNat_and, hlow, group, UInt8.toNat_ofNat']
  omega

/-- A signed number has the same low bits as the word that it is stored in. -/
theorem toUInt8_and_int (v : Int64) : (v &&& 0x7F).toUInt64.toUInt8 = group v.toInt := by
  have hword : (v &&& 0x7F).toUInt64.toUInt8 = group v.toUInt64.toNat := toUInt8_and_nat v.toUInt64
  have hmod : v.toInt % 128 = (v.toUInt64.toNat : Int) % 128 := by
    have hint : v.toInt = _ := v.toBitVec.toInt_eq_toNat_cond
    change v.toInt % 128 = (v.toBitVec.toNat : Int) % 128
    omega
  rw [hword, group, group, hmod]

theorem group_or_stopBit (v : Int) : group v ||| 0x80 = lastGroup v := by
  have hlt : (group v).toNat < 2 ^ 7 := by
    rw [group, UInt8.toNat_ofNat']
    omega
  have hor : 0x80 ||| (group v).toNat = 0x80 + (group v).toNat :=
    (Nat.shiftLeft_add_eq_or_of_lt hlt 1).symm
  rw [← UInt8.toNat_inj, UInt8.toNat_or, Nat.or_comm]
  refine hor.trans ?_
  rw [group, lastGroup, UInt8.toNat_ofNat', UInt8.toNat_ofNat']
  omega

theorem toNat_shiftRight_seven (n : UInt64) : (n >>> 7).toNat = n.toNat / 128 :=
  (UInt64.toNat_shiftRight n 7).trans (Nat.shiftRight_eq_div_pow n.toNat 7)

theorem toInt_shiftRight_seven (v : Int64) : (v >>> 7).toInt = v.toInt / 128 := by
  have hshift : (v >>> 7).toInt = v.toInt >>> (7 : Nat) := BitVec.toInt_sshiftRight
  rw [hshift, Int.shiftRight_eq_div_pow]
  rfl

/-! ## Words: reading -/

/-- A natural number with one more group, if the word has room for it. -/
def extendNat (value : UInt64) (b : UInt8) : Option UInt64 :=
  if value > (0xFFFFFFFFFFFFFFFF : UInt64) >>> 7 then none
  else some (value <<< 7 ||| (b &&& 0x7F).toUInt64)

/-- A signed number with one more group, if the word has room for it. -/
def extendInt (value : Int64) (b : UInt8) : Option Int64 :=
  if value > Int64.maxValue >>> 7 ∨ value < Int64.minValue >>> 7 then none
  else some (value <<< 7 ||| (b &&& 0x7F).toUInt64.toInt64)

/-- The seven bits that the shift clears are those of the group. -/
private theorem toNat_shiftLeft_or (x : BitVec 64) (b : UInt8) :
    (x <<< 7 ||| (b &&& 0x7F).toBitVec.setWidth 64).toNat =
      (x.toNat * 128 + payload b) % 0x10000000000000000 := by
  have hb := payload_lt b
  have hlow : ((b &&& 0x7F).toBitVec.setWidth 64).toNat = payload b := by
    rw [BitVec.toNat_setWidth, UInt8.toNat_toBitVec, toNat_and_payload]
    omega
  have hhigh : x.toNat * 2 ^ 7 % 2 ^ 64 = (x.toNat % 2 ^ 57) <<< 7 := by
    rw [Nat.shiftLeft_eq]
    omega
  rw [BitVec.toNat_or, BitVec.toNat_shiftLeft, hlow, Nat.shiftLeft_eq, hhigh,
    ← Nat.shiftLeft_add_eq_or_of_lt hb, Nat.shiftLeft_eq]
  omega

/-- The test in front of the shift is the test whether the number with one more group needs more
than 64 bits. -/
private theorem noRoomNat_iff (value : UInt64) (b : UInt8) :
    value > (0xFFFFFFFFFFFFFFFF : UInt64) >>> 7 ↔
      Kind.unsigned.fits (value.toNat * 128 + payload b) = false := by
  have hb := payload_lt b
  have htest : value > (0xFFFFFFFFFFFFFFFF : UInt64) >>> 7 ↔ 2 ^ 57 ≤ value.toNat :=
    UInt64.lt_iff_toNat_lt
  rw [htest, ← Bool.not_eq_true, Kind.fits_unsigned_iff]
  omega

private theorem noRoomInt_iff (value : Int64) (b : UInt8) :
    value > Int64.maxValue >>> 7 ∨ value < Int64.minValue >>> 7 ↔
      Kind.signed.fits (value.toInt * 128 + payload b) = false := by
  have hb := payload_lt b
  have htest : value > Int64.maxValue >>> 7 ∨ value < Int64.minValue >>> 7 ↔
      2 ^ 56 ≤ value.toInt ∨ value.toInt < -2 ^ 56 := by
    rw [GT.gt, Int64.lt_iff_toInt_lt, Int64.lt_iff_toInt_lt]
    rfl
  rw [htest, ← Bool.not_eq_true, Kind.fits_signed_iff]
  omega

/-- There is room for a group exactly if the number with it has 64 bits. -/
theorem map_extendNat (value : UInt64) (b : UInt8) :
    (extendNat value b).map (fun n ↦ (n.toNat : Int)) =
      Option.guard Kind.unsigned.fits (value.toNat * 128 + payload b) := by
  simp only [extendNat, Option.guard, noRoomNat_iff value b]
  cases hfits : Kind.unsigned.fits (value.toNat * 128 + payload b) with
  | false => rfl
  | true =>
    have hword : (value <<< 7 ||| (b &&& 0x7F).toUInt64).toNat =
        (value.toNat * 128 + payload b) % 0x10000000000000000 := toNat_shiftLeft_or value.toBitVec b
    rw [Kind.fits_unsigned_iff] at hfits
    rw [if_neg Bool.noConfusion, if_pos rfl, Option.map_some, hword]
    congr 1
    omega

/-- There is room for a group exactly if the number with it has 64 bits. -/
theorem map_extendInt (value : Int64) (b : UInt8) :
    (extendInt value b).map Int64.toInt =
      Option.guard Kind.signed.fits (value.toInt * 128 + payload b) := by
  simp only [extendInt, Option.guard, noRoomInt_iff value b]
  cases hfits : Kind.signed.fits (value.toInt * 128 + payload b) with
  | false => rfl
  | true =>
    have hword : (value <<< 7 ||| (b &&& 0x7F).toUInt64.toInt64).toBitVec.toNat =
        (value.toBitVec.toNat * 128 + payload b) % 0x10000000000000000 :=
      toNat_shiftLeft_or value.toBitVec b
    rw [Kind.fits_signed_iff] at hfits
    rw [if_neg Bool.noConfusion, if_pos rfl, Option.map_some]
    -- the bits are those of the sum, and the sum is in the range in which bits tell a number
    congr 1
    rw [← Int64.toInt_toBitVec, BitVec.toInt_eq_toNat_cond, hword]
    rw [← Int64.toInt_toBitVec, BitVec.toInt_eq_toNat_cond] at hfits ⊢
    omega

/-! ## Words: writing -/

/-- The groups of `rest`, in front of those that are there. -/
def natGroups (rest : UInt64) (behind : List UInt8) : List UInt8 :=
  if rest = 0 then behind
  else natGroups (rest >>> 7) ((rest &&& 0x7F).toUInt8 :: behind)
termination_by rest.toNat
decreasing_by
  rename_i h
  have hpos : rest.toNat ≠ 0 := fun h0 ↦ h (UInt64.toNat_inj.mp h0)
  rw [toNat_shiftRight_seven]
  omega

/-- The bytes of a natural number, from the last one back. -/
def encodeNat (n : UInt64) : List UInt8 := natGroups (n >>> 7) [(n &&& 0x7F).toUInt8 ||| 0x80]

private theorem natGroups_eq {rest : UInt64} {v : Int} (h : (rest.toNat : Int) = v / 128)
    (behind : List UInt8) : natGroups rest behind = leadingGroups .unsigned v ++ behind := by
  induction rest, behind using natGroups.induct generalizing v with
  | case1 behind =>
    have hfits : Kind.unsigned.fitsGroup v = true := by
      have hzero : UInt64.toNat 0 = 0 := rfl
      rw [Kind.fitsGroup, decide_eq_true_eq]
      omega
    rw [natGroups, if_pos rfl, leadingGroups, if_pos hfits]
    rfl
  | case2 rest behind hne ih =>
    have hpos : rest.toNat ≠ 0 := fun h0 ↦ hne (UInt64.toNat_inj.mp h0)
    have hnext : ((rest >>> 7).toNat : Int) = v / 128 / 128 := by
      rw [toNat_shiftRight_seven]
      omega
    have hfits : ¬Kind.unsigned.fitsGroup v = true := by
      rw [Kind.fitsGroup, decide_eq_true_eq]
      omega
    rw [natGroups, if_neg hne, ih hnext, leadingGroups.eq_def .unsigned v, if_neg hfits,
      toUInt8_and_nat, h, List.append_assoc]
    rfl

theorem encodeNat_eq (n : UInt64) : encodeNat n = encode .unsigned n.toNat := by
  have hrest : ((n >>> 7).toNat : Int) = (n.toNat : Int) / 128 := by
    rw [toNat_shiftRight_seven]
    rfl
  rw [encodeNat, natGroups_eq hrest, toUInt8_and_nat, group_or_stopBit, encode]

/-- Whether `front` can be the first group: what is left is all sign, and is the sign of `front`. -/
def isComplete (rest : Int64) (front : UInt8) : Bool :=
  (rest == 0 && !hasSign front) || (rest == -1 && hasSign front)

/-- The groups are complete exactly if the number that is left, with the group in front, fits into
one group. -/
theorem isComplete_eq {rest : Int64} {front : UInt8} {v : Int} (hrest : rest.toInt = v / 128)
    (hfront : (payload front : Int) = v % 128) :
    isComplete rest front = Kind.signed.fitsGroup v := by
  have hzero : rest = 0 ↔ v / 128 = 0 := by
    rw [← hrest]
    exact Int64.toInt_inj.symm
  have hones : rest = -1 ↔ v / 128 = -1 := by
    rw [← hrest]
    exact Int64.toInt_inj.symm
  rw [isComplete, hasSign_eq, Kind.fitsGroup, Bool.eq_iff_iff]
  simp only [Bool.or_eq_true, Bool.and_eq_true, beq_iff_eq, hzero, hones, Bool.not_eq_true',
    decide_eq_true_eq, decide_eq_false_iff_not]
  omega

/-- The groups of `rest`, in front of `front` and of those behind it. -/
def intGroups (rest : Int64) (front : UInt8) (behind : List UInt8) : List UInt8 :=
  if isComplete rest front then front :: behind
  else intGroups (rest >>> 7) (rest &&& 0x7F).toUInt64.toUInt8 (front :: behind)
-- the number that is left, with the group in front; the next one is `rest`
termination_by (rest.toInt * 128 + payload front).natAbs
decreasing_by
  rename_i h
  have hb := payload_lt front
  rw [isComplete_eq (v := rest.toInt * 128 + payload front) (by omega) (by omega)] at h
  simp only [Kind.fitsGroup, decide_eq_true_eq] at h
  rw [toInt_shiftRight_seven, toUInt8_and_int, payload_group]
  omega

/-- The bytes of a signed number, from the last one back. -/
def encodeInt (v : Int64) : List UInt8 :=
  intGroups (v >>> 7) ((v &&& 0x7F).toUInt64.toUInt8 ||| 0x80) []

private theorem intGroups_eq {rest : Int64} {front : UInt8} {v : Int}
    (hrest : rest.toInt = v / 128) (hfront : (payload front : Int) = v % 128)
    (behind : List UInt8) :
    intGroups rest front behind = leadingGroups .signed v ++ front :: behind := by
  induction rest, front, behind using intGroups.induct generalizing v with
  | case1 rest front behind h =>
    rw [intGroups, if_pos h]
    rw [isComplete_eq hrest hfront] at h
    rw [leadingGroups, if_pos h]
    rfl
  | case2 rest front behind h ih =>
    have hnext : (rest >>> 7).toInt = v / 128 / 128 := by rw [toInt_shiftRight_seven, hrest]
    have hgroup : (rest &&& 0x7F).toUInt64.toUInt8 = group (v / 128) := by
      rw [toUInt8_and_int, hrest]
    rw [intGroups, if_neg h, ih hnext (by rw [hgroup, payload_group])]
    rw [isComplete_eq hrest hfront] at h
    rw [leadingGroups.eq_def .signed v, if_neg h, hgroup, List.append_assoc]
    rfl

theorem encodeInt_eq (v : Int64) : encodeInt v = encode .signed v.toInt := by
  have hlast : (v &&& 0x7F).toUInt64.toUInt8 ||| 0x80 = lastGroup v.toInt := by
    rw [toUInt8_and_int, group_or_stopBit]
  rw [encodeInt, hlast, intGroups_eq (toInt_shiftRight_seven v) (payload_lastGroup _), encode]

end TreePickle.Base128
