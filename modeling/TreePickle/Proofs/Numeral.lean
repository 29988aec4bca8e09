import Mathlib.Data.Nat.Digits.Defs
import TreePickle.Cursor.Number
import TreePickle.Proofs.Reading

/-!
# The bytes of a number

`Base128.value k bs` is the number that groups stand for by their positions alone, as any text on
positional systems has it. `Base128.numeral k v` is the language of all spellings of `v`: groups
with the stop bit in the last one and nowhere else, whose value is `v`. A number has as many
spellings as one likes, since leading groups that repeat the sign are allowed.

## From positions to steps

Values are defined by positions and reading goes step by step. `extend_value?` joins the two: the
value of the groups so far, extended by one more group, is the value of one group more. Reading with
some groups read before is then stated of the groups before and behind together, and each step of
the induction moves one group from the one side to the other.

Reading compares with the range of 64 bits after each byte. That this refuses no spelling of a
number in the range is `fits_of_fits_value_append`: a value only moves away from zero as groups are
appended, so a number that leaves the range on the way does not come back.

## Widths

All reads are read off `Reads.number` by the equations for words: the wide ones keep the number, the
narrow ones test it, and the end of a frame adds the address behind it. Each accepts the spellings
of the number that its result denotes, `natural` or `integer`.
-/

namespace TreePickle.Base128

/-! ## Values by position -/

/-- Whether the sign bit of the first group is set. -/
def isNegative : Kind → List UInt8 → Bool
  | .signed, b :: _ => decide (64 ≤ payload b)
  | _, _ => false

/-- The groups of some bytes as the digits of a natural number in base 128. -/
def magnitude (bs : List UInt8) : Nat := Nat.ofDigits 128 (bs.map payload).reverse

/-- The number that the groups of some bytes stand for, in two's complement if it is signed. -/
def value (k : Kind) (bs : List UInt8) : Int :=
  magnitude bs - if isNegative k bs then 128 ^ bs.length else 0

theorem magnitude_append_singleton (bs : List UInt8) (b : UInt8) :
    magnitude (bs ++ [b]) = magnitude bs * 128 + payload b := by
  rw [magnitude, magnitude, List.map_append, List.reverse_append, List.map_singleton,
    List.reverse_singleton, List.singleton_append, Nat.ofDigits_cons]
  omega

theorem isNegative_append {k : Kind} {bs : List UInt8} (h : bs ≠ []) (cs : List UInt8) :
    isNegative k (bs ++ cs) = isNegative k bs := by
  cases bs with
  | nil => exact absurd rfl h
  | cons b bs => cases k <;> rfl

theorem value_singleton (k : Kind) (b : UInt8) : value k [b] = k.leading b := by
  have hm : magnitude [b] = payload b := Nat.ofDigits_singleton
  cases k with
  | unsigned => simp [value, isNegative, Kind.leading, hm]
  | signed =>
    by_cases h : 64 ≤ payload b
    · simp [value, isNegative, Kind.leading, hm, h, Nat.not_lt.mpr h]
    · simp [value, isNegative, Kind.leading, hm, h, Nat.lt_of_not_le h]

/-- One more group moves the others by one position. -/
theorem value_append_singleton {k : Kind} {bs : List UInt8} (h : bs ≠ []) (b : UInt8) :
    value k (bs ++ [b]) = value k bs * 128 + payload b := by
  rw [value, value, isNegative_append h, magnitude_append_singleton, List.length_append,
    List.length_singleton, pow_succ]
  split
  · push_cast
    ring
  · push_cast
    ring

/-- The value of the groups so far, as reading keeps it. -/
def value? (k : Kind) (bs : List UInt8) : Option Int := if bs = [] then none else some (value k bs)

theorem extend_value? (k : Kind) (bs : List UInt8) (b : UInt8) :
    k.extend (value? k bs) b = value k (bs ++ [b]) := by
  by_cases h : bs = []
  · subst h
    exact (value_singleton k b).symm
  · rw [value?, if_neg h, Kind.extend, value_append_singleton h]

/-- A number that fits still fits without its last groups. -/
theorem fits_of_fits_value_append {k : Kind} {bs : List UInt8} (hbs : bs ≠ []) (cs : List UInt8)
    (h : k.fits (value k (bs ++ cs)) = true) : k.fits (value k bs) = true := by
  -- the last group goes first: without it the value is a quotient, which is nearer to zero
  induction cs using List.reverseRecOn with
  | nil => rwa [List.append_nil] at h
  | append_singleton cs c ih =>
    refine ih ?_
    have hc : payload c < 128 := Nat.mod_lt _ (by decide)
    rw [← List.append_assoc, value_append_singleton (by simp [hbs])] at h
    generalize value k (bs ++ cs) = v at h ⊢
    rw [Kind.fits_iff] at h ⊢
    cases k <;> simp only [Kind.least, Kind.bound] at h ⊢ <;> omega

/-! ## Spellings -/

/-- The stop bit stands in the last byte and in no other. -/
def Stopped (bs : List UInt8) : Prop :=
  ∃ groups last, bs = groups ++ [last] ∧ (∀ b ∈ groups, isLast b = false) ∧ isLast last = true

theorem Stopped.ne_nil {bs : List UInt8} (h : Stopped bs) : bs ≠ [] := by
  obtain ⟨groups, last, rfl, -⟩ := h
  simp

theorem stopped_cons_of_isLast {b : UInt8} {bs : List UInt8} (hb : isLast b = true) :
    Stopped (b :: bs) ↔ bs = [] := by
  constructor
  · rintro ⟨_ | ⟨g, groups⟩, last, h, hgroups, -⟩
    · exact (List.cons.inj h).2
    · obtain rfl : b = g := (List.cons.inj h).1
      simp [hgroups b] at hb
  · rintro rfl
    exact ⟨[], b, rfl, by simp, hb⟩

theorem stopped_cons_of_not_isLast {b : UInt8} {bs : List UInt8} (hb : isLast b = false) :
    Stopped (b :: bs) ↔ Stopped bs := by
  constructor
  · rintro ⟨_ | ⟨g, groups⟩, last, h, hgroups, hlast⟩
    · simp_all
    · exact ⟨groups, last, (List.cons.inj h).2,
        fun d hd ↦ hgroups d (List.mem_cons_of_mem g hd), hlast⟩
  · rintro ⟨groups, last, rfl, hgroups, hlast⟩
    exact ⟨b :: groups, last, rfl, by simpa [hb] using hgroups, hlast⟩

/-- All spellings of a number of 64 bits. -/
def numeral (k : Kind) (v : Int) : Language UInt8 :=
  {bs | Stopped bs ∧ value k bs = v ∧ k.fits v = true}

/-- All spellings of a natural number. -/
def natural (n : Nat) : Language UInt8 := numeral .unsigned n

/-- All spellings of an integer. -/
def integer (v : Int) : Language UInt8 := numeral .signed v

theorem nil_notMem_numeral (k : Kind) (v : Int) : [] ∉ numeral k v := fun h ↦ h.1.ne_nil rfl

end TreePickle.Base128

namespace TreePickle.Decode

open Base128

variable {limit : Nat}

/-! ## What is read as a number -/

private theorem numberFrom_eq_ok_iff {k : Kind} {start p : Nat} {bs l : List UInt8} {v : Int}
    {c : Cursor} :
    numberFrom k start p (value? k bs) l = .ok v c ↔
      ∃ cs, (Stopped cs ∧ value k (bs ++ cs) = v ∧ k.fits v = true) ∧ l = cs ++ c.ahead ∧
        c.position = p + cs.length := by
  -- `bs` are the groups that were read before, and each step moves one more to them
  induction l generalizing p bs with
  | nil =>
    rw [numberFrom]
    constructor
    · rintro ⟨⟩
    · rintro ⟨cs, ⟨hcs, -⟩, hl, -⟩
      exact absurd (List.append_eq_nil_iff.mp hl.symm).1 hcs.ne_nil
  | cons b l ih =>
    have hsplit (cs : List UInt8) : bs ++ b :: cs = bs ++ [b] ++ cs := by simp
    rw [numberFrom, extend_value?]
    cases hfits : k.fits (value k (bs ++ [b])) with
    | false =>
      -- refused, and rightly so: no groups that follow would bring the value back
      constructor
      · rintro ⟨⟩
      · rintro ⟨_ | ⟨d, cs⟩, ⟨hcs, rfl, hv⟩, hl, -⟩
        · exact absurd rfl hcs.ne_nil
        · obtain ⟨rfl, -⟩ := List.cons.inj hl
          rw [hsplit] at hv
          simp [fits_of_fits_value_append (by simp) cs hv] at hfits
    | true =>
      cases hlast : isLast b with
      | true =>
        constructor
        · rintro ⟨⟩
          exact ⟨[b], ⟨(stopped_cons_of_isLast hlast).mpr rfl, rfl, hfits⟩, rfl, rfl⟩
        · rintro ⟨_ | ⟨d, cs⟩, ⟨hcs, rfl, -⟩, hl, hp⟩
          · exact absurd rfl hcs.ne_nil
          · obtain ⟨rfl, hl⟩ := List.cons.inj hl
            obtain rfl := (stopped_cons_of_isLast hlast).mp hcs
            obtain ⟨p', l'⟩ := c
            cases hp
            cases hl
            rfl
      | false =>
        have hnext : some (value k (bs ++ [b])) = value? k (bs ++ [b]) := by simp [value?]
        change numberFrom k start (p + 1) (some (value k (bs ++ [b]))) l = .ok v c ↔ _
        rw [hnext, ih]
        constructor
        · rintro ⟨cs, ⟨hcs, hv, hf⟩, rfl, hp⟩
          refine ⟨b :: cs, ⟨(stopped_cons_of_not_isLast hlast).mpr hcs, ?_, hf⟩, rfl, ?_⟩
          · rw [hsplit, hv]
          · rw [hp, List.length_cons]
            omega
        · rintro ⟨_ | ⟨d, cs⟩, ⟨hcs, hv, hf⟩, hl, hp⟩
          · exact absurd rfl hcs.ne_nil
          · obtain ⟨rfl, rfl⟩ := List.cons.inj hl
            rw [hsplit] at hv
            rw [List.length_cons] at hp
            exact ⟨cs, ⟨(stopped_cons_of_not_isLast hlast).mp hcs, hv, hf⟩, rfl, by omega⟩

namespace Reads

theorem number (k : Kind) : Reads limit (Decode.number k) fun _ v bs ↦ bs ∈ numeral k v := by
  intro c c' v _
  exact @numberFrom_eq_ok_iff k c.position c.position [] c.ahead v c'

/-- What is computed from a number is read from the spellings of that number. -/
private theorem number_bind {α : Type} {k : Kind} {f : Int → Decode Fault α} {P : Int → α → Prop}
    (hf : ∀ v, Reads limit (f v) fun _ u bs ↦ P v u ∧ bs = []) (g : α → Int)
    (hg : ∀ v u, k.fits v = true → (P v u ↔ v = g u)) :
    Reads limit (Decode.number k >>= f) fun _ u bs ↦ bs ∈ numeral k (g u) := by
  refine ((number k).bind hf).congr fun _ u bs _ ↦ ?_
  constructor
  · rintro ⟨v, bs, _, hv, ⟨hu, rfl⟩, rfl⟩
    rw [List.append_nil, ← (hg v u hv.2.2).mp hu]
    exact hv
  · intro hv
    exact ⟨g u, bs, [], hv, ⟨(hg _ u hv.2.2).mpr rfl, rfl⟩, (List.append_nil bs).symm⟩

theorem longNat : Reads limit Decode.longNat fun _ n bs ↦ bs ∈ natural n.toNat := by
  rw [Decode.longNat_eq]
  refine number_bind (fun v ↦ pure _) (fun n : UInt64 ↦ n.toNat) fun v n hv ↦ ?_
  rw [Kind.fits_unsigned_iff] at hv
  rw [← UInt64.toNat_inj, UInt64.toNat_ofNat']
  omega

theorem longInt : Reads limit Decode.longInt fun _ v bs ↦ bs ∈ integer v.toInt := by
  rw [Decode.longInt_eq]
  refine number_bind (fun v ↦ pure _) Int64.toInt fun v u hv ↦ ?_
  rw [Kind.fits_signed_iff] at hv
  rw [← Int64.toInt_inj, Int64.toInt_ofInt_of_le hv.1 hv.2, eq_comm]

theorem length : Reads limit Decode.length fun _ n bs ↦ bs ∈ natural n := by
  rw [Decode.length_eq]
  refine number_bind (fun v ↦ pure _) (fun n : Nat ↦ n) fun v n hv ↦ ?_
  rw [Kind.fits_unsigned_iff] at hv
  omega

/-- The narrow widths refuse numbers that are out of their range. -/
private theorem ite_pure_throw {α : Type} {p : Prop} [Decidable p] (u : α) (e : Fault) :
    Reads limit (if p then Pure.pure u else MonadExcept.throw e : Decode Fault α) fun _ w bs ↦
      (p ∧ w = u) ∧ bs = [] := by
  refine (ite (fun _ ↦ pure u) fun _ ↦ throw e).congr fun _ w bs _ ↦ ?_
  by_cases hp : p
  · simp [hp]
  · simp [hp]

theorem nat : Reads limit Decode.nat fun _ n bs ↦ bs ∈ natural n.toNat := by
  rw [Decode.nat_eq]
  refine position_bind fun start ↦
    number_bind (fun v ↦ ite_pure_throw _ _) (fun n : UInt32 ↦ n.toNat) fun v n hv ↦ ?_
  rw [Kind.fits_unsigned_iff] at hv
  rw [← UInt32.toNat_inj, UInt32.toNat_ofNat', UInt32.size]
  have hn := n.toNat_lt
  omega

theorem int : Reads limit Decode.int fun _ v bs ↦ bs ∈ integer v.toInt := by
  rw [Decode.int_eq]
  refine position_bind fun start ↦
    number_bind (fun v ↦ ite_pure_throw _ _) Int32.toInt fun v u _ ↦ ?_
  constructor
  · rintro ⟨⟨hle, hlt⟩, rfl⟩
    exact (Int32.toInt_ofInt_of_le hle hlt).symm
  · rintro rfl
    exact ⟨⟨u.le_toInt, u.toInt_lt⟩, u.ofInt_toInt.symm⟩

/-- The end of a frame is the address behind its length, and as many bytes further on. -/
theorem frameEnd : Reads limit Decode.frameEnd fun a stop bs ↦
    ∃ n, bs ∈ natural n ∧ stop = a + bs.length + n ∧ stop < Address.bound := by
  refine (position_bind fun start ↦ length.bind fun n ↦ position_bind
    (U := fun p _ stop bs ↦ (stop = p + n ∧ stop < Address.bound) ∧ bs = []) fun p ↦ ?_).congr
      fun a stop bs _ ↦ ?_
  · cases h : Address.advance? p n with
    | none =>
      rw [Address.advance?_eq_none_iff] at h
      refine (throw _).congr fun _ stop bs _ ↦ iff_of_false not_false ?_
      rintro ⟨⟨rfl, hlt⟩, -⟩
      exact absurd hlt (Nat.not_lt.mpr h)
    | some s =>
      obtain ⟨rfl, hlt⟩ := Address.advance?_eq_some_iff.mp h
      refine (pure _).congr fun _ stop bs _ ↦ and_congr_left fun _ ↦ ?_
      exact ⟨fun hs ↦ ⟨hs, hs ▸ hlt⟩, And.left⟩
  · constructor
    · rintro ⟨n, bs, _, hn, ⟨hs, rfl⟩, rfl⟩
      exact ⟨n, by simpa using ⟨hn, hs⟩⟩
    · rintro ⟨n, hn, hs⟩
      exact ⟨n, bs, [], hn, ⟨hs, rfl⟩, (List.append_nil bs).symm⟩

end Reads

/-- Writing chooses one of the spellings of a number. -/
theorem encode_mem_numeral {k : Kind} {v : Int} (h : k.fits v = true) :
    encode k v ∈ numeral k v := by
  have hrun := number_encode h 0 []
  rw [List.append_nil] at hrun
  obtain ⟨bs, hbs, hl, -⟩ := (Reads.number k _ _ v rfl).mp hrun
  obtain rfl : encode k v = bs := by rwa [List.append_nil] at hl
  exact hbs

end TreePickle.Decode
