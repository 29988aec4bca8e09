import TreePickle.Text

/-!
# Reading forward

A `Cursor` stands at an address and sees the bytes from there to the end of the range it may read.
Everything that is read in sequence depends on these two things alone: not on the bytes already
passed, and not on what follows the range. Going back to an address, and cutting out a range, need
the whole range and belong to `TreePickle.Reader`.

`Decode ε α` is a reading action. It moves the cursor also when it fails, because an error leaves
the cursor where the reading stopped: behind the bytes of a number that is too large, but in front
of a block of bytes that is not all there.

## Addresses

An address counts bytes from the beginning of a file. Addresses and lengths are 64-bit words in
the format; here they are plain natural numbers, and the width shows only where an address is
computed from a length that was read: `Address.advance?` refuses a sum that needs more than 64 bits.

## Errors

A `Fault` names what is wrong with the bytes and the address that the message speaks of. For a
number or a text that is the address where it begins, and not the one where the fault shows.

## Repetition

Items are read one after the other as long as the cursor stands before a given address. An item
takes at least one byte, so there are no more items than addresses in between, and that number of
rounds is what `Decode.rounds` recurses on. The last item may end behind the given address, and it
is for the caller to find out. `Decode.iterateUntil_eq` takes the count away again: a repetition
does one round and goes on from there, for every item that takes a byte.
-/

namespace TreePickle

/-! ## Addresses -/

namespace Address

/-- The first number that is no address. -/
def bound : Nat := UInt64.size

/-- The address `n` bytes behind `a`, if there is such an address. -/
def advance? (a n : Nat) : Option Nat := if a + n < bound then some (a + n) else none

/-- How far `a` lies behind `earlier`; zero if it does not. -/
def distance (earlier a : Nat) : Nat := a - earlier

theorem advance?_eq_some_iff {a n b : Nat} :
    advance? a n = some b ↔ a + n = b ∧ a + n < bound := by
  by_cases h : a + n < bound <;> simp [advance?, h]

theorem advance?_eq_none_iff {a n : Nat} : advance? a n = none ↔ bound ≤ a + n := by
  rw [advance?, ite_eq_right_iff, ← Nat.not_lt]
  simp

end Address

/-! ## Cursors -/

/-- A place in a file and the bytes that can be read from it. -/
structure Cursor where
  /-- The address of the first byte ahead. -/
  position : Nat
  /-- The bytes from there to the end of the range. -/
  ahead : List UInt8
  deriving DecidableEq, Repr

namespace Cursor

/-- The address just behind the last byte that can be read. -/
def stop (c : Cursor) : Nat := c.position + c.ahead.length

/-- Whether a list has at least `n` entries, found without walking past the `n`-th. -/
def hasAtLeast {α : Type} : Nat → List α → Bool
  | 0, _ => true
  | _ + 1, [] => false
  | n + 1, _ :: l => hasAtLeast n l

@[simp] theorem hasAtLeast_eq_true_iff {α : Type} {n : Nat} {l : List α} :
    hasAtLeast n l = true ↔ n ≤ l.length := by
  induction l generalizing n with
  | nil => cases n <;> simp [hasAtLeast]
  | cons a l ih => cases n <;> simp [hasAtLeast, ih]

/-- The cursor `n` bytes further on. -/
def drop (c : Cursor) (n : Nat) : Cursor := ⟨c.position + n, c.ahead.drop n⟩

end Cursor

/-! ## Faults -/

/-- What can be wrong with bytes that are read. -/
inductive Fault where
  /-- More bytes are wanted than there are. -/
  | unexpectedEnd (position : Nat)
  /-- A text is not valid UTF-8. -/
  | invalidUtf8 (position : Nat)
  /-- A number is too large for its width. -/
  | numberOverflow (position : Nat)
  /-- An address lies outside of the range that may be read. -/
  | addressOutOfRange (position start stop : Nat)
  deriving DecidableEq, Repr

namespace Fault

def message : Fault → String
  | unexpectedEnd a => s!"Unexpected end of input at address {a}"
  | invalidUtf8 a => s!"Invalid UTF-8 string at address {a}"
  | numberOverflow a => s!"Number overflow at address {a}"
  | addressOutOfRange a start stop =>
      s!"Address {a} outside of readable range [{start}, {stop})"

end Fault

/-! ## Reading actions -/

/-- An action that reads from a cursor and may fail with an `ε`. -/
abbrev Decode (ε α : Type) := EStateM ε Cursor α

namespace Decode

variable {ε ε' α σ : Type}

/-- The same action with its errors renamed. -/
def mapError (f : ε → ε') (x : Decode ε α) : Decode ε' α := fun c ↦
  match x c with
  | .ok a c' => .ok a c'
  | .error e c' => .error (f e) c'

/-- An outcome that is already known. -/
def ofExcept : Except ε α → Decode ε α
  | .ok a => pure a
  | .error e => throw e

def position : Decode ε Nat := fun c ↦ .ok c.position c

/-- The end of the range. -/
def stop : Decode ε Nat := fun c ↦ .ok c.stop c

/-! ## Bytes and texts -/

def byte : Decode Fault UInt8 := fun c ↦
  match c.ahead with
  | [] => .error (.unexpectedEnd c.position) c
  | b :: rest => .ok b ⟨c.position + 1, rest⟩

/-- The next `n` bytes. They are read all or not at all. -/
def bytes (n : Nat) : Decode Fault (List UInt8) := fun c ↦
  if Cursor.hasAtLeast n c.ahead then .ok (c.ahead.take n) (c.drop n)
  else .error (.unexpectedEnd c.position) c

/-- The text of the next `n` bytes. Bytes that are no text are passed over all the same. -/
def text (n : Nat) : Decode Fault String := do
  let start ← position
  match Text.ofUtf8? (← bytes n) with
  | some s => return s
  | none => throw (.invalidUtf8 start)

/-- Moves forward to an address in the rest of the range. -/
def advanceTo (a : Nat) : Decode Fault Unit := fun c ↦
  if c.position ≤ a ∧ Cursor.hasAtLeast (a - c.position) c.ahead then
    .ok () (c.drop (a - c.position))
  else .error (.addressOutOfRange a c.position c.stop) c

/-! ## Repetition -/

/-- At most `n` rounds of `step` while the cursor stands before `stop`. -/
def rounds (stop : Nat) (step : σ → Decode ε σ) : Nat → σ → Decode ε σ
  | 0, s => pure s
  | n + 1, s => do
      if (← position) < stop then rounds stop step n (← step s) else pure s

/-- Repeats `step` on a state while the cursor stands before `stop`. -/
def iterateUntil (stop : Nat) (step : σ → Decode ε σ) (s : σ) : Decode ε σ := do
  rounds stop step (stop - (← position)) s

/-- The items that begin before `stop`. -/
def itemsUntil (stop : Nat) (item : Decode ε α) : Decode ε (List α) := do
  return (← iterateUntil stop (fun items ↦ return (← item) :: items) []).reverse

/-! ### Unfolding -/

/-- An action that takes at least one byte if it succeeds. -/
def Advances (x : Decode ε α) : Prop := ∀ c a c', x c = .ok a c' → c.position < c'.position

private theorem rounds_succ (stop : Nat) (step : σ → Decode ε σ) (n : Nat) (s : σ) (c : Cursor) :
    rounds stop step (n + 1) s c =
      if c.position < stop then (step s >>= rounds stop step n) c else .ok s c := by
  rw [rounds]
  change (if c.position < stop then _ else _ : Decode ε σ) c = _
  split <;> rfl

/-- More rounds than there are addresses make no difference. -/
private theorem rounds_eq {stop : Nat} {step : σ → Decode ε σ} (h : ∀ s, Advances (step s))
    {n k : Nat} {c : Cursor} (s : σ) (hn : stop - c.position ≤ n) (hk : stop - c.position ≤ k) :
    rounds stop step n s c = rounds stop step k s c := by
  induction n generalizing k c s with
  | zero =>
    cases k with
    | zero => rfl
    | succ k =>
      rw [rounds_succ, if_neg (by omega)]
      rfl
  | succ n ih =>
    cases k with
    | zero =>
      rw [rounds_succ, if_neg (by omega)]
      rfl
    | succ k =>
      rw [rounds_succ, rounds_succ]
      split
      · change EStateM.bind _ _ c = EStateM.bind _ _ c
        unfold EStateM.bind
        cases hs : step s c with
        | error e c' => rfl
        | ok s' c' =>
          have := h s c s' c' hs
          exact ih s' (by omega) (by omega)
      · rfl

/-- A repetition does one round and goes on from there, or it is over. -/
theorem iterateUntil_eq {stop : Nat} {step : σ → Decode ε σ} (h : ∀ s, Advances (step s)) (s : σ)
    (c : Cursor) :
    iterateUntil stop step s c =
      if c.position < stop then (step s >>= iterateUntil stop step) c else .ok s c := by
  change rounds stop step (stop - c.position) s c = _
  rw [rounds_eq h s (Nat.le_refl _) (Nat.le_succ _), rounds_succ]
  split
  · change EStateM.bind _ _ c = EStateM.bind _ _ c
    unfold EStateM.bind
    cases hs : step s c with
    | error e c' => rfl
    | ok s' c' =>
      have := h s c s' c' hs
      exact rounds_eq h s' (by omega) (Nat.le_refl _)
  · rfl

end Decode

end TreePickle
