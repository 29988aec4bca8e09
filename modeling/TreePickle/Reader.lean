import TreePickle.Header

/-!
# Readers

A `Reader` may read a range of a file and knows all of it, so that it can go to any address of the
range and cut a smaller range out of it. Addresses keep counting from the beginning of the file:
the reader of a section reports the same addresses as a reader of the whole file would.

## Representation

A reader holds the bytes of its range and not those of the file, with the address where they begin.
Two new readers of the same bytes at the same address are therefore equal, whatever the files are
that the bytes were cut out of.

The cursor of a reader is the place where it reads on. It carries the bytes ahead of it, which the
reader has as well. `Reader.Coherent` says that the cursor stands inside of the range and sees
exactly the bytes that follow; every operation keeps it so. Cursors are what actions run on, and
only going to an address makes a new one from the range.
-/

namespace TreePickle

/-- A range of a file with a place in it. -/
structure Reader where
  /-- The address where the range begins. -/
  start : Nat
  /-- The bytes of the range. -/
  window : List UInt8
  cursor : Cursor
  deriving DecidableEq, Repr

namespace Reader

/-- A reader of a whole file. -/
def ofBytes (bytes : List UInt8) : Reader := ⟨0, bytes, ⟨0, bytes⟩⟩

/-- The address just behind the range. -/
def stop (r : Reader) : Nat := r.start + r.window.length

/-- The address where the reader reads on. -/
def position (r : Reader) : Nat := r.cursor.position

/-- The number of bytes that are left to read. -/
def remaining (r : Reader) : Nat := Address.distance r.position r.stop

def isAtEnd (r : Reader) : Bool := decide (r.stop ≤ r.position)

/-- The cursor stands in the range and sees what follows in it. -/
structure Coherent (r : Reader) : Prop where
  start_le : r.start ≤ r.position
  position_le : r.position ≤ r.stop
  ahead_eq : r.cursor.ahead = r.window.drop (r.position - r.start)

theorem Coherent.stop_cursor {r : Reader} (h : r.Coherent) : r.cursor.stop = r.stop := by
  have hstart := h.start_le
  have hle := h.position_le
  rw [stop] at hle ⊢
  rw [Cursor.stop, h.ahead_eq, List.length_drop]
  change r.position + _ = _
  omega

/-! ## Reading -/

variable {ε α : Type}

/-- What a reading action gives, and the reader after it. -/
def run (x : Decode ε α) (r : Reader) : Except ε α × Reader :=
  match x r.cursor with
  | .ok a c => (.ok a, { r with cursor := c })
  | .error e c => (.error e, { r with cursor := c })

/-- What a reading action gives. -/
def eval (x : Decode ε α) (r : Reader) : Except ε α := (r.run x).1

/-! ## Addresses and ranges -/

/-- Refuses an address outside of the range; its end is no longer a byte, but still an address. -/
def check (r : Reader) (a : Nat) : Except Fault Unit :=
  if r.start ≤ a ∧ a ≤ r.stop then .ok () else .error (.addressOutOfRange a r.start r.stop)

/-- The reader at another address. -/
def goTo (r : Reader) (a : Nat) : Except Fault Reader := do
  r.check a
  return { r with cursor := ⟨a, r.window.drop (a - r.start)⟩ }

/-- A reader of the addresses from `start` to `stop`. -/
def sub (r : Reader) (start stop : Nat) : Except Fault Reader := do
  r.check start
  r.check stop
  if stop < start then throw (.addressOutOfRange start r.start stop)
  let window := (r.window.drop (start - r.start)).take (stop - start)
  return ⟨start, window, ⟨start, window⟩⟩

end Reader

end TreePickle
