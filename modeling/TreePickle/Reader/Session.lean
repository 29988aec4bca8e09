import TreePickle.Cursor.Basic
import TreePickle.Reader

/-!
# Reading sessions

A `Request` is an operation of a reader as a value, and `Session.run` carries out a list of them.
A session works on a stack of readers: cutting out a range puts the reader of the range on top,
and dropping it returns to the reader that it was cut out of. A request that fails leaves the stack
as the failing operation left it, and the next request goes on from there.

## Requests as values

What a caller does with a reader, one operation after the other and with what it likes to do after
a failure, is a list of requests. A statement on all callers is so a statement on all lists, proved
by induction with one step for each request. `Operation`s are the requests that only read forward;
they know nothing of the range but its end, so they are actions on a cursor.

Each answer comes with the address where the reader on top stands afterwards. A failed action may
have read some bytes, and the place is part of what a caller can observe.
-/

namespace TreePickle

/-! ## Operations -/

/-- The kinds of items, each read by an action of its own. -/
inductive ItemKind where
  | byte
  | nat
  | int
  | longNat
  | longInt
  | length
  | frameEnd
  | uuid
  deriving DecidableEq, Repr

/-- What is read. -/
inductive Item where
  | byte (b : UInt8)
  | nat (n : UInt32)
  | int (v : Int32)
  | longNat (n : UInt64)
  | longInt (v : Int64)
  | length (n : Nat)
  | frameEnd (a : Nat)
  | uuid (id : Uuid)
  deriving DecidableEq

/-- Reads an item. -/
def ItemKind.decode : ItemKind → Decode Fault Item
  | byte => Item.byte <$> Decode.byte
  | nat => Item.nat <$> Decode.nat
  | int => Item.int <$> Decode.int
  | longNat => Item.longNat <$> Decode.longNat
  | longInt => Item.longInt <$> Decode.longInt
  | length => Item.length <$> Decode.length
  | frameEnd => Item.frameEnd <$> Decode.frameEnd
  | uuid => Item.uuid <$> Decode.uuid

/-- An operation that reads forward. -/
inductive Operation where
  | item (kind : ItemKind)
  | bytes (count : Nat)
  | text (count : Nat)
  /-- The items that begin before an address. -/
  | itemsUntil (stop : Nat) (kind : ItemKind)
  deriving DecidableEq, Repr

/-- The outcome of an operation that succeeds. -/
inductive Outcome where
  | item (item : Item)
  | bytes (bytes : List UInt8)
  | text (text : String)
  | items (items : List Item)
  deriving DecidableEq

def Operation.decode : Operation → Decode Fault Outcome
  | item kind => Outcome.item <$> kind.decode
  | bytes count => Outcome.bytes <$> Decode.bytes count
  | text count => Outcome.text <$> Decode.text count
  | itemsUntil stop kind => Outcome.items <$> Decode.itemsUntil stop kind.decode

/-! ## Requests -/

/-- An operation on the reader on top of a stack. -/
inductive Request where
  | read (op : Operation)
  | goTo (a : Nat)
  /-- All bytes of the range. -/
  | window
  /-- The range and the place in it. -/
  | inspect
  /-- Reads a file header for a reader of the given version. -/
  | header (reader : Version)
  /-- Cuts out a range. -/
  | sub (start stop : Nat)
  /-- Returns to the reader below. -/
  | drop
  deriving DecidableEq, Repr

/-- The answer to a request that succeeds. -/
inductive Reply where
  | outcome (outcome : Outcome)
  | header (header : Header)
  | bytes (bytes : List UInt8)
  | state (start stop position : Nat) (remaining : Nat) (isAtEnd : Bool)
  | done
  deriving DecidableEq

/-- Why a request fails. -/
inductive Refusal where
  | fault (fault : Fault)
  | header (fault : Header.Fault)
  deriving DecidableEq

def Refusal.message : Refusal → String
  | fault f => f.message
  | header f => f.message

/-- A stack of readers: the one on top, and those below it. -/
structure Session where
  top : Reader
  below : List Reader
  deriving DecidableEq

namespace Session

/-- The session of a single reader. -/
def ofReader (r : Reader) : Session := ⟨r, []⟩

variable {ε α : Type}

/-- Lets the reader on top read. -/
def readTop (s : Session) (x : Decode ε α) (refuse : ε → Refusal) (reply : α → Reply) :
    Except Refusal Reply × Session :=
  match s.top.run x with
  | (.ok a, r) => (.ok (reply a), { s with top := r })
  | (.error e, r) => (.error (refuse e), { s with top := r })

/-- Replaces the stack, if there is a new one. -/
def replace (s : Session) : Except Fault Session → Except Refusal Reply × Session
  | .ok s' => (.ok .done, s')
  | .error f => (.error (.fault f), s)

/-- Answers a request. The last reader is never dropped. -/
def answer (s : Session) : Request → Except Refusal Reply × Session
  | .read op => s.readTop op.decode .fault .outcome
  | .header reader => s.readTop (Header.decode reader) .header .header
  | .window => (.ok (.bytes s.top.window), s)
  | .inspect =>
      (.ok (.state s.top.start s.top.stop s.top.position s.top.remaining s.top.isAtEnd), s)
  | .goTo a => s.replace ((s.top.goTo a).map fun r ↦ { s with top := r })
  | .sub start stop => s.replace ((s.top.sub start stop).map fun r ↦ ⟨r, s.top :: s.below⟩)
  | .drop =>
      match s.below with
      | [] => (.ok .done, s)
      | r :: rest => (.ok .done, ⟨r, rest⟩)

/-- The answer to each request of a list, with the address where the reader on top stands then. -/
def run (s : Session) : List Request → List (Except Refusal Reply × Nat)
  | [] => []
  | request :: rest =>
      let (result, s') := s.answer request
      (result, s'.top.position) :: s'.run rest

end Session

end TreePickle
