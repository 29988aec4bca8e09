import TreePickle.Proofs.Repetition
import TreePickle.Proofs.Writing
import TreePickle.Reader

/-!
# Values in sequence

Values of the primitive types are written one after the other, and any run of them can be gathered
in a frame, which may hold frames in turn. Nothing but the order of the values says where one ends
and the next begins, so each has to be read back whatever bytes stand next to it.

## Representation

A `Layout` is such a sequence: an item in front of a sequence, or a frame with its contents in front
of a sequence. Its values are what is written; its shapes, the same sequence with everything
forgotten that is not known beforehand, are what directs the reading. Of a block of bytes the count
has to be known, of a text only that it is one. The reading gives the values back and notes at each
frame where it was announced to end and where its contents did end.

## The argument

A layout has a language, the product of those of its parts, with the contents of a frame behind
their length. Writing appends a string of it, `Layout.appends_put`, and from each string of it the
values are read, `Layout.read_of_mem_spelling`. Both are inductions on the layout, with one case for
each constructor; that the contents of a frame end where it was announced is part of the second
one. `Layout.read_put` joins them behind arbitrary bytes and in front of others, and says that
nothing is lost and nothing shifted.

## Frames of numbers

The items of a frame can also be read until its end, with no shape to direct the reading. That gives
the list back because no number is spelled by the empty string, and because the spellings of a list
of numbers tell its items apart.
-/

namespace TreePickle

open Base128 Decode

/-! ## Primitive values -/

/-- A value of a primitive type. -/
inductive Primitive where
  | byte (b : UInt8)
  | nat (n : UInt32)
  | longNat (n : UInt64)
  | int (v : Int32)
  | longInt (v : Int64)
  | bytes (bs : List UInt8)
  /-- A text behind the number of its bytes. -/
  | text (s : String)
  deriving DecidableEq

namespace Primitive

/-- What has to be known about a value in order to read it. -/
inductive Shape where
  | byte
  | nat
  | longNat
  | int
  | longInt
  | bytes (count : Nat)
  | text
  deriving DecidableEq

def shape : Primitive → Shape
  | byte _ => .byte
  | nat _ => .nat
  | longNat _ => .longNat
  | int _ => .int
  | longInt _ => .longInt
  | bytes bs => .bytes bs.length
  | text _ => .text

def put : Primitive → Writer → Writer
  | byte b, w => w.putByte b
  | nat n, w => w.putNat n
  | longNat n, w => w.putLongNat n
  | int v, w => w.putInt v
  | longInt v, w => w.putLongInt v
  | bytes bs, w => w.putBytes bs
  | text s, w => w.putText s

def Shape.read : Shape → Decode Fault Primitive
  | byte => return .byte (← Decode.byte)
  | nat => return .nat (← Decode.nat)
  | longNat => return .longNat (← Decode.longNat)
  | int => return .int (← Decode.int)
  | longInt => return .longInt (← Decode.longInt)
  | bytes count => return .bytes (← Decode.bytes count)
  | text => return .text (← Decode.text (← Decode.length))

/-- The strings that a value is written as. -/
def spelling : Primitive → Language UInt8
  | byte b => {[b]}
  | nat n => natural n.toNat
  | longNat n => natural n.toNat
  | int v => integer v.toInt
  | longInt v => integer v.toInt
  | bytes bs => {bs}
  | text s => framed {Text.utf8 s}

theorem appends_put (p : Primitive) : Writer.Appends p.put p.spelling := by
  cases p with
  | byte b => exact .putByte b
  | nat n => exact .putNat n
  | longNat n => exact .putLongNat n
  | int v => exact .putInt v
  | longInt v => exact .putLongInt v
  | bytes bs => exact .putBytes bs
  | text s => exact .putText s

/-- A value is read from each of its spellings, by its shape alone. -/
theorem read_of_mem_spelling {p : Primitive} {bs : List UInt8} (h : bs ∈ p.spelling) (a : Nat)
    (rest : List UInt8) : p.shape.read ⟨a, bs ++ rest⟩ = .ok p ⟨a + bs.length, rest⟩ := by
  cases p with
  | byte b => exact (Reads.byte.bind_pure byte).run ⟨b, h, rfl⟩ rfl
  | nat n => exact (Reads.nat.bind_pure nat).run ⟨n, h, rfl⟩ rfl
  | longNat n => exact (Reads.longNat.bind_pure longNat).run ⟨n, h, rfl⟩ rfl
  | int v => exact (Reads.int.bind_pure int).run ⟨v, h, rfl⟩ rfl
  | longInt v => exact (Reads.longInt.bind_pure longInt).run ⟨v, h, rfl⟩ rfl
  | bytes cs =>
    obtain rfl : bs = cs := h
    exact ((Reads.bytes bs.length).bind_pure bytes).run ⟨bs, ⟨rfl, rfl⟩, rfl⟩ rfl
  | text s =>
    obtain ⟨_, rfl, size, hsize, rfl⟩ := h
    exact (Reads.length.bind fun n ↦ (Reads.text n).bind_pure text).run
      ⟨_, size, _, hsize, ⟨s, ⟨rfl, rfl⟩, rfl⟩, rfl⟩ rfl

end Primitive

/-! ## Layouts -/

/-- Items in sequence, some of them gathered in frames. Each item is followed by the rest of its
sequence, and each frame by its contents and the rest. -/
inductive Layout (α β : Type) where
  | done
  | item (first : α) (rest : Layout α β)
  | frame (mark : β) (contents rest : Layout α β)
  deriving DecidableEq

/-- Where a frame is announced to end, and where its contents end. -/
structure Extent where
  announced : Nat
  reached : Nat
  deriving DecidableEq

namespace Layout

variable {α α' β β' : Type}

/-- The same sequence of other items and with other marks at the frames. -/
def map (f : α → α') (g : β → β') : Layout α β → Layout α' β'
  | done => done
  | item first rest => item (f first) (rest.map f g)
  | frame mark contents rest => frame (g mark) (contents.map f g) (rest.map f g)

/-- The shapes of the values of a sequence. -/
def shapes (l : Layout Primitive Unit) : Layout Primitive.Shape Unit := l.map Primitive.shape id

/-- A sequence that was read, without the extents of its frames. -/
def values (l : Layout Primitive Extent) : Layout Primitive Unit := l.map id fun _ ↦ ()

/-- Every frame ends where it was announced to end. -/
def Exact : Layout Primitive Extent → Prop
  | done => True
  | item _ rest => rest.Exact
  | frame mark contents rest => mark.reached = mark.announced ∧ contents.Exact ∧ rest.Exact

/-- Writes the values in order. -/
def put : Layout Primitive Unit → Writer → Writer
  | done, w => w
  | item first rest, w => rest.put (first.put w)
  | frame _ contents rest, w => rest.put (w.putFramed contents.put)

/-- Reads values of the given shapes in order. Nothing keeps the contents of a frame inside
of it. -/
def read : Layout Primitive.Shape Unit → Decode Fault (Layout Primitive Extent)
  | done => return done
  | item first rest => return item (← first.read) (← rest.read)
  | frame _ contents rest => do
      let announced ← Decode.frameEnd
      let contents ← contents.read
      let reached ← Decode.position
      return frame ⟨announced, reached⟩ contents (← rest.read)

/-- The strings that a sequence is written as. -/
def spelling : Layout Primitive Unit → Language UInt8
  | done => 1
  | item first rest => first.spelling * rest.spelling
  | frame _ contents rest => framed contents.spelling * rest.spelling

theorem appends_put (l : Layout Primitive Unit) : Writer.Appends l.put l.spelling := by
  induction l with
  | done => exact .id
  | item first rest ih => exact ih.comp first.appends_put
  | frame _ contents rest ihc ih => exact ih.comp (.putFramed ihc)

/-- A sequence is read from each of its spellings. -/
theorem read_of_mem_spelling {l : Layout Primitive Unit} {bs : List UInt8} (h : bs ∈ l.spelling)
    (a : Nat) (rest : List UInt8) (hlt : a + bs.length < Address.bound) :
    ∃ r, l.shapes.read ⟨a, bs ++ rest⟩ = .ok r ⟨a + bs.length, rest⟩ ∧ r.values = l ∧
      r.Exact := by
  -- what follows is left open, because the contents of a frame are followed by its rest
  induction l generalizing bs a rest with
  | done =>
    obtain rfl : bs = [] := h
    exact ⟨done, rfl, rfl, trivial⟩
  | item first l ih =>
    obtain ⟨bs, hbs, cs, hcs, rfl⟩ := Language.mem_mul.mp h
    rw [List.length_append, ← Nat.add_assoc] at hlt
    obtain ⟨r, hr, hv, hx⟩ := ih hcs (a + bs.length) rest hlt
    refine ⟨item first r, ?_, congrArg (item first) hv, hx⟩
    have hfirst := Primitive.read_of_mem_spelling hbs a (cs ++ rest)
    rw [List.append_assoc, List.length_append, ← Nat.add_assoc]
    exact bind_eq_ok_iff.mpr ⟨first, _, hfirst, bind_eq_ok_iff.mpr ⟨r, _, hr, rfl⟩⟩
  | frame _ contents l ihc ih =>
    obtain ⟨_, ⟨bs, hbs, size, hsize, rfl⟩, cs, hcs, rfl⟩ := Language.mem_mul.mp h
    rw [List.length_append, List.length_append, ← Nat.add_assoc, ← Nat.add_assoc] at hlt
    obtain ⟨rc, hrc, hvc, hxc⟩ := ihc hbs (a + size.length) (cs ++ rest) (by omega)
    obtain ⟨r, hr, hv, hx⟩ := ih hcs (a + size.length + bs.length) rest hlt
    -- the end is announced behind the length, as far away as the contents will reach
    have hend : frameEnd ⟨a, size ++ (bs ++ (cs ++ rest))⟩ =
        .ok (a + size.length + bs.length) ⟨a + size.length, bs ++ (cs ++ rest)⟩ :=
      Reads.frameEnd.run ⟨bs.length, hsize, rfl, by omega⟩ rfl
    refine ⟨frame ⟨a + size.length + bs.length, a + size.length + bs.length⟩ rc r, ?_,
      congrArg₂ (frame ()) hvc hv, rfl, hxc, hx⟩
    rw [List.append_assoc, List.append_assoc, List.length_append, List.length_append,
      ← Nat.add_assoc, ← Nat.add_assoc]
    exact bind_eq_ok_iff.mpr ⟨_, _, hend, bind_eq_ok_iff.mpr ⟨rc, _, hrc,
      bind_eq_ok_iff.mpr ⟨_, _, rfl, bind_eq_ok_iff.mpr ⟨r, _, hr, rfl⟩⟩⟩⟩

end Layout

/-! ## Frames of numbers -/

/-- The end of a frame, and the items in it. -/
def Decode.frameOf {α : Type} (item : Decode Fault α) : Decode Fault (Nat × List α) := do
  let stop ← frameEnd
  return (stop, ← itemsUntil stop item)

theorem Decode.frameOf_of_mem {α : Type} {item : Decode Fault α} {L : α → Language UInt8}
    (h : ∀ limit, Reads limit item fun _ v bs ↦ bs ∈ L v) (hL : ∀ v, [] ∉ L v) {vs : List α}
    {bs : List UInt8} (hbs : bs ∈ framed (vs.map L).prod) (a : Nat) (rest : List UInt8)
    (hlt : a + bs.length < Address.bound) :
    frameOf item ⟨a, bs ++ rest⟩ = .ok (a + bs.length, vs) ⟨a + bs.length, rest⟩ := by
  obtain ⟨payload, hp, size, hsize, rfl⟩ := hbs
  rw [List.length_append, ← Nat.add_assoc] at hlt ⊢
  have hitem (limit : Nat) : Reads limit item (Denoted L some) :=
    (h limit).congr fun _ v bs _ ↦ by simp [Denoted]
  have hne (a : Nat) (v : α) : ¬Denoted L some a v [] := fun ⟨v, hv, _⟩ ↦ hL v hv
  have hitems : Items (a + size.length + payload.length) (Denoted L some) (a + size.length) vs
      payload := by
    refine (items_denoted_iff hL rfl).mpr ⟨vs, hp, ?_⟩
    simpa using List.mapM_pure (m := Option) (l := vs) (f := id)
  rw [List.append_assoc]
  refine bind_eq_ok_iff.mpr ⟨_, _, Reads.frameEnd.run ⟨payload.length, hsize, rfl, hlt⟩ rfl, ?_⟩
  exact ((Reads.itemsUntil hitem hne).bind_pure _).run ⟨vs, hitems, rfl⟩ rfl

/-! ## Between other bytes -/

/-- What stands in a file behind some bytes and in front of others is read from its address. -/
theorem Reader.run_of_goTo {ε α : Type} {x : Decode ε α} {v : α} {before bs after : List UInt8}
    (h : x ⟨before.length, bs ++ after⟩ = .ok v ⟨before.length + bs.length, after⟩) :
    ∃ r, (ofBytes (before ++ bs ++ after)).goTo before.length = .ok r ∧
      r.run x = (.ok v, { r with cursor := ⟨before.length + bs.length, after⟩ }) := by
  have hcheck : (ofBytes (before ++ bs ++ after)).check before.length = .ok () := by
    rw [check, if_pos]
    simp [ofBytes, stop]
  refine ⟨{ ofBytes (before ++ bs ++ after) with cursor := ⟨before.length, bs ++ after⟩ }, ?_, ?_⟩
  · rw [goTo, hcheck]
    simp [ofBytes]
  · rw [run]
    simp only [h]

/-- An operation that is carried out behind some bytes appends a string of its language to them. -/
theorem Writer.Appends.exists_mem {put : Writer → Writer} {L : Language UInt8}
    (h : Appends put L) {before after : List UInt8}
    (hlt : ((put (empty.putBytes before)).putBytes after).size < Address.bound) :
    ∃ bs ∈ L, (put (empty.putBytes before)).bytes = before ++ bs := by
  obtain ⟨bs, hbs, hL⟩ := h (empty.putBytes before)
  rw [bytes_putBytes, bytes_empty, List.nil_append] at hbs
  refine ⟨bs, hL ?_, hbs⟩
  rw [← length_bytes, bytes_putBytes, hbs, List.length_append, List.length_append] at hlt
  omega

/-- A list that is written in a frame, item by item, is read back until the end of the frame. -/
def FramesReadBack {α β : Type} (put : Writer → α → Writer) (item : Decode Fault β)
    (f : α → β) : Prop :=
  ∀ (vs : List α) (before after : List UInt8),
    let w := (Writer.empty.putBytes before).putFramed fun w ↦ vs.foldl put w
    (w.putBytes after).size < Address.bound →
    ∃ r, (Reader.ofBytes (w.putBytes after).bytes).goTo before.length = .ok r ∧
      r.run (frameOf item) = (.ok (w.size, vs.map f), { r with cursor := ⟨w.size, after⟩ })

theorem framesReadBack {α β : Type} {put : Writer → α → Writer} {item : Decode Fault β}
    {f : α → β} {L : β → Language UInt8} (hput : ∀ v, Writer.Appends (put · v) (L (f v)))
    (h : ∀ limit, Reads limit item fun _ v bs ↦ bs ∈ L v) (hL : ∀ v, [] ∉ L v) :
    FramesReadBack put item f := by
  intro vs before after w hlt
  obtain ⟨bs, hbs, hw⟩ := Writer.Appends.exists_mem (.putFramed (.foldl fun v _ ↦ hput v)) hlt
  have hsize : w.size = before.length + bs.length := by
    rw [← Writer.length_bytes, hw, List.length_append]
  rw [← Writer.length_bytes, Writer.bytes_putBytes, List.length_append, Writer.length_bytes,
    hsize] at hlt
  rw [Writer.bytes_putBytes, hw, hsize]
  have hmap : vs.map (fun v ↦ L (f v)) = (vs.map f).map L := by simp
  rw [hmap] at hbs
  exact Reader.run_of_goTo (frameOf_of_mem h hL hbs before.length after (by omega))

/-- **Values written between arbitrary bytes are read back.** -/
theorem Layout.read_put :
    (∀ (l : Layout Primitive Unit) (before after : List UInt8),
      let w := l.put (Writer.empty.putBytes before)
      (w.putBytes after).size < Address.bound →
      ∃ r res, (Reader.ofBytes (w.putBytes after).bytes).goTo before.length = .ok r ∧
        r.run l.shapes.read = (.ok res, { r with cursor := ⟨w.size, after⟩ }) ∧
        res.values = l ∧ res.Exact) ∧
    FramesReadBack Writer.putLongInt longInt id ∧ FramesReadBack Writer.putInt int id ∧
    FramesReadBack Writer.putLongNat longNat id ∧ FramesReadBack Writer.putNat nat id ∧
    FramesReadBack Writer.putLongNat length UInt64.toNat := by
  refine ⟨?_, ?_, ?_, ?_, ?_, ?_⟩
  · intro l before after w hlt
    obtain ⟨bs, hbs, hw⟩ := Writer.Appends.exists_mem l.appends_put hlt
    have hsize : w.size = before.length + bs.length := by
      rw [← Writer.length_bytes, hw, List.length_append]
    rw [← Writer.length_bytes, Writer.bytes_putBytes, List.length_append, Writer.length_bytes,
      hsize] at hlt
    rw [Writer.bytes_putBytes, hw, hsize]
    obtain ⟨res, hres, hv, hx⟩ := read_of_mem_spelling hbs before.length after (by omega)
    obtain ⟨r, hr, hrun⟩ := Reader.run_of_goTo hres
    exact ⟨r, res, hr, hrun, hv, hx⟩
  · exact framesReadBack (L := fun v ↦ integer v.toInt) .putLongInt (fun _ ↦ .longInt)
      fun _ ↦ nil_notMem_numeral _ _
  · exact framesReadBack (L := fun v ↦ integer v.toInt) .putInt (fun _ ↦ .int)
      fun _ ↦ nil_notMem_numeral _ _
  · exact framesReadBack (L := fun n ↦ natural n.toNat) .putLongNat (fun _ ↦ .longNat)
      fun _ ↦ nil_notMem_numeral _ _
  · exact framesReadBack (L := fun n ↦ natural n.toNat) .putNat (fun _ ↦ .nat)
      fun _ ↦ nil_notMem_numeral _ _
  · exact framesReadBack (L := natural) .putLongNat (fun _ ↦ .length)
      fun _ ↦ nil_notMem_numeral _ _

/-- Frames in frames, and a frame of numbers on the borders of their groups. -/
theorem Layout.read_put_nested :
    let l : Layout Primitive Unit := .frame () (.item (.longInt (-65))
      (.frame () (.item (.text "é") .done) .done)) (.item (.byte 7) .done)
    let w := l.put (Writer.empty.putBytes [1, 2])
    let w' := (Writer.empty.putBytes [3]).putFramed fun w ↦ [-64, 63, 64].foldl Writer.putLongInt w
    w.bytes = [1, 2, 134, 127, 191, 131, 130, 195, 169, 7] ∧
      w'.bytes = [3, 132, 192, 191, 0, 192] ∧
      (∃ r res, (Reader.ofBytes (w.putBytes [255]).bytes).goTo 2 = .ok r ∧
        r.run l.shapes.read = (.ok res, { r with cursor := ⟨w.size, [255]⟩ }) ∧ res.values = l ∧
        res.Exact) ∧
      ∃ r, (Reader.ofBytes (w'.putBytes []).bytes).goTo 1 = .ok r ∧
        r.run (frameOf longInt) =
          (.ok (w'.size, [-64, 63, 64]), { r with cursor := ⟨w'.size, []⟩ }) := by
  refine ⟨by decide +kernel, by decide +kernel, ?_, ?_⟩
  · exact Layout.read_put.1 _ [1, 2] [255] (by decide +kernel)
  · exact Layout.read_put.2.1 [-64, 63, 64] [3] [] (by decide +kernel)

end TreePickle
