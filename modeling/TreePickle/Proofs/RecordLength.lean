import TreePickle.Proofs.ExactNumber
import TreePickle.Proofs.Outcome
import TreePickle.Proofs.RecordReading

/-!
# Records with a wrong length

The payload of most name records ends where its own parts end, and the length in front of it only
repeats what is known from them. Reading such a payload does not look at the announced end, and not
at what follows either: `Pickle.reads_payload_of_isFixed`. So a wrong length, too large or too
small, never goes unnoticed, and `Pickle.nameRecord_of_length_ne` says which fault tells of it.

The exceptions are a text, which takes as many bytes as are announced, and the lists at the end of
some payloads, which go on up to the announced end.

## Reading without regard to the end

`Decode.ReadsUpTo` describes a payload only where it ends at the announced place. But a payload
without a text or a list is the same action whatever end is announced, so the description holds for
every place where it ends, `Decode.reads_of_forall_readsUpTo`. A payload that is read to its last
byte somewhere is then read so everywhere, at any address and in front of any bytes.

## The faults

A length is given by its bytes, in any spelling and of any size, since the length of a frame is not
known to fit into 64 bits before it is read. There are three faults in the order in which they are
looked for: the announced end is no address, it lies behind the end of the section, or the payload
ends somewhere else. The first one speaks of the address of the length; the others name the record
by its tag and its address, and the two ends that were compared.
-/

namespace TreePickle

/-- Whether the payload of a tag consists of so many references and numbers and of nothing else. -/
def NameTag.isFixed : NameTag → Bool
  | qualified | expanded | expandPrefix | defaultGetter | superAccessor | inlineAccessor
  | bodyRetainer | objectClass => true
  | utf8 | unique | targetSigned | signed => false

namespace Decode

open Base128

/-! ## Lengths that are too large -/

/-- With `bs` read before, the groups of a number that is too large are refused, be it in front of
the last one. -/
private theorem numberFrom_eq_numberOverflow {k : Kind} {start p : Nat} {bs size tail : List UInt8}
    (hsize : Stopped size) (hlarge : k.fits (value k (bs ++ size)) = false) :
    ∃ c, numberFrom k start p (value? k bs) (size ++ tail) = .error (.numberOverflow start) c := by
  induction size generalizing p bs with
  | nil => exact absurd rfl hsize.ne_nil
  | cons b size ih =>
    have hsplit : bs ++ b :: size = bs ++ [b] ++ size := by simp
    rw [hsplit] at hlarge
    rw [List.cons_append, numberFrom, extend_value?]
    cases hfits : k.fits (value k (bs ++ [b])) with
    | false => exact ⟨_, rfl⟩
    | true =>
      cases hlast : isLast b with
      | true =>
        obtain rfl := (stopped_cons_of_isLast hlast).mp hsize
        rw [List.append_nil, hfits] at hlarge
        cases hlarge
      | false =>
        have hnext : some (value k (bs ++ [b])) = value? k (bs ++ [b]) := by simp [value?]
        obtain ⟨c, hc⟩ := @ih (p + 1) _ ((stopped_cons_of_not_isLast hlast).mp hsize) hlarge
        exact ⟨c, hnext ▸ hc⟩

section

variable {a n : Nat} {size tail : List UInt8}

/-- A length is read from any of its spellings, if the end is an address. -/
theorem frameEnd_eq_ok (hsize : Stopped size) (hn : value .unsigned size = n)
    (hlt : a + size.length + n < Address.bound) :
    frameEnd ⟨a, size ++ tail⟩ = .ok (a + size.length + n) ⟨a + size.length, tail⟩ := by
  have hfits : Kind.unsigned.fits n = true := by
    rw [Address.bound, UInt64.size] at hlt
    rw [Kind.fits_unsigned_iff]
    omega
  exact Reads.frameEnd.run ⟨n, ⟨hsize, hn, hfits⟩, rfl, hlt⟩ rfl

theorem frameEnd_eq_numberOverflow (hsize : Stopped size) (hn : value .unsigned size = n)
    (hle : Address.bound ≤ a + size.length + n) :
    ∃ c, frameEnd ⟨a, size ++ tail⟩ = .error (.numberOverflow a) c := by
  cases hfits : Kind.unsigned.fits n with
  | false =>
    rw [← hn] at hfits
    obtain ⟨c, hc⟩ := @numberFrom_eq_numberOverflow _ a a [] size tail hsize hfits
    exact ⟨c, completes_frameEnd.of_error hc⟩
  | true =>
    have hnumber : number .unsigned ⟨a, size ++ tail⟩ = .ok (n : Int) ⟨a + size.length, tail⟩ :=
      (Reads.number .unsigned).run ⟨hsize, hn, hfits⟩ rfl
    exact ⟨_, completes_frameEnd.of_eq_none hnumber (Address.advance?_eq_none_iff.mpr hle)⟩

end

/-- What is read the same way whatever the announced end, is read without regard to it. -/
theorem reads_of_forall_readsUpTo {ε α : Type} {limit : Nat} {x : Decode ε α}
    {T : Nat → α → List UInt8 → Prop} (h : ∀ stop, ReadsUpTo limit stop x T) : Reads limit x T := by
  intro c c' v hc
  -- the end is taken to be where the reading has stopped
  obtain ⟨S, hS, hST⟩ := h c'.position
  rw [hS c c' v hc]
  refine exists_congr fun bs ↦ and_congr_left fun hbs ↦ hST _ v bs hbs.2.symm

end Decode

namespace Pickle

open Base128 Decode

variable {limit stop a n : Nat} {table : NameTable} {tag : NameTag}

/-! ## Payloads without a text or a list -/

theorem payload_eq_of_isFixed (h : tag.isFixed = true) (stop stop' : Nat) :
    payload table stop tag = payload table stop' tag := by
  cases tag with
  | utf8 | unique | targetSigned | signed => cases h
  | _ => rfl

theorem reads_payload_of_isFixed (h : tag.isFixed = true) :
    Reads limit (payload table stop tag) (Payload table.known tag) :=
  reads_of_forall_readsUpTo fun stop' ↦
    payload_eq_of_isFixed h stop stop' ▸ readsUpTo_payload limit stop' table tag

/-- Somewhere, the bytes are read as a payload of this tag to the last one of them. -/
def IsPayload (table : NameTable) (tag : NameTag) (p : List UInt8) : Prop :=
  ∃ stop a name, payload table stop tag ⟨a, p⟩ = .ok name ⟨a + p.length, []⟩

/-- Then they are read so everywhere, whatever follows them. -/
theorem IsPayload.exists_payload_eq_ok {p : List UInt8} (hp : IsPayload table tag p)
    (h : tag.isFixed = true) (stop a : Nat) (rest : List UInt8) :
    ∃ name, payload table stop tag ⟨a, p ++ rest⟩ = .ok name ⟨a + p.length, rest⟩ := by
  obtain ⟨stop', a', name, hname⟩ := hp
  have hspells := (reads_payload_of_isFixed h).all_iff.mp hname
  exact ⟨name, (reads_payload_of_isFixed h).run hspells rfl⟩

/-- The payload of a record whose references are in order is read to its last byte. -/
theorem isPayload_of_denote {r : Record} {name : Name} {p : List UInt8}
    (h : r.tag.isFixed = true) (hp : p ∈ r.payload) (hname : r.denote table.known = some name) :
    IsPayload table r.tag p :=
  ⟨0, 0, name, (reads_payload_of_isFixed h).all_iff.mpr ⟨r, rfl, hp, hname⟩⟩

/-! ## Records -/

theorem nameRecord_cons (tail : List UInt8) :
    nameRecord limit table ⟨a, tag.toByte :: tail⟩ = (do
      let stop ← lift frameEnd
      if stop < (← position) ∨ limit < stop then throw (Fault.framing (.record tag a) limit stop)
      let name ← payload table stop tag
      let reached ← position
      if reached ≠ stop then throw (Fault.framing (.record tag a) stop reached)
      return name) ⟨a + 1, tail⟩ := by
  have hbyte : lift byte ⟨a, tag.toByte :: tail⟩ = .ok tag.toByte ⟨a + 1, tail⟩ := rfl
  rw [nameRecord, bind_apply_position, bind_of_eq_ok hbyte, NameTag.ofByte?_eq_some_iff.mpr rfl]

/-- **A wrong length is a fault** of the length itself, if the announced end is no address; of the
announced end, if it lies behind `limit`; and of the end that is reached instead, otherwise. The
length may be spelled in any way, and nothing depends on what stands behind the payload. -/
theorem nameRecord_of_length_ne {size p : List UInt8} (htag : tag.isFixed = true)
    (hsize : Stopped size) (hn : value .unsigned size = n) (hp : IsPayload table tag p)
    (hne : n ≠ p.length) (rest : List UInt8) :
    let first := a + 1 + size.length
    ∃ c, nameRecord limit table ⟨a, tag.toByte :: (size ++ (p ++ rest))⟩ = .error
      (if Address.bound ≤ first + n then .decode (.numberOverflow (a + 1))
        else if limit < first + n then .framing (.record tag a) limit (first + n)
        else .framing (.record tag a) (first + n) (first + p.length)) c := by
  intro first
  rw [nameRecord_cons]
  by_cases hbound : Address.bound ≤ first + n
  · rw [if_pos hbound]
    obtain ⟨c, hc⟩ : ∃ c, frameEnd ⟨a + 1, size ++ (p ++ rest)⟩ = .error (.numberOverflow _) c :=
      frameEnd_eq_numberOverflow hsize hn hbound
    exact ⟨c, bind_of_eq_error (mapError_eq_error_iff.mpr ⟨_, hc, rfl⟩)⟩
  · rw [if_neg hbound]
    have hframe : lift frameEnd ⟨a + 1, size ++ (p ++ rest)⟩ = .ok (first + n) ⟨first, p ++ rest⟩ :=
      mapError_eq_ok_iff.mpr (frameEnd_eq_ok hsize hn (Nat.lt_of_not_le hbound))
    rw [bind_of_eq_ok hframe, bind_apply_position]
    by_cases hlimit : limit < first + n
    · rw [if_pos hlimit, if_pos (.inr hlimit)]
      exact ⟨_, rfl⟩
    · obtain ⟨name, hname⟩ := hp.exists_payload_eq_ok htag (first + n) first rest
      have hframed : ¬(first + n < first ∨ limit < first + n) := by omega
      have hreached : first + p.length ≠ first + n := by omega
      rw [if_neg hlimit, if_neg hframed]
      dsimp only
      rw [bind_of_eq_ok hname, bind_apply_position, if_pos hreached]
      exact ⟨_, rfl⟩

/-- The record of an accessor, whose payload is one byte, with the lengths 2, 0 and `2 ^ 64 - 1`. -/
theorem nameRecord_of_length_ne_accessor :
    let table : NameTable := ⟨#[.simple (.term "x")]⟩
    let frame := Frame.record .superAccessor 7
    let large := 1 :: (List.replicate 8 127 ++ [255])
    IsPayload table .superAccessor [128] ∧
      (∃ c, nameRecord 100 table ⟨7, [20, 130, 128, 65]⟩ = .error (.framing frame 11 10) c) ∧
      (∃ c, nameRecord 10 table ⟨7, [20, 130, 128, 65]⟩ = .error (.framing frame 10 11) c) ∧
      (∃ c, nameRecord 100 table ⟨7, [20, 128, 128, 65]⟩ = .error (.framing frame 9 10) c) ∧
      ∃ c, nameRecord 100 table ⟨7, 20 :: (large ++ [128, 65])⟩ =
        .error (.decode (.numberOverflow 8)) c := by
  intro table frame large
  have hzero : Stopped [128] := (stopped_cons_of_isLast rfl).mpr rfl
  have htwo : Stopped [130] := (stopped_cons_of_isLast rfl).mpr rfl
  have hlarge : Stopped large := ⟨1 :: List.replicate 8 127, 255, rfl, by simp [isLast], rfl⟩
  have hp : IsPayload table .superAccessor [128] :=
    @isPayload_of_denote table (.superAccessor ⟨0⟩) _ _ rfl ⟨hzero, by decide, by decide⟩ rfl
  have hvalue : value .unsigned [130] = (2 : Nat) ∧ value .unsigned [128] = (0 : Nat) := by decide
  refine ⟨hp, ?_, ?_, ?_, ?_⟩
  · exact nameRecord_of_length_ne rfl htwo hvalue.1 hp (by decide) [65]
  · exact nameRecord_of_length_ne rfl htwo hvalue.1 hp (by decide) [65]
  · exact nameRecord_of_length_ne rfl hzero hvalue.2 hp (by decide) [65]
  · have hn : value .unsigned large = (0xFFFFFFFFFFFFFFFF : Nat) := by decide +kernel
    have hbound : Address.bound ≤ 7 + 1 + large.length + 0xFFFFFFFFFFFFFFFF := by decide
    have h : ∃ c, nameRecord 100 table ⟨7, 20 :: (large ++ [128, 65])⟩ = .error _ c :=
      nameRecord_of_length_ne rfl hlarge hn hp (by decide) [65]
    rwa [if_pos hbound] at h

end Pickle

end TreePickle
