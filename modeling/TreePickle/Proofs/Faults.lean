import TreePickle.Proofs.FileForm
import TreePickle.Proofs.Outcome

/-!
# What the faults of a file say

A fault speaks of addresses, of lengths and of names. `Pickle.Fault.Truthful` says what has to be so
of a file for that: an address lies in the file, two ends that should be the same differ, a byte
stands where it is said to stand, a name is what it should not be. That a file is only ever refused
with such a fault is `Pickle.truthful_of_decode`. Some faults are not truthful of anything: these
belong to tests that never fail while a file is read.

## Which names have been read

What is said of names is compared with the names in front of the fault, `Pickle.namesRead`. A run
that fails has no table as its result, so the names are defined apart from the run: by the same step
as in the loop over the records, and by the last state that this loop was in. On a file that is
accepted they are the names of the file, `Pickle.namesRead_of_decode`.

## The invariant

`Decode.Honest` says of an action that, anywhere in the file, it comes to a value further on or to a
truthful fault. It is closed under sequences, so each part of a file has one short lemma that
follows its definition. Where an action relies on what was tested before, as a look-up relies on the
test of its reference, the lemma is one on the two together.

From record to record `Pickle.Records` is kept. It says where in the file the cursor is, and that
each record has taken two bytes at least.

## Numbers of names

A reference is refused if it is not below the next number to be given out, and that number counts
the names only as long as there are fewer than `2 ^ 32`. Since a record takes two bytes, there are
fewer names in a file of fewer than `2 ^ 33` bytes, which is what the invariant counts for.
-/

namespace TreePickle

/-! ## Truthful faults -/

/-- What is said of a name is so of the names `t`. -/
def NameTable.Fault.Truthful (t : NameTable) : NameTable.Fault → Prop
  | notSimple r found => t.entries[r.index]? = some (.qualified found)
  | noEntry _ _ => False

/-- What is said of a header is so of the file. -/
def Header.Fault.Truthful (reader : Version) (bytes : List UInt8) : Header.Fault → Prop
  | decode fault => fault.Within 0 bytes.length
  | invalidMagic found => found = bytes.take magic.length ∧ found ≠ magic
  | incompatibleVersion file reader' => reader' = reader ∧ reader.accepts file = false

/-- What the fault says is so of the file, of which the names `t` have been read. -/
def Pickle.Fault.Truthful (reader : Version) (bytes : List UInt8) (t : NameTable) :
    Pickle.Fault → Prop
  | header fault => fault.Truthful reader bytes
  | decode fault => fault.Within 0 bytes.length
  | framing (.record tag start) expected actual =>
      bytes[start]? = some tag.toByte ∧ expected ≠ actual
  | framing .nameSection _ _ => False
  | unsupportedTag b a => bytes[a]? = some b ∧ NameTag.ofByte? b = none
  | danglingRef r a known =>
      a ≤ bytes.length ∧ known = t.size ∧ (bytes.length < 2 ^ 33 → known ≤ r.index)
  | name fault => fault.Truthful t
  | sectionOutOfBounds _ stop limit => limit = bytes.length ∧ limit < stop
  | invalidSection _ _ => False

/-! ## Look-ups -/

namespace NameTable

variable {t : NameTable} {r : NameRef}

/-- There is an entry for each number below the next one. -/
theorem exists_lookup (h : r.index < t.nextRef.index) :
    ∃ n, t.lookup r = .ok n ∧ t.entries[r.index]? = some n := by
  have hsize : r.index < t.entries.size := h.trans_le t.nextRef_index_le
  have hentry : t.entries[r.index]? = some t.entries[r.index] := Array.getElem?_eq_getElem hsize
  exact ⟨t.entries[r.index], lookup_eq_ok_iff.mpr hentry, hentry⟩

theorem truthful_of_lookup (h : r.index < t.nextRef.index) {e : Fault}
    (he : t.lookup r = .error e) : e.Truthful t := by
  obtain ⟨n, hn, -⟩ := exists_lookup h
  rw [hn] at he
  cases he

theorem truthful_of_lookupSimple (h : r.index < t.nextRef.index) {e : Fault}
    (he : t.lookupSimple r = .error e) : e.Truthful t := by
  obtain ⟨n, hn, hentry⟩ := exists_lookup h
  rw [lookupSimple, hn] at he
  cases n with
  | simple _ => cases he
  | qualified path =>
    cases he
    exact hentry

theorem truthful_of_lookupQualified (h : r.index < t.nextRef.index) {e : Fault}
    (he : t.lookupQualified r = .error e) : e.Truthful t := by
  obtain ⟨n, hn, -⟩ := exists_lookup h
  rw [lookupQualified, hn] at he
  cases he

end NameTable

/-! ## Places in a file -/

namespace Cursor.Reaches

variable {bytes : List UInt8} {c : Cursor}

theorem stop_eq_length (h : Reaches ⟨0, bytes⟩ c) : c.stop = bytes.length :=
  h.stop_eq.trans (Nat.zero_add _)

theorem position_le_length (h : Reaches ⟨0, bytes⟩ c) : c.position ≤ bytes.length :=
  h.stop_eq_length ▸ c.position_le_stop

/-- The cursor sees the bytes of the file from its address on. -/
theorem ahead_eq_drop (h : Reaches ⟨0, bytes⟩ c) : c.ahead = bytes.drop c.position := by
  obtain ⟨bs, rfl, hp⟩ := h
  rw [hp, Nat.zero_add, List.drop_left]

end Cursor.Reaches

/-! ## Actions with truthful faults -/

namespace Decode

variable {ε α β : Type} {bytes : List UInt8}

/-- Anywhere in the file, `x` comes to a value further on, or to a fault with `T`. -/
def Honest (bytes : List UInt8) (T : ε → Prop) (x : Decode ε α) : Prop :=
  Ensures (Cursor.Reaches ⟨0, bytes⟩) x (fun _ ↦ Cursor.Reaches ⟨0, bytes⟩) fun e _ ↦ T e

namespace Honest

variable {T : ε → Prop}

theorem pure (v : α) : Honest bytes T (pure v) := Ensures.pure fun _ hc ↦ hc

theorem bind_pure {x : Decode ε α} (h : Honest bytes T x) (f : α → β) :
    Honest bytes T (do return f (← x)) := Ensures.bind_pure h fun _ _ hc ↦ hc

/-- A fault of reading forward is at an address of the file. -/
theorem of_forward {x : Decode Fault α} (h : Forward x) {g : Fault → ε}
    (hg : ∀ e, e.Within 0 bytes.length → T (g e)) : Honest bytes T (mapError g x) := by
  refine Ensures.mapError ((h ⟨0, bytes⟩).imp (fun _ hc ↦ hc) (fun _ _ hc ↦ hc) fun e c he ↦ ?_)
  have hstop : Cursor.stop ⟨0, bytes⟩ = bytes.length := Nat.zero_add _
  exact hg e (hstop ▸ he.2)

end Honest

end Decode

/-! ## Headers -/

section

open Decode

theorem Header.ensures_decode (reader : Version) (bytes : List UInt8) :
    Ensures (· = ⟨0, bytes⟩) (Header.decode reader) (fun _ ↦ Cursor.Reaches ⟨0, bytes⟩)
      fun e _ ↦ e.Truthful reader bytes := by
  have hpart {α : Type} {x : Decode TreePickle.Fault α} (h : Forward x) :
      Honest bytes (Fault.Truthful reader bytes) (mapError Fault.decode x) :=
    .of_forward h fun _ he ↦ he
  have hfound : Ensures (· = ⟨0, bytes⟩) (mapError Fault.decode (Decode.bytes magic.length))
      (fun found c ↦ Cursor.Reaches ⟨0, bytes⟩ c ∧ found = bytes.take magic.length)
      fun e _ ↦ e.Truthful reader bytes := by
    refine ((hpart (.bytes magic.length)).pre ?_).and_ok ?_
    · rintro _ rfl
      exact .refl _
    · rintro _ c' found rfl hx
      obtain ⟨bs, ⟨rfl, hlen⟩, ha, -⟩ :=
        (Reads.bytes magic.length _ _ _ rfl).mp (mapError_eq_ok_iff.mp hx)
      exact ((congrArg _ ha).trans (List.take_left' hlen)).symm
  have hversion : Forward Decode.version := Forward.nat.bind fun major ↦
    Forward.nat.bind fun minor ↦ Forward.nat.bind_pure (Version.mk major minor)
  refine hfound.bind fun found ↦ .guard (fun hne c hc ↦ ⟨hc.2, hne⟩) fun _ ↦ .assume fun _ ↦ ?_
  refine (hpart hversion).bind fun v ↦ .guard (fun hv c hc ↦ ⟨rfl, by simpa using hv⟩) fun _ ↦ ?_
  exact (hpart (Forward.length.bind .text)).bind fun tooling ↦
    (hpart .uuid).bind_pure (Header.mk v tooling)

end

namespace Pickle

open Decode

variable {α : Type} {reader : Version} {bytes : List UInt8} {t : NameTable}

/-! ## Bytes and lengths -/

theorem honest_lift {x : Decode TreePickle.Fault α} (h : Forward x) :
    Honest bytes (Fault.Truthful reader bytes t) (lift x) := .of_forward h fun _ he ↦ he

/-- A byte that was read is the byte at its address. -/
theorem ensures_byte (a : Nat) :
    Ensures (fun c ↦ Cursor.Reaches ⟨0, bytes⟩ c ∧ c.position = a) (lift byte)
      (fun b c ↦ Cursor.Reaches ⟨0, bytes⟩ c ∧ bytes[a]? = some b)
      fun e _ ↦ e.Truthful reader bytes t := by
  refine ((honest_lift .byte).pre fun _ hc ↦ hc.1).and_ok fun c b c' hc hx ↦ ?_
  obtain ⟨bs, rfl, ha, -⟩ := (reads_lift .byte _ _ _ rfl).mp hx
  rw [hc.1.ahead_eq_drop, hc.2] at ha
  have hb : (bytes.drop a)[0]? = some b := by
    rw [ha, List.singleton_append, List.getElem?_cons_zero]
  rwa [List.getElem?_drop] at hb

theorem ensures_frameEnd : Ensures (Cursor.Reaches ⟨0, bytes⟩) (lift frameEnd)
    (fun stop c ↦ Cursor.Reaches ⟨0, bytes⟩ c ∧ c.position ≤ stop)
    fun e _ ↦ e.Truthful reader bytes t := by
  refine (honest_lift .frameEnd).and_ok fun c stop c' _ hx ↦ ?_
  obtain ⟨bs, ⟨n, -, hstop, -⟩, -, hp⟩ := (reads_lift .frameEnd _ _ _ rfl).mp hx
  omega

theorem ensures_advanceTo {stop : Nat} (h : stop ≤ bytes.length) :
    Ensures (fun c ↦ Cursor.Reaches ⟨0, bytes⟩ c ∧ c.position ≤ stop) (lift (advanceTo stop))
      (fun _ ↦ Cursor.Reaches ⟨0, bytes⟩) fun e _ ↦ e.Truthful reader bytes t := by
  rintro c ⟨hc, hle⟩
  have hlen : stop - c.position ≤ c.ahead.length := by
    have hstop := hc.stop_eq_length
    rw [Cursor.stop] at hstop
    omega
  rw [lift, Decode.mapError, advanceTo, if_pos ⟨hle, Cursor.hasAtLeast_eq_true_iff.mpr hlen⟩]
  exact hc.trans (Cursor.reaches_drop hlen)

/-! ## References -/

theorem honest_liftName {x : Except NameTable.Fault α} (h : ∀ e, x = .error e → e.Truthful t) :
    Honest bytes (Fault.Truthful reader bytes t) (liftName x) := by
  cases x with
  | ok v => exact .pure v
  | error e => exact Ensures.throw fun _ _ ↦ h e rfl

section

variable (ht : 2 * t.size ≤ bytes.length)

include ht

/-- What comes behind the test of a reference may rely on an entry for it. -/
theorem honest_checkRef_bind {a : Nat} (ha : a ≤ bytes.length) {r : NameRef}
    {f : Unit → Decode Fault α}
    (h : r.index < t.nextRef.index → Honest bytes (Fault.Truthful reader bytes t) (f ())) :
    Honest bytes (Fault.Truthful reader bytes t) (checkRef t a r >>= f) := by
  rw [checkRef]
  by_cases hlt : r.number < t.nextRef.number
  · rw [if_pos hlt]
    exact h (UInt32.lt_iff_toNat_lt.mp hlt)
  · rw [if_neg hlt]
    have hknown : bytes.length < 2 ^ 33 → t.size ≤ r.index := by
      intro hlen
      rw [← NameTable.nextRef_index_eq (by omega)]
      exact Nat.not_lt.mp (mt UInt32.lt_iff_toNat_lt.mpr hlt)
    exact fun _ _ ↦ ⟨ha, rfl, hknown⟩

theorem honest_nameRef_bind {f : NameRef → Decode Fault α}
    (h : ∀ r, r.index < t.nextRef.index → Honest bytes (Fault.Truthful reader bytes t) (f r)) :
    Honest bytes (Fault.Truthful reader bytes t) (nameRef t >>= f) := by
  simp only [nameRef, bind_assoc, pure_bind]
  refine Ensures.position_bind fun c hc ↦ Ensures.bind (honest_lift .nat) fun n ↦ ?_
  exact honest_checkRef_bind ht hc.position_le_length (h ⟨n⟩)

theorem honest_simpleName : Honest bytes (Fault.Truthful reader bytes t) (simpleName t) :=
  honest_nameRef_bind ht fun _ hr ↦ honest_liftName fun _ ↦ NameTable.truthful_of_lookupSimple hr

theorem honest_qualifiedName : Honest bytes (Fault.Truthful reader bytes t) (qualifiedName t) :=
  honest_nameRef_bind ht fun _ hr ↦ honest_liftName fun _ ↦ NameTable.truthful_of_lookupQualified hr

theorem honest_paramSig : Honest bytes (Fault.Truthful reader bytes t) (paramSig t) := by
  refine Ensures.position_bind fun c hc ↦ Ensures.bind (honest_lift .int) fun v ↦ .ite ?_ ?_
  · exact fun _ ↦ Honest.pure _
  · refine fun _ ↦ honest_checkRef_bind ht hc.position_le_length fun hr ↦ ?_
    exact (honest_liftName fun _ ↦ NameTable.truthful_of_lookupQualified hr).bind_pure _

/-! ## Records -/

theorem honest_signedName (stop : Nat) (hasTarget : Bool) :
    Honest bytes (Fault.Truthful reader bytes t) (signedName t stop hasTarget) := by
  refine (honest_simpleName ht).bind fun u ↦ ?_
  have hrest (target : SimpleName) : Honest bytes (Fault.Truthful reader bytes t) (do
      let result ← qualifiedName t
      let params ← itemsUntil stop (paramSig t)
      let signature := Signature.ofParams params (result.mapLast SimpleName.toTypeName)
      return SimpleName.signed u signature target) :=
    (honest_qualifiedName ht).bind fun _ ↦
      (honest_paramSig ht).itemsUntil.bind_pure fun _ _ hc ↦ hc
  exact .ite (fun _ ↦ (honest_simpleName ht).bind hrest) fun _ ↦ hrest u

theorem honest_payload (stop : Nat) (tag : NameTag) :
    Honest bytes (Fault.Truthful reader bytes t) (payload t stop tag) := by
  have hname := @honest_simpleName reader bytes t ht
  have hpath := @honest_qualifiedName reader bytes t ht
  cases tag with
  | utf8 => exact Ensures.position_bind fun _ _ ↦ (honest_lift (.text _)).bind_pure _
  | qualified => exact hpath.bind fun _ ↦ hname.bind_pure _
  | expanded | expandPrefix => exact hname.bind fun _ ↦ hname.bind_pure _
  | unique =>
    exact hname.bind fun _ ↦ (honest_lift .longNat).bind fun _ ↦
      hname.itemsUntil.bind_pure fun _ _ hc ↦ hc
  | defaultGetter => exact hname.bind fun _ ↦ (honest_lift .longNat).bind_pure _
  | superAccessor | inlineAccessor | bodyRetainer => exact hname.bind_pure _
  | objectClass =>
    refine honest_nameRef_bind ht fun r hr ↦
      (honest_liftName fun _ ↦ NameTable.truthful_of_lookup hr).bind fun n ↦ ?_
    cases n with
    | simple n => exact Honest.pure _
    | qualified path => exact Honest.pure _
  | targetSigned => exact (honest_signedName ht stop true).bind_pure _
  | signed => exact (honest_signedName ht stop false).bind_pure _

theorem honest_nameRecord (limit : Nat) :
    Honest bytes (Fault.Truthful reader bytes t) (nameRecord limit t) := by
  refine Ensures.position_bind_eq fun start ↦ (ensures_byte start).bind fun b ↦ ?_
  cases htag : NameTag.ofByte? b with
  | none => exact Ensures.throw fun c hc ↦ ⟨hc.2, htag⟩
  | some tag =>
    obtain rfl := NameTag.ofByte?_eq_some_iff.mp htag
    -- an end is never announced in front of the payload, so a refused one is not the limit
    refine .assume fun hbyte ↦ ensures_frameEnd.bind fun stop ↦ .position_bind fun c hc ↦
      .guard (fun h _ _ ↦ ⟨hbyte, by omega⟩) fun _ ↦ .pre ?_ fun _ hc ↦ hc.1
    exact (honest_payload ht stop tag).bind fun n ↦ .position_bind fun _ _ ↦
      .guard (fun h _ _ ↦ ⟨hbyte, h.symm⟩) fun _ ↦ Honest.pure n

/-! ## Sections -/

theorem honest_nextSection :
    Honest bytes (Fault.Truthful reader bytes t) (nextSection bytes.length t) := by
  refine honest_nameRef_bind ht fun r hr ↦
    (honest_liftName fun _ ↦ NameTable.truthful_of_lookup hr).bind fun n ↦
      ensures_frameEnd.bind fun stop ↦ .position_bind fun c hc ↦ .guard ?_ fun hbounds ↦ ?_
  · exact fun h _ _ ↦ ⟨rfl, by omega⟩
  · exact (ensures_advanceTo (by omega)).bind_pure fun _ _ hc ↦ hc

theorem honest_sectionList : Honest bytes (Fault.Truthful reader bytes t) (sectionList t) := by
  refine Ensures.stop_bind fun c hc ↦ ?_
  rw [hc.stop_eq_length]
  exact (honest_nextSection ht).itemsUntil

end

/-! ## The names of a file -/

/-- Reads a record into the table of the names before it. -/
def addRecord (stop : Nat) (t : NameTable) : Decode Fault NameTable :=
  return t.add (← nameRecord stop t)

/-- The names read from a name section that begins at a cursor: all of them, or those in front of
the first record that cannot be read. -/
def namesAt (c : Cursor) : NameTable :=
  match frameEnd c with
  | .error _ _ => .empty
  | .ok stop c' => if c.stop < stop then .empty else lastState stop (addRecord stop) .empty c'

/-- The names read from a file, whether or not all of it can be read. -/
def namesRead (reader : Version) (bytes : List UInt8) : NameTable :=
  match Header.decode reader ⟨0, bytes⟩ with
  | .error _ _ => .empty
  | .ok _ c => namesAt c

/-- What is kept from record to record up to the address `stop`. -/
structure Records (bytes : List UInt8) (stop : Nat) (t : NameTable) (c : Cursor) : Prop where
  reaches : Cursor.Reaches ⟨0, bytes⟩ c
  position_le : c.position ≤ stop
  /-- Each record has taken two bytes. -/
  two_mul_size_le : 2 * t.size ≤ c.position

theorem ensures_addRecord (stop : Nat) (t : NameTable) :
    Ensures (fun c ↦ Records bytes stop t c ∧ c.position < stop) (addRecord stop t)
      (Records bytes stop) fun e _ ↦ e.Truthful reader bytes t := by
  refine Ensures.bind_pure (.of_cases ?_ ?_) fun _ _ h ↦ h
  · rintro c n c' ⟨hc, -⟩ hx
    obtain ⟨bs, ⟨⟨r, hr, -⟩, hlast, -⟩, ha, hp⟩ := (reads_nameRecord stop _ _ _ rfl).mp hx
    have htwo := Record.two_le_length hr
    have hsize := hc.two_mul_size_le
    refine ⟨hc.reaches.trans ⟨bs, ha, hp⟩, hp ▸ hlast, ?_⟩
    rw [NameTable.size_add]
    omega
  · rintro c e c' ⟨hc, -⟩ hx
    have hsize := hc.two_mul_size_le.trans hc.reaches.position_le_length
    exact (honest_nameRecord hsize stop).error hc.reaches hx

/-- Records are read up to `stop` exactly, since none of them may end behind it. -/
theorem ensures_records {stop : Nat} {c₀ : Cursor} (h : Records bytes stop .empty c₀) :
    Ensures (· = c₀) (iterateUntil stop (addRecord stop) .empty)
      (fun t c ↦ t = lastState stop (addRecord stop) .empty c₀ ∧ Records bytes stop t c ∧
        c.position = stop)
      fun e _ ↦ e.Truthful reader bytes (lastState stop (addRecord stop) .empty c₀) := by
  have hloop := Ensures.iterateUntil_lastState (@ensures_addRecord reader bytes stop) .empty c₀ h
  have hstop {c c' : Cursor} {t : NameTable}
      (hx : iterateUntil stop (addRecord stop) .empty c = .ok t c') : stop ≤ c'.position := by
    obtain ⟨bs, hrounds, -, hp⟩ := (Reads.iterateUntil (fun _ t ↦
      (reads_nameRecord stop).bind_pure t.add) not_entrySpells_nil .empty _ _ _ rfl).mp hx
    exact hp ▸ hrounds.stop_le
  refine .of_cases (fun c t c' hc hx ↦ ?_) fun c e c' hc hx ↦ hloop.error hc hx
  obtain ⟨ht, hrecords⟩ := hloop.ok hc hx
  exact ⟨ht, hrecords, Nat.le_antisymm hrecords.position_le (hstop hx)⟩

theorem ensures_nameSection {c₁ : Cursor} (h₁ : Cursor.Reaches ⟨0, bytes⟩ c₁) :
    Ensures (· = c₁) nameSection
      (fun t c ↦ t = namesAt c₁ ∧ Cursor.Reaches ⟨0, bytes⟩ c ∧ 2 * t.size ≤ bytes.length)
      fun e _ ↦ e.Truthful reader bytes (namesAt c₁) := by
  -- the frame is kept as an equation, because the names read are defined by it
  have hframe : Ensures (· = c₁) (lift frameEnd)
      (fun stop c ↦ (Cursor.Reaches ⟨0, bytes⟩ c ∧ c.position ≤ stop) ∧
        c₁.position ≤ c.position ∧ frameEnd c₁ = .ok stop c)
      fun e _ ↦ e.Truthful reader bytes (namesAt c₁) := by
    refine (ensures_frameEnd.pre ?_).and_ok ?_
    · rintro _ rfl
      exact h₁
    · rintro _ stop c rfl hx
      rw [lift, mapError_eq_ok_iff] at hx
      exact ⟨(Forward.frameEnd.reaches hx).position_le, hx⟩
  refine .position_bind fun c hc ↦ hframe.bind fun stop ↦ .stop_bind fun c₂ h₂ ↦ ?_
  subst hc
  obtain ⟨⟨hreach, hle⟩, hstart, -⟩ := h₂
  rw [hreach.stop_eq_length]
  refine .guard (fun h _ _ ↦ ⟨rfl, by omega⟩) fun hbounds ↦ ?_
  rintro c₂ ⟨⟨hreach, hle⟩, -, hframe⟩
  have hnames : namesAt c = lastState stop (addRecord stop) .empty c₂ := by
    rw [namesAt, hframe, h₁.stop_eq_length]
    exact if_neg (by omega)
  rw [hnames]
  refine (ensures_records ⟨hreach, hle, Nat.zero_le _⟩).bind (fun t ↦ ?_) c₂ rfl
  refine .position_bind fun c hc ↦ .guard (fun h ↦ absurd hc.2.2 h) fun _ ↦ .pure ?_
  rintro c ⟨ht, hc, -⟩
  exact ⟨ht, hc.reaches, hc.two_mul_size_le.trans hc.reaches.position_le_length⟩

/-! ## Files -/

theorem ensures_contents (reader : Version) (bytes : List UInt8) :
    Ensures (· = ⟨0, bytes⟩) (contents reader) (fun v _ ↦ v.2.1 = namesRead reader bytes)
      fun e _ ↦ e.Truthful reader bytes (namesRead reader bytes) := by
  have hheader : Ensures (· = ⟨0, bytes⟩) (mapError .header (Header.decode reader))
      (fun _ c ↦ Cursor.Reaches ⟨0, bytes⟩ c ∧ namesRead reader bytes = namesAt c)
      fun (e : Fault) _ ↦ e.Truthful reader bytes (namesRead reader bytes) := by
    refine .mapError ((Header.ensures_decode reader bytes).and_ok ?_)
    rintro _ header c rfl hx
    rw [namesRead, hx]
  refine hheader.bind fun header c₁ hc₁ ↦ ?_
  obtain ⟨hreach, hnames⟩ := hc₁
  rw [hnames]
  refine (ensures_nameSection hreach).bind (fun t ↦ ?_) c₁ rfl
  intro c₂ hc₂
  obtain ⟨rfl, hreach, hsize⟩ := hc₂
  exact Ensures.bind_pure (honest_sectionList hsize) (fun _ _ _ ↦ rfl) c₂ hreach

/-- **Faults.** What is said of a file that is refused is so. -/
theorem truthful_of_decode {e : Fault} (h : decode reader bytes = .error e) :
    e.Truthful reader bytes (namesRead reader bytes) := by
  obtain ⟨c, hc⟩ := decode_eq_error_iff.mp h
  exact (ensures_contents reader bytes).error rfl hc

/-- A path is no name that could be marked as an accessor. -/
theorem truthful_of_decode_accessor :
    let bytes := magic ++ [156, 131, 128, 128] ++ List.replicate 16 0 ++
      [138, 1, 129, 65, 2, 130, 128, 128, 20, 129, 129]
    let path := QualifiedName.select (.single (.term "A")) (.term "A")
    decode .current bytes = .error (.name (.notSimple ⟨1⟩ path)) ∧
      (namesRead .current bytes).entries[1]? = some (.qualified path) := by
  intro bytes path
  have hcontents : (Reader.ofBytes bytes).eval (contents .current) =
      .error (.name (.notSimple ⟨1⟩ path)) := by decide +kernel
  have hdecode : decode .current bytes = .error (.name (.notSimple ⟨1⟩ path)) := by
    rw [decode, hcontents]
    rfl
  exact ⟨hdecode, truthful_of_decode hdecode⟩

/-- Of a file that is not refused, all names have been read. -/
theorem namesRead_of_decode {p : Pickle} (h : decode reader bytes = .ok p) :
    namesRead reader bytes = p.names := by
  obtain ⟨-, -, c, hc⟩ := decode_eq_ok_iff_contents.mp h
  exact ((ensures_contents reader bytes).ok rfl hc).symm

end Pickle

end TreePickle
