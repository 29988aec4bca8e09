import Mathlib.Computability.Language
import TreePickle.Cursor.Basic
import TreePickle.Reader

/-!
# What a reading action accepts

An action that only reads forward is described by a relation between addresses, values and bytes:
`Decode.Reads limit x spells` says that `x` gives `v` at the address `a` exactly if some bytes `bs`
with `spells a v bs` stand in front of the cursor, and that it then stops behind them. Both
directions are in one statement: nothing else is accepted, and all of it is.

## Sequencing

The statement is closed under the operations that actions are made of. `Reads.bind` puts the bytes
of two actions one behind the other, each at the address where it stands; asking for an address,
a test, a change of errors and a check of the place reached have a rule each. So what a composite
action accepts is read off its text, and `Reads.congr` exchanges the relation that comes out for
the one that is meant. Only bytes inside of the range count for that.

`ReadsAt` is the same statement for a single cursor. A repetition needs it, since its later rounds
are known to behave only on the cursors that the earlier ones leave.

## The end of the range

The end of the range, `limit`, is fixed while a file is read. It is a parameter because two actions
compare addresses with it, and because it bounds every address that occurs.

## What follows from it

Bytes that spell a value are read as that value whatever stands behind them, `Reads.run`, and there
is no second way to read the same bytes, `Reads.unique`: what is spelled needs no mark of its end.
-/

namespace TreePickle

namespace Decode

variable {ε ε' α β σ : Type} {limit : Nat}

/-- Within a range that ends at `limit`, `x` gives the value `v` at the address `a` exactly on bytes
that begin with some `bs` such that `spells a v bs`, and moves the cursor behind them. -/
def Reads (limit : Nat) (x : Decode ε α) (spells : Nat → α → List UInt8 → Prop) : Prop :=
  ∀ (c c' : Cursor) (v : α), c.stop = limit → (x c = .ok v c' ↔
    ∃ bs, spells c.position v bs ∧ c.ahead = bs ++ c'.ahead ∧ c'.position = c.position + bs.length)

/-- The same from one cursor, where the address need not be spoken of. -/
def ReadsAt (c : Cursor) (x : Decode ε α) (spells : α → List UInt8 → Prop) : Prop :=
  ∀ (c' : Cursor) (v : α), x c = .ok v c' ↔
    ∃ bs, spells v bs ∧ c.ahead = bs ++ c'.ahead ∧ c'.position = c.position + bs.length

variable {S T : Nat → α → List UInt8 → Prop} {x : Decode ε α}

theorem Reads.readsAt (h : Reads limit x S) {c : Cursor} (hc : c.stop = limit) :
    ReadsAt c x (S c.position) := fun c' v ↦ h c c' v hc

theorem reads_of_readsAt (h : ∀ c : Cursor, c.stop = limit → ReadsAt c x (S c.position)) :
    Reads limit x S := fun c c' v hc ↦ h c hc c' v

theorem bind_eq_ok_iff {f : α → Decode ε β} {c c' : Cursor} {w : β} :
    (x >>= f) c = .ok w c' ↔ ∃ u c₁, x c = .ok u c₁ ∧ f u c₁ = .ok w c' := by
  change EStateM.bind x f c = _ ↔ _
  unfold EStateM.bind
  cases x c with
  | ok u c₁ => simp
  | error e c₁ => simp

theorem bind_of_eq_ok {f : α → Decode ε β} {c c' : Cursor} {v : α} (h : x c = .ok v c') :
    (x >>= f) c = f v c' := by
  change EStateM.bind x f c = _
  rw [EStateM.bind, h]

theorem bind_of_eq_error {f : α → Decode ε β} {c c' : Cursor} {e : ε} (h : x c = .error e c') :
    (x >>= f) c = .error e c' := by
  change EStateM.bind x f c = _
  rw [EStateM.bind, h]

theorem bind_apply_position (f : Nat → Decode ε β) (c : Cursor) :
    (position >>= f) c = f c.position c := rfl

namespace ReadsAt

variable {c : Cursor} {P Q : α → List UInt8 → Prop}

/-- Reading does not move the end of the range. -/
theorem stop_eq (h : ReadsAt c x P) {v : α} {c' : Cursor} (hx : x c = .ok v c') :
    c'.stop = c.stop := by
  obtain ⟨bs, -, ha, hp⟩ := (h c' v).mp hx
  rw [Cursor.stop, Cursor.stop, ha, hp, List.length_append]
  omega

theorem congr (h : ReadsAt c x P)
    (hPQ : ∀ v bs, c.position + bs.length ≤ c.stop → (P v bs ↔ Q v bs)) : ReadsAt c x Q := by
  intro c' v
  rw [h c' v]
  refine exists_congr fun bs ↦ and_congr_left fun ⟨ha, _⟩ ↦ hPQ v bs ?_
  rw [Cursor.stop, ha, List.length_append]
  omega

theorem pure (u : α) : ReadsAt c (pure u : Decode ε α) fun v bs ↦ v = u ∧ bs = [] := by
  intro c' v
  change EStateM.Result.ok u c = .ok v c' ↔ _
  constructor
  · rintro ⟨⟩
    exact ⟨[], ⟨rfl, rfl⟩, rfl, rfl⟩
  · rintro ⟨bs, ⟨rfl, rfl⟩, ha, hp⟩
    obtain ⟨p', l'⟩ := c'
    cases hp
    cases ha
    rfl

/-- Two actions in a row read the bytes of the first and then those of the second. Of the second
one nothing has to be known but from the cursors that the first one leaves. -/
theorem bind {f : α → Decode ε β} {U : α → Nat → β → List UInt8 → Prop} (hx : ReadsAt c x P)
    (hf : ∀ u c₁, x c = .ok u c₁ → ReadsAt c₁ (f u) (U u c₁.position)) :
    ReadsAt c (x >>= f) fun w bs ↦
      ∃ u bs₁ bs₂, P u bs₁ ∧ U u (c.position + bs₁.length) w bs₂ ∧ bs = bs₁ ++ bs₂ := by
  intro c' w
  rw [bind_eq_ok_iff]
  constructor
  · rintro ⟨u, c₁, hxc, h⟩
    obtain ⟨bs₁, hs₁, ha₁, hp₁⟩ := (hx c₁ u).mp hxc
    obtain ⟨bs₂, hs₂, ha₂, hp₂⟩ := (hf u c₁ hxc c' w).mp h
    rw [hp₁] at hs₂
    refine ⟨bs₁ ++ bs₂, ⟨u, bs₁, bs₂, hs₁, hs₂, rfl⟩, ?_, ?_⟩
    · rw [ha₁, ha₂, List.append_assoc]
    · rw [hp₂, hp₁, List.length_append, Nat.add_assoc]
  · rintro ⟨_, ⟨u, bs₁, bs₂, hs₁, hs₂, rfl⟩, ha, hp⟩
    rw [List.append_assoc] at ha
    rw [List.length_append, ← Nat.add_assoc] at hp
    have hxc : x c = .ok u ⟨c.position + bs₁.length, bs₂ ++ c'.ahead⟩ :=
      (hx _ u).mpr ⟨bs₁, hs₁, ha, rfl⟩
    exact ⟨u, _, hxc, (hf u _ hxc c' w).mpr ⟨bs₂, hs₂, rfl, hp⟩⟩

end ReadsAt

namespace Reads

/-- Bytes that spell a value are read as that value, whatever follows them. -/
theorem run (h : Reads limit x S) {a : Nat} {v : α} {bs rest : List UInt8} (hs : S a v bs)
    (hl : a + bs.length + rest.length = limit) :
    x ⟨a, bs ++ rest⟩ = .ok v ⟨a + bs.length, rest⟩ := by
  refine (h ⟨a, bs ++ rest⟩ ⟨a + bs.length, rest⟩ v ?_).mpr ⟨bs, hs, rfl, rfl⟩
  rw [Cursor.stop, List.length_append, ← Nat.add_assoc, hl]

/-- All bytes together are read as a value exactly if they spell it. -/
theorem all_iff {a : Nat} {v : α} {bs : List UInt8} (h : Reads (a + bs.length) x S) :
    x ⟨a, bs⟩ = .ok v ⟨a + bs.length, []⟩ ↔ S a v bs := by
  rw [h ⟨a, bs⟩ _ v rfl]
  constructor
  · rintro ⟨cs, hs, hbs, -⟩
    obtain rfl : bs = cs := by rwa [List.append_nil] at hbs
    exact hs
  · intro hs
    exact ⟨bs, hs, (List.append_nil bs).symm, rfl⟩

/-- At most one string in front of others is read, and as at most one value. -/
theorem unique (h : Reads limit x S) {a : Nat} {v w : α} {bs cs ds es : List UInt8}
    (hv : S a v bs) (hw : S a w cs) (heq : bs ++ ds = cs ++ es)
    (hl : a + bs.length + ds.length = limit) : v = w ∧ bs = cs ∧ ds = es := by
  have hl' : a + cs.length + es.length = limit := by
    rw [← hl, Nat.add_assoc, Nat.add_assoc, ← List.length_append, ← List.length_append, heq]
  have hrun := h.run hv hl
  rw [heq, h.run hw hl'] at hrun
  injection hrun with hvalue hcursor
  injection hcursor with _ hrest
  subst hrest
  exact ⟨hvalue.symm, List.append_cancel_right heq, rfl⟩

/-- The relation matters only on bytes inside of the range. -/
theorem congr (h : Reads limit x S)
    (hST : ∀ a v bs, a + bs.length ≤ limit → (S a v bs ↔ T a v bs)) : Reads limit x T := by
  refine reads_of_readsAt fun c hc ↦ (h.readsAt hc).congr fun v bs hle ↦ hST _ v bs ?_
  rwa [← hc]

/-! ## Sequencing -/

theorem pure (u : α) : Reads limit (pure u : Decode ε α) fun _ v bs ↦ v = u ∧ bs = [] :=
  reads_of_readsAt fun _ _ ↦ .pure u

theorem throw (e : ε) : Reads limit (throw e : Decode ε α) fun _ _ _ ↦ False := by
  intro c c' v _
  change EStateM.Result.error e c = .ok v c' ↔ _
  simp

theorem bind {f : α → Decode ε β} {U : α → Nat → β → List UInt8 → Prop} (hx : Reads limit x S)
    (hf : ∀ u, Reads limit (f u) (U u)) :
    Reads limit (x >>= f) fun a w bs ↦
      ∃ u bs₁ bs₂, S a u bs₁ ∧ U u (a + bs₁.length) w bs₂ ∧ bs = bs₁ ++ bs₂ := by
  refine reads_of_readsAt fun c hc ↦ (hx.readsAt hc).bind fun u c₁ hxc ↦ (hf u).readsAt ?_
  exact ((hx.readsAt hc).stop_eq hxc).trans hc

theorem bind_pure (h : Reads limit x S) (f : α → β) :
    Reads limit (do return f (← x)) fun a w bs ↦ ∃ v, S a v bs ∧ w = f v := by
  refine (h.bind fun v ↦ pure (f v)).congr fun a w bs _ ↦ ?_
  constructor
  · rintro ⟨v, bs₁, bs₂, hs, ⟨rfl, rfl⟩, rfl⟩
    exact ⟨v, by rwa [List.append_nil], rfl⟩
  · rintro ⟨v, hs, rfl⟩
    exact ⟨v, bs, [], hs, ⟨rfl, rfl⟩, (List.append_nil bs).symm⟩

/-- Asking for the address takes no bytes. -/
theorem position_bind {f : Nat → Decode ε α} {U : Nat → Nat → α → List UInt8 → Prop}
    (h : ∀ p, Reads limit (f p) (U p)) :
    Reads limit (Decode.position >>= f) fun a v bs ↦ U a a v bs :=
  fun c c' v hc ↦ h c.position c c' v hc

/-- Asking for the end of the range takes no bytes. -/
theorem stop_bind {f : Nat → Decode ε α} (h : Reads limit (f limit) S) :
    Reads limit (Decode.stop >>= f) S := by
  intro c c' v hc
  rw [← h c c' v hc, ← hc]
  rfl

theorem ite {p : Prop} [Decidable p] {y : Decode ε α} (hx : p → Reads limit x S)
    (hy : ¬p → Reads limit y T) :
    Reads limit (if p then x else y) fun a v bs ↦ if p then S a v bs else T a v bs := by
  by_cases hp : p
  · simpa only [if_pos hp] using hx hp
  · simpa only [if_neg hp] using hy hp

/-- A test that refuses some of the input in front of an action. -/
theorem guard {p : Prop} [Decidable p] {e : ε} {f : Unit → Decode ε α}
    (h : ¬p → Reads limit (f ()) S) :
    Reads limit (if p then MonadExcept.throw e >>= f else f ()) fun a v bs ↦ ¬p ∧ S a v bs := by
  by_cases hp : p
  · rw [if_pos hp]
    intro c c' v _
    change EStateM.Result.error e c = .ok v c' ↔ _
    simp [hp]
  · rw [if_neg hp]
    exact (h hp).congr fun a v bs _ ↦ by simp [hp]

/-- Renaming errors changes nothing about what is accepted. -/
theorem mapError (h : Reads limit x S) (f : ε → ε') : Reads limit (Decode.mapError f x) S := by
  intro c c' v hc
  rw [← h c c' v hc, Decode.mapError]
  cases x c with
  | ok u c₁ => simp
  | error e c₁ => simp

theorem ofExcept (o : Except ε α) :
    Reads limit (Decode.ofExcept o) fun _ v bs ↦ o = .ok v ∧ bs = [] := by
  cases o with
  | ok u => exact (pure u).congr fun a v bs _ ↦ by simp [eq_comm]
  | error e => exact (throw e).congr fun a v bs _ ↦ by simp

/-- An action behind which the address has to be a certain one. -/
theorem endingAt {stop : Nat} {e : Nat → ε} (h : Reads limit x S) :
    Reads limit (do
      let v ← x
      let reached ← Decode.position
      if reached ≠ stop then MonadExcept.throw (e reached)
      return v) fun a v bs ↦ S a v bs ∧ a + bs.length = stop := by
  refine (h.bind fun v ↦ position_bind fun r ↦ guard fun _ ↦ pure v).congr fun a v bs _ ↦ ?_
  constructor
  · rintro ⟨u, bs₁, _, hs, ⟨hr, rfl, rfl⟩, rfl⟩
    rw [List.append_nil]
    exact ⟨hs, not_not.mp hr⟩
  · rintro ⟨hs, hstop⟩
    exact ⟨v, bs, [], hs, ⟨not_not.mpr hstop, rfl, rfl⟩, (List.append_nil bs).symm⟩

/-! ## Bytes and texts -/

theorem byte : Reads limit Decode.byte fun _ b bs ↦ bs = [b] := by
  rintro ⟨p, _ | ⟨d, l⟩⟩ ⟨p', l'⟩ b _
  · simp [Decode.byte]
  · simp only [Decode.byte, EStateM.Result.ok.injEq, Cursor.mk.injEq, exists_eq_left,
      List.cons_append, List.nil_append, List.cons.injEq, List.length_singleton]
    tauto

theorem bytes (n : Nat) : Reads limit (Decode.bytes n) fun _ v bs ↦ v = bs ∧ bs.length = n := by
  rintro ⟨p, l⟩ ⟨p', l'⟩ v _
  rw [Decode.bytes]
  constructor
  · intro h
    split at h
    · next hn =>
      rw [Cursor.hasAtLeast_eq_true_iff] at hn
      obtain ⟨rfl, hc⟩ : l.take n = v ∧ (⟨p + n, l.drop n⟩ : Cursor) = ⟨p', l'⟩ := by
        simpa [Cursor.drop] using h
      cases hc
      have hlen : (l.take n).length = n := List.length_take_of_le hn
      exact ⟨l.take n, ⟨rfl, hlen⟩, (List.take_append_drop n l).symm, by rw [hlen]⟩
    · cases h
  · rintro ⟨bs, ⟨rfl, rfl⟩, hl, hp⟩
    dsimp only at hl hp
    subst hl hp
    simp [Cursor.drop]

theorem text (n : Nat) :
    Reads limit (Decode.text n) fun _ s bs ↦ bs = Text.utf8 s ∧ bs.length = n := by
  refine (position_bind fun start ↦ (bytes n).bind
    (U := fun bs _ s cs ↦ bs = Text.utf8 s ∧ cs = []) fun bs ↦ ?_).congr fun a s bs _ ↦ ?_
  · -- there is at most one text for some bytes, since the other way around there is exactly one
    cases hbs : Text.ofUtf8? bs with
    | none =>
      refine (throw _).congr fun a s cs _ ↦ ?_
      rw [← Text.ofUtf8?_eq_some_iff, hbs]
      simp
    | some t =>
      refine (pure t).congr fun a s cs _ ↦ ?_
      rw [← Text.ofUtf8?_eq_some_iff, hbs, Option.some_inj, eq_comm]
  · constructor
    · rintro ⟨_, bs₁, _, ⟨rfl, rfl⟩, ⟨rfl, rfl⟩, rfl⟩
      simp
    · rintro ⟨rfl, rfl⟩
      exact ⟨_, _, [], ⟨rfl, rfl⟩, ⟨rfl, rfl⟩, by simp⟩

theorem uuid : Reads limit Decode.uuid fun _ id bs ↦ bs = id.toList := by
  rintro ⟨p, l⟩ ⟨p', l'⟩ id _
  rw [Decode.uuid]
  constructor
  · intro h
    split at h
    · next hn =>
      cases h
      refine ⟨l.take uuidSize, by simp, (List.take_append_drop _ l).symm, ?_⟩
      rw [List.length_take_of_le hn]
    · cases h
  · rintro ⟨bs, rfl, hl, hp⟩
    dsimp only at hl hp
    subst hl hp
    simp [Cursor.drop, Vector.toList]

/-- Moving forward to an address reads any bytes up to it. -/
theorem advanceTo (stop : Nat) :
    Reads limit (Decode.advanceTo stop) fun a _ bs ↦ a + bs.length = stop := by
  rintro ⟨p, l⟩ ⟨p', l'⟩ _ _
  rw [Decode.advanceTo]
  dsimp only
  constructor
  · intro h
    split at h
    · next hn =>
      obtain ⟨hp, hn⟩ := hn
      rw [Cursor.hasAtLeast_eq_true_iff] at hn
      cases h
      have hlen : (l.take (stop - p)).length = stop - p := List.length_take_of_le hn
      refine ⟨l.take (stop - p), ?_, (List.take_append_drop _ l).symm, by rw [hlen]⟩
      omega
    · cases h
  · rintro ⟨bs, hs, hl, hp⟩
    subst hs hl hp
    simp [Cursor.drop]

end Reads

end Decode

/-! ## What a reader gives -/

namespace Reader

variable {ε α : Type} {x : Decode ε α} {r : Reader}

theorem eval_eq_ok_iff {v : α} : r.eval x = .ok v ↔ ∃ c, x r.cursor = .ok v c := by
  rw [eval, run]
  cases x r.cursor with
  | ok u c => simp
  | error e c => simp

theorem eval_eq_error_iff {e : ε} : r.eval x = .error e ↔ ∃ c, x r.cursor = .error e c := by
  rw [eval, run]
  cases x r.cursor with
  | ok u c => simp
  | error e' c => simp

end Reader

end TreePickle
