import TreePickle.Proofs.Numeral

/-!
# What a reading action ensures

`Decode.Reads` says which bytes are accepted and nothing of what happens on others. An action that
fails has an outcome too: a fault that speaks of an address, and a cursor that stays where the
reading stopped. `Decode.Ensures P x Q F` covers both: from a cursor with `P`, the action `x` comes
to a value and a cursor with `Q`, or to a fault and a cursor with `F`.

## Rules

There is a rule for each way in which actions are put together. Behind the first of two actions,
what is known is what the first one ensures; a fault of either has to be as `F` says. In front of an
action that asks for its address, `Ensures.position_bind_eq` lets the condition speak of that
address. A condition that does not speak of the cursor is taken out by `Ensures.assume`.

## Repetition

A repetition has an invariant `I s c` of the state and the cursor, and keeps it from round to round.
A fault breaks it off in the middle, and then it can matter which state had been reached: names that
were read before the fault, for example. `lastState` is that state as a function of where the
repetition began, so that a fault can be spoken of in terms of it, `Ensures.iterateUntil_lastState`.

## Moving forward

What all actions on bytes have in common is `Decode.Forward`: they pass over bytes of their range
and never go back, whether they succeed or fail, and a fault of theirs is one of reading forward, at
an address on the way. Actions on blocks of bytes, `Decode.Takes`, read all of a block or stay where
they are; numbers stop at some byte of the range or at its end.
-/

namespace TreePickle

/-! ## Ways of a cursor -/

namespace Cursor

/-- Passing over some bytes leads from one cursor to the other. -/
def Reaches (c c' : Cursor) : Prop :=
  ∃ bs, c.ahead = bs ++ c'.ahead ∧ c'.position = c.position + bs.length

variable {c c' c'' : Cursor}

theorem Reaches.refl (c : Cursor) : c.Reaches c := ⟨[], rfl, rfl⟩

theorem Reaches.trans (h : c.Reaches c') (h' : c'.Reaches c'') : c.Reaches c'' := by
  obtain ⟨bs, ha, hp⟩ := h
  obtain ⟨cs, ha', hp'⟩ := h'
  refine ⟨bs ++ cs, ?_, ?_⟩
  · rw [ha, ha', List.append_assoc]
  · rw [hp', hp, List.length_append, Nat.add_assoc]

theorem Reaches.position_le (h : c.Reaches c') : c.position ≤ c'.position := by
  obtain ⟨bs, -, hp⟩ := h
  omega

theorem Reaches.stop_eq (h : c.Reaches c') : c'.stop = c.stop := by
  obtain ⟨bs, ha, hp⟩ := h
  rw [stop, stop, ha, hp, List.length_append]
  omega

theorem position_le_stop (c : Cursor) : c.position ≤ c.stop := Nat.le_add_right _ _

theorem Reaches.position_le_stop (h : c.Reaches c') : c'.position ≤ c.stop :=
  h.stop_eq ▸ c'.position_le_stop

theorem reaches_drop {n : Nat} (h : n ≤ c.ahead.length) : c.Reaches (c.drop n) := by
  refine ⟨c.ahead.take n, (List.take_append_drop n c.ahead).symm, ?_⟩
  rw [List.length_take_of_le h]
  rfl

end Cursor

/-- A fault of reading forward, at an address from `first` to `last`. -/
def Fault.Within (first last : Nat) : Fault → Prop
  | unexpectedEnd a | invalidUtf8 a | numberOverflow a => first ≤ a ∧ a ≤ last
  | addressOutOfRange _ _ _ => False

theorem Fault.Within.mono {first first' last : Nat} {e : Fault} (h : e.Within first last)
    (hle : first' ≤ first) : e.Within first' last := by
  cases e with
  | addressOutOfRange _ _ _ => exact h
  | _ => exact ⟨hle.trans h.1, h.2⟩

namespace Decode

open Base128

variable {ε ε' α β σ : Type}

theorem bind_eq_error_iff {x : Decode ε α} {f : α → Decode ε β} {c c' : Cursor} {e : ε} :
    (x >>= f) c = .error e c' ↔
      x c = .error e c' ∨ ∃ u c₁, x c = .ok u c₁ ∧ f u c₁ = .error e c' := by
  change EStateM.bind x f c = _ ↔ _
  unfold EStateM.bind
  cases x c with
  | ok u c₁ => simp
  | error e₁ c₁ => simp

theorem mapError_eq_ok_iff {f : ε → ε'} {x : Decode ε α} {c c' : Cursor} {v : α} :
    mapError f x c = .ok v c' ↔ x c = .ok v c' := by
  rw [mapError]
  cases x c with
  | ok u c₁ => simp
  | error e c₁ => simp

theorem mapError_eq_error_iff {f : ε → ε'} {x : Decode ε α} {c c' : Cursor} {e' : ε'} :
    mapError f x c = .error e' c' ↔ ∃ e, x c = .error e c' ∧ f e = e' := by
  rw [mapError]
  cases x c with
  | ok u c₁ => simp
  | error e c₁ => simp [and_comm]

/-! ## States of a repetition -/

/-- The state behind at most `n` rounds, or in front of the first round that fails. -/
def stateAfter (stop : Nat) (step : σ → Decode ε σ) : Nat → σ → Cursor → σ
  | 0, s, _ => s
  | n + 1, s, c =>
      if c.position < stop then
        match step s c with
        | .ok s' c' => stateAfter stop step n s' c'
        | .error _ _ => s
      else s

/-- The state in which a repetition ends or is broken off. -/
def lastState (stop : Nat) (step : σ → Decode ε σ) (s : σ) (c : Cursor) : σ :=
  stateAfter stop step (stop - c.position) s c

/-! ## Outcomes -/

/-- Where an action stopped. -/
def reached : EStateM.Result ε Cursor α → Cursor
  | .ok _ c => c
  | .error _ c => c

/-- From a cursor with `P`, `x` gives a value and a cursor with `Q`, or a fault and a cursor with
`F`. -/
def Ensures (P : Cursor → Prop) (x : Decode ε α) (Q : α → Cursor → Prop)
    (F : ε → Cursor → Prop) : Prop :=
  ∀ c, P c → match x c with
    | .ok v c' => Q v c'
    | .error e c' => F e c'

namespace Ensures

variable {P P' : Cursor → Prop} {Q Q' : α → Cursor → Prop} {R : β → Cursor → Prop}
  {F F' : ε → Cursor → Prop} {x : Decode ε α} {f : α → Decode ε β}

theorem of_cases (hok : ∀ c v c', P c → x c = .ok v c' → Q v c')
    (herror : ∀ c e c', P c → x c = .error e c' → F e c') : Ensures P x Q F := by
  intro c hc
  cases hx : x c with
  | ok v c' => exact hok c v c' hc hx
  | error e c' => exact herror c e c' hc hx

theorem ok (h : Ensures P x Q F) {c c' : Cursor} {v : α} (hc : P c) (hx : x c = .ok v c') :
    Q v c' := by
  have hxc := h c hc
  rwa [hx] at hxc

theorem error (h : Ensures P x Q F) {c c' : Cursor} {e : ε} (hc : P c)
    (hx : x c = .error e c') : F e c' := by
  have hxc := h c hc
  rwa [hx] at hxc

theorem imp (h : Ensures P x Q F) (hP : ∀ c, P' c → P c) (hQ : ∀ v c, Q v c → Q' v c)
    (hF : ∀ e c, F e c → F' e c) : Ensures P' x Q' F' :=
  of_cases (fun c v c' hc hx ↦ hQ v c' (h.ok (hP c hc) hx))
    fun c e c' hc hx ↦ hF e c' (h.error (hP c hc) hx)

theorem pre (h : Ensures P x Q F) (hP : ∀ c, P' c → P c) : Ensures P' x Q F :=
  fun c hc ↦ h c (hP c hc)

/-- What is known in front of an action and does not speak of its cursor. -/
theorem assume {p : Prop} (h : p → Ensures P x Q F) : Ensures (fun c ↦ P c ∧ p) x Q F :=
  fun c hc ↦ h hc.2 c hc.1

/-- What is known of accepted bytes can be used behind an action. -/
theorem and_ok (h : Ensures P x Q F) (hQ : ∀ c v c', P c → x c = .ok v c' → Q' v c') :
    Ensures P x (fun v c ↦ Q v c ∧ Q' v c) F :=
  of_cases (fun c v c' hc hx ↦ ⟨h.ok hc hx, hQ c v c' hc hx⟩) fun _ _ _ hc hx ↦ h.error hc hx

/-! ### Sequencing -/

theorem pure {v : α} (h : ∀ c, P c → Q v c) : Ensures P (pure v : Decode ε α) Q F := h

theorem throw {e : ε} (h : ∀ c, P c → F e c) : Ensures P (throw e : Decode ε α) Q F := h

theorem bind (hx : Ensures P x Q F) (hf : ∀ v, Ensures (Q v) (f v) R F) :
    Ensures P (x >>= f) R F := by
  refine of_cases (fun c w c' hc h ↦ ?_) fun c e c' hc h ↦ ?_
  · obtain ⟨v, c₁, hxc, hfc⟩ := bind_eq_ok_iff.mp h
    exact (hf v).ok (hx.ok hc hxc) hfc
  · rcases bind_eq_error_iff.mp h with hxc | ⟨v, c₁, hxc, hfc⟩
    · exact hx.error hc hxc
    · exact (hf v).error (hx.ok hc hxc) hfc

theorem bind_pure (hx : Ensures P x Q F) {g : α → β} (h : ∀ v c, Q v c → R (g v) c) :
    Ensures P (do return g (← x)) R F := hx.bind fun v ↦ pure (h v)

theorem position_bind {g : Nat → Decode ε α} (h : ∀ c, P c → Ensures P (g c.position) Q F) :
    Ensures P (Decode.position >>= g) Q F := fun c hc ↦ h c hc c hc

/-- The address can be spoken of as long as the cursor has not moved. -/
theorem position_bind_eq {g : Nat → Decode ε α}
    (h : ∀ a, Ensures (fun c ↦ P c ∧ c.position = a) (g a) Q F) :
    Ensures P (Decode.position >>= g) Q F := fun c hc ↦ h c.position c ⟨hc, rfl⟩

theorem stop_bind {g : Nat → Decode ε α} (h : ∀ c, P c → Ensures P (g c.stop) Q F) :
    Ensures P (Decode.stop >>= g) Q F := fun c hc ↦ h c hc c hc

theorem ite {p : Prop} [Decidable p] {y : Decode ε α} (hx : p → Ensures P x Q F)
    (hy : ¬p → Ensures P y Q F) : Ensures P (if p then x else y) Q F := by
  by_cases hp : p
  · rw [if_pos hp]
    exact hx hp
  · rw [if_neg hp]
    exact hy hp

/-- A test that refuses some of the input in front of an action. -/
theorem guard {p : Prop} [Decidable p] {e : ε} {g : Unit → Decode ε α}
    (he : p → ∀ c, P c → F e c) (h : ¬p → Ensures P (g ()) Q F) :
    Ensures P (if p then MonadExcept.throw e >>= g else g ()) Q F :=
  ite (fun hp ↦ (throw (he hp) : Ensures P _ (fun _ _ ↦ False) F).bind fun _ _ hc ↦ hc.elim) h

theorem mapError {g : ε → ε'} {G : ε' → Cursor → Prop}
    (h : Ensures P x Q fun e c ↦ G (g e) c) : Ensures P (Decode.mapError g x) Q G := by
  intro c hc
  have hxc := h c hc
  rw [Decode.mapError]
  cases hx : x c with
  | ok v c' => rwa [hx] at hxc
  | error e c' => rwa [hx] at hxc

/-! ### Repetition -/

variable {stop : Nat} {step : σ → Decode ε σ} {I : σ → Cursor → Prop} {G : σ → ε → Cursor → Prop}

private theorem rounds (h : ∀ s, Ensures (fun c ↦ I s c ∧ c.position < stop) (step s) I (G s))
    (n : Nat) (s : σ) (c : Cursor) (hc : I s c) :
    match rounds stop step n s c with
    | .ok s' c' => s' = stateAfter stop step n s c ∧ I s' c'
    | .error e c' => G (stateAfter stop step n s c) e c' := by
  induction n generalizing s c with
  | zero => exact ⟨rfl, hc⟩
  | succ n ih =>
    change match (if c.position < stop then step s >>= Decode.rounds stop step n else _ :
      Decode ε σ) c with
      | .ok s' c' => _
      | .error e c' => _
    rw [stateAfter]
    by_cases hlt : c.position < stop
    · have hstep := h s c ⟨hc, hlt⟩
      rw [if_pos hlt, if_pos hlt]
      change match EStateM.bind (step s) (Decode.rounds stop step n) c with
        | .ok s' c' => _
        | .error e c' => _
      rw [EStateM.bind]
      cases hx : step s c with
      | ok s' c' =>
        rw [hx] at hstep
        exact ih s' c' hstep
      | error e c' => rwa [hx] at hstep
    · rw [if_neg hlt, if_neg hlt]
      exact ⟨rfl, hc⟩

/-- What every round keeps holds behind all of them, and a fault is one of the state in which the
repetition was broken off. -/
theorem iterateUntil_lastState
    (h : ∀ s, Ensures (fun c ↦ I s c ∧ c.position < stop) (step s) I (G s)) (s : σ) (c₀ : Cursor)
    (hc₀ : I s c₀) :
    Ensures (· = c₀) (iterateUntil stop step s)
      (fun s' c ↦ s' = lastState stop step s c₀ ∧ I s' c) (G (lastState stop step s c₀)) := by
  rintro c rfl
  exact rounds h _ s c hc₀

theorem iterateUntil (h : ∀ s, Ensures (fun c ↦ I s c ∧ c.position < stop) (step s) I F) (s : σ) :
    Ensures (I s) (iterateUntil stop step s) I F := fun c hc ↦
  (iterateUntil_lastState h s c hc).imp (fun _ hc ↦ hc) (fun _ _ h ↦ h.2) (fun _ _ he ↦ he) c rfl

theorem itemsUntil (h : Ensures P x (fun _ ↦ P) F) :
    Ensures P (itemsUntil stop x) (fun _ ↦ P) F := by
  have hpush (items : List α) :
      Ensures (fun c ↦ P c ∧ c.position < stop) (do return (← x) :: items) (fun _ ↦ P) F :=
    (h.pre fun _ hc ↦ hc.1).bind_pure fun _ _ hc ↦ hc
  exact (iterateUntil hpush []).bind_pure fun _ _ hc ↦ hc

end Ensures

/-! ## Blocks of bytes -/

/-- `x` takes `n` bytes, or fails where it stands if there are not so many. -/
def Takes (n : Nat) (x : Decode Fault α) : Prop := ∀ c : Cursor,
  (n ≤ c.ahead.length ∧ ∃ v, x c = .ok v (c.drop n)) ∨
    (c.ahead.length < n ∧ x c = .error (.unexpectedEnd c.position) c)

theorem takes_byte : Takes 1 Decode.byte := by
  rintro ⟨p, l⟩
  cases l with
  | nil => exact .inr ⟨Nat.zero_lt_one, rfl⟩
  | cons b l => exact .inl ⟨Nat.le_add_left 1 l.length, b, rfl⟩

theorem takes_bytes (n : Nat) : Takes n (Decode.bytes n) := by
  intro c
  by_cases hn : n ≤ c.ahead.length
  · exact .inl ⟨hn, _, if_pos (Cursor.hasAtLeast_eq_true_iff.mpr hn)⟩
  · exact .inr ⟨Nat.lt_of_not_le hn, if_neg (mt Cursor.hasAtLeast_eq_true_iff.mp hn)⟩

theorem takes_uuid : Takes uuidSize Decode.uuid := by
  intro c
  by_cases hn : uuidSize ≤ c.ahead.length
  · exact .inl ⟨hn, _, dif_pos hn⟩
  · exact .inr ⟨Nat.lt_of_not_le hn, dif_neg hn⟩

theorem Takes.reaches {n : Nat} {x : Decode Fault α} (h : Takes n x) (c : Cursor) :
    c.Reaches (reached (x c)) := by
  rcases h c with ⟨hn, v, hv⟩ | ⟨-, he⟩
  · rw [hv]
    exact Cursor.reaches_drop hn
  · rw [he]
    exact .refl c

/-! ## Numbers -/

theorem numberFrom_reaches (k : Kind) (start p : Nat) (value? : Option Int) (l : List UInt8) :
    Cursor.Reaches ⟨p, l⟩ (reached (numberFrom k start p value? l)) := by
  induction l generalizing p value? with
  | nil => exact .refl _
  | cons b l ih =>
    have hnext : Cursor.Reaches ⟨p, b :: l⟩ ⟨p + 1, l⟩ := ⟨[b], rfl, rfl⟩
    rw [numberFrom]
    split
    · exact hnext
    · split
      · exact hnext
      · exact hnext.trans (ih _ _)

private theorem numberFrom_eq_error {k : Kind} {start p : Nat} {value? : Option Int}
    {l : List UInt8} {e : Fault} {c' : Cursor} (h : numberFrom k start p value? l = .error e c') :
    e = .unexpectedEnd (p + l.length) ∨ e = .numberOverflow start := by
  induction l generalizing p value? with
  | nil =>
    cases h
    exact .inl rfl
  | cons b l ih =>
    rw [numberFrom] at h
    split at h
    · cases h
      exact .inr rfl
    · split at h
      · cases h
      · have he := ih h
        rwa [Nat.add_right_comm, Nat.add_assoc] at he

/-! ## Actions that only move forward -/

/-- Wherever `x` is started, it passes over bytes and never back, and a fault of it is at an address
that it passed. -/
def Forward (x : Decode Fault α) : Prop :=
  ∀ c₀ : Cursor, Ensures c₀.Reaches x (fun _ ↦ c₀.Reaches)
    fun e c ↦ c₀.Reaches c ∧ e.Within c₀.position c₀.stop

namespace Forward

variable {x : Decode Fault α} {f : α → Decode Fault β}

theorem of_reaches (hreach : ∀ c : Cursor, c.Reaches (reached (x c)))
    (herror : ∀ c e c', x c = .error e c' → e.Within c.position c.stop) : Forward x := by
  intro c₀
  refine Ensures.of_cases (fun c v c' hc hx ↦ ?_) fun c e c' hc hx ↦ ?_
  · have hc' := hreach c
    rw [hx] at hc'
    exact hc.trans hc'
  · have hc' := hreach c
    rw [hx] at hc'
    refine ⟨hc.trans hc', ?_⟩
    have hwithin := herror c e c' hx
    rw [← hc.stop_eq]
    exact hwithin.mono hc.position_le

theorem reaches (h : Forward x) {c c' : Cursor} {v : α} (hx : x c = .ok v c') : c.Reaches c' :=
  (h c).ok (.refl c) hx

theorem pure (v : α) : Forward (pure v) := fun _ ↦ .pure fun _ hc ↦ hc

theorem bind (hx : Forward x) (hf : ∀ v, Forward (f v)) : Forward (x >>= f) :=
  fun c₀ ↦ (hx c₀).bind fun v ↦ hf v c₀

theorem bind_pure (hx : Forward x) (g : α → β) : Forward (do return g (← x)) :=
  hx.bind fun v ↦ pure (g v)

/-! ### Bytes and texts -/

theorem of_takes {n : Nat} (h : Takes n x) : Forward x := by
  refine of_reaches h.reaches fun c e c' hx ↦ ?_
  rcases h c with ⟨-, v, hv⟩ | ⟨-, he⟩
  · cases hx.symm.trans hv
  · cases hx.symm.trans he
    exact ⟨Nat.le_refl _, c.position_le_stop⟩

theorem byte : Forward Decode.byte := of_takes takes_byte

theorem bytes (n : Nat) : Forward (Decode.bytes n) := of_takes (takes_bytes n)

theorem uuid : Forward Decode.uuid := of_takes takes_uuid

/-- A fault that speaks of the address where an action began. -/
private theorem throw_start {c₀ c : Cursor} (hc : c₀.Reaches c) {e : Fault}
    (he : e = .invalidUtf8 c.position ∨ e = .numberOverflow c.position) :
    Ensures c₀.Reaches (throw e : Decode Fault α) (fun _ ↦ c₀.Reaches)
      fun e c ↦ c₀.Reaches c ∧ e.Within c₀.position c₀.stop := by
  refine .throw fun c' hc' ↦ ⟨hc', ?_⟩
  rcases he with rfl | rfl
  · exact ⟨hc.position_le, hc.position_le_stop⟩
  · exact ⟨hc.position_le, hc.position_le_stop⟩

theorem text (n : Nat) : Forward (Decode.text n) := by
  refine fun c₀ ↦ .position_bind fun c hc ↦ (bytes n c₀).bind fun bs ↦ ?_
  cases Text.ofUtf8? bs with
  | some s => exact pure s c₀
  | none => exact throw_start hc (.inl rfl)

/-! ### Numbers -/

theorem number (k : Kind) : Forward (Decode.number k) := by
  refine of_reaches (fun c ↦ numberFrom_reaches k _ _ none c.ahead) fun c e c' hx ↦ ?_
  rcases numberFrom_eq_error hx with rfl | rfl
  · exact ⟨c.position_le_stop, Nat.le_refl _⟩
  · exact ⟨Nat.le_refl _, c.position_le_stop⟩

theorem longNat : Forward Decode.longNat := by
  rw [longNat_eq]
  exact (number .unsigned).bind_pure _

theorem longInt : Forward Decode.longInt := by
  rw [longInt_eq]
  exact (number .signed).bind_pure _

theorem length : Forward Decode.length := longNat.bind_pure _

theorem nat : Forward Decode.nat := by
  refine fun c₀ ↦ .position_bind fun c hc ↦ (longNat c₀).bind fun v ↦ .ite ?_ ?_
  · exact fun _ ↦ pure _ c₀
  · exact fun _ ↦ throw_start hc (.inr rfl)

theorem int : Forward Decode.int := by
  refine fun c₀ ↦ .position_bind fun c hc ↦ (longInt c₀).bind fun v ↦ .ite ?_ ?_
  · exact fun _ ↦ pure _ c₀
  · exact fun _ ↦ throw_start hc (.inr rfl)

theorem frameEnd : Forward Decode.frameEnd := by
  refine fun c₀ ↦ .position_bind fun c hc ↦ (length c₀).bind fun n ↦ .position_bind fun c₁ _ ↦ ?_
  cases Address.advance? c₁.position n with
  | some stop => exact pure stop c₀
  | none => exact throw_start hc (.inr rfl)

end Forward

end Decode

end TreePickle
