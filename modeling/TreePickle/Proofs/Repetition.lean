import TreePickle.Proofs.Reading

/-!
# What a repetition accepts

A step is repeated while the cursor stands before an address `stop`, and it is only in front of a
round that the address is looked at. So the last round may end behind `stop`, and what a repetition
accepts depends on where it begins.

## Rounds and items

`Rounds` describes the bytes of all rounds together, from one state to another, and `Items` the
bytes of a list of items; both are inductive and have a constructor for the end and one for a round
in front of others. A repetition accepts exactly these, `Reads.iterateUntil` and `Reads.itemsUntil`.
The proof goes along the number of addresses up to `stop`, which is also how often a repetition can
go round. It needs to know that no round reads the empty string, because an action that takes no
bytes would be repeated without end.

## Without addresses

If the items end exactly at `stop`, no address has to be mentioned any more: a list of items is
accepted on the concatenation of spellings of its items, `items_denoted_iff`. It is stated for items
that are written by something else, a reference for a name, say. `Denoted L d` tells how: `L i` are
the spellings of what is written, and `d i` is the value that it stands for, if it stands for any.
-/

namespace TreePickle.Decode

variable {ε α ι σ : Type} {limit stop : Nat}

/-- An action that never reads an empty string advances. -/
theorem advances_of_reads {x : Decode ε α} {S : Nat → α → List UInt8 → Prop}
    (h : ∀ limit, Reads limit x S) (hS : ∀ a v, ¬S a v []) : Advances x := by
  intro c v c' hx
  obtain ⟨bs, hs, -, hp⟩ := (h c.stop c c' v rfl).mp hx
  have hne : bs ≠ [] := fun hbs ↦ hS _ _ (hbs ▸ hs)
  have hpos : 0 < bs.length := List.length_pos_iff.mpr hne
  omega

/-! ## Rounds of a step -/

/-- The bytes of the rounds from a state to another one, the first round at a given address. -/
inductive Rounds (stop : Nat) (S : σ → Nat → σ → List UInt8 → Prop) :
    Nat → σ → σ → List UInt8 → Prop
  /-- At `stop` or behind it there are no more rounds. -/
  | ended {a : Nat} {s : σ} (h : stop ≤ a) : Rounds stop S a s s []
  | next {a : Nat} {s s' s'' : σ} {bs cs : List UInt8} (h : a < stop) (hs : S s a s' bs)
      (hr : Rounds stop S (a + bs.length) s' s'' cs) : Rounds stop S a s s'' (bs ++ cs)

namespace Rounds

variable {S : σ → Nat → σ → List UInt8 → Prop} {a : Nat} {s s' : σ} {bs : List UInt8}

theorem iff_of_lt (h : a < stop) : Rounds stop S a s s' bs ↔
    ∃ s₁ bs₁ bs₂, S s a s₁ bs₁ ∧ Rounds stop S (a + bs₁.length) s₁ s' bs₂ ∧ bs = bs₁ ++ bs₂ := by
  constructor
  · intro hr
    cases hr with
    | ended hle => exact absurd h (Nat.not_lt.mpr hle)
    | next _ hs hr => exact ⟨_, _, _, hs, hr, rfl⟩
  · rintro ⟨s₁, bs₁, bs₂, hs, hr, rfl⟩
    exact .next h hs hr

theorem iff_of_le (h : stop ≤ a) : Rounds stop S a s s' bs ↔ s' = s ∧ bs = [] := by
  constructor
  · intro hr
    cases hr with
    | ended _ => exact ⟨rfl, rfl⟩
    | next hlt _ _ => exact absurd h (Nat.not_le.mpr hlt)
  · rintro ⟨rfl, rfl⟩
    exact .ended h

theorem stop_le (h : Rounds stop S a s s' bs) : stop ≤ a + bs.length := by
  induction h with
  | ended h => exact h
  | next _ _ _ ih => rwa [List.length_append, ← Nat.add_assoc]

end Rounds

theorem Reads.iterateUntil {step : σ → Decode ε σ} {S : σ → Nat → σ → List UInt8 → Prop}
    (h : ∀ limit s, Reads limit (step s) (S s)) (hS : ∀ s a s', ¬S s a s' []) (s : σ) :
    Reads limit (iterateUntil stop step s) fun a s' bs ↦ Rounds stop S a s s' bs := by
  have hadv (s : σ) : Advances (step s) := advances_of_reads (fun limit ↦ h limit s) (hS s)
  refine reads_of_readsAt fun c hc ↦ ?_
  -- the induction is on the addresses that are left, which every round makes fewer
  induction hn : stop - c.position using Nat.strong_induction_on generalizing s c with
  | _ n ih =>
    by_cases hlt : c.position < stop
    · have hfirst := (h limit s).readsAt hc
      have hround := hfirst.bind (U := fun s₁ a s' bs ↦ Rounds stop S a s₁ s' bs)
        fun s₁ c₁ hstep ↦ by
          have hpos := hadv s c s₁ c₁ hstep
          exact ih _ (by omega) s₁ c₁ ((hfirst.stop_eq hstep).trans hc) rfl
      intro c' s'
      rw [iterateUntil_eq hadv, if_pos hlt, hround c' s']
      simp only [Rounds.iff_of_lt hlt]
    · intro c' s'
      rw [iterateUntil_eq hadv, if_neg hlt]
      simp only [Rounds.iff_of_le (Nat.not_lt.mp hlt)]
      exact ReadsAt.pure s c' s'

/-! ## Lists of items -/

/-- The bytes of a list of items, the first item at a given address. -/
inductive Items (stop : Nat) (S : Nat → α → List UInt8 → Prop) :
    Nat → List α → List UInt8 → Prop
  /-- At `stop` or behind it there are no more items. -/
  | ended {a : Nat} (h : stop ≤ a) : Items stop S a [] []
  | next {a : Nat} {v : α} {vs : List α} {bs cs : List UInt8} (h : a < stop) (hs : S a v bs)
      (hr : Items stop S (a + bs.length) vs cs) : Items stop S a (v :: vs) (bs ++ cs)

/-- Items are collected with the last one in front. -/
private theorem rounds_push_iff {S : Nat → α → List UInt8 → Prop} {a : Nat} {vs vs' : List α}
    {bs : List UInt8} :
    Rounds stop (fun items a items' bs ↦ ∃ v, S a v bs ∧ items' = v :: items) a vs vs' bs ↔
      ∃ new, Items stop S a new bs ∧ vs' = new.reverse ++ vs := by
  constructor
  · intro h
    -- each round puts its item in front, so the new ones stand in reverse
    induction h with
    | ended h => exact ⟨[], .ended h, rfl⟩
    | next h hs hr ih =>
      obtain ⟨v, hv, rfl⟩ := hs
      obtain ⟨new, hnew, rfl⟩ := ih
      exact ⟨v :: new, .next h hv hnew, by simp⟩
  · rintro ⟨new, hnew, rfl⟩
    induction hnew generalizing vs with
    | ended h => exact .ended h
    | @next a v new bs cs h hs hr ih =>
      rw [List.reverse_cons, List.append_assoc, List.singleton_append]
      exact .next h ⟨v, hs, rfl⟩ ih

theorem Reads.itemsUntil {item : Decode ε α} {S : Nat → α → List UInt8 → Prop}
    (h : ∀ limit, Reads limit item S) (hS : ∀ a v, ¬S a v []) :
    Reads limit (itemsUntil stop item) (Items stop S) := by
  have hpush (limit : Nat) (items : List α) := (h limit).bind_pure (· :: items)
  have hne (items : List α) (a : Nat) (items' : List α) :
      ¬∃ v, S a v [] ∧ items' = v :: items := fun ⟨v, hs, _⟩ ↦ hS a v hs
  refine ((Reads.iterateUntil hpush hne []).bind_pure List.reverse).congr fun a vs bs _ ↦ ?_
  constructor
  · rintro ⟨items, hr, rfl⟩
    obtain ⟨new, hnew, rfl⟩ := rounds_push_iff.mp hr
    simpa using hnew
  · intro hvs
    exact ⟨vs.reverse, rounds_push_iff.mpr ⟨vs, hvs, by simp⟩, by simp⟩

/-! ## Items that are written by something else

An item is often not written itself, but a reference that stands for it. -/

/-- `v` is read from a spelling of some `i` that denotes it. -/
def Denoted (L : ι → Language UInt8) (d : ι → Option α) : Nat → α → List UInt8 → Prop :=
  fun _ v bs ↦ ∃ i, bs ∈ L i ∧ d i = some v

/-- Items that end exactly at `stop` are spelled one behind the other. -/
theorem items_denoted_iff {L : ι → Language UInt8} {d : ι → Option α} (hL : ∀ i, [] ∉ L i)
    {a : Nat} {vs : List α} {bs : List UInt8} (hstop : a + bs.length = stop) :
    Items stop (Denoted L d) a vs bs ↔
      ∃ is : List ι, bs ∈ (is.map L).prod ∧ is.mapM d = some vs := by
  constructor
  · intro h
    induction h with
    | ended _ => exact ⟨[], Language.nil_mem_one, rfl⟩
    | next _ hs _ ih =>
      obtain ⟨i, hi, hd⟩ := hs
      rw [List.length_append, ← Nat.add_assoc] at hstop
      obtain ⟨is, his, hds⟩ := ih hstop
      refine ⟨i :: is, Language.append_mem_mul hi his, ?_⟩
      rw [List.mapM_cons, hd, hds]
      rfl
  · rintro ⟨is, his, hds⟩
    -- no item is empty, so that the next one begins in front of `stop`
    induction is generalizing a vs bs with
    | nil =>
      cases hds
      obtain rfl : bs = [] := his
      exact .ended hstop.ge
    | cons i is ih =>
      obtain ⟨b, hb, cs, hcs, rfl⟩ := Language.mem_mul.mp his
      rw [List.mapM_cons] at hds
      obtain ⟨v, hd, hrest⟩ := Option.bind_eq_some_iff.mp hds
      obtain ⟨vs, hvs, ⟨⟩⟩ := Option.bind_eq_some_iff.mp hrest
      have hpos : 0 < b.length := List.length_pos_iff.mpr fun hnil ↦ hL i (hnil ▸ hb)
      rw [List.length_append, ← Nat.add_assoc] at hstop
      exact .next (by omega) ⟨i, hb, hd⟩ (ih hstop hcs hvs)

end TreePickle.Decode
