import TreePickle.Proofs.Capture
import TreePickle.Proofs.Visiting

/-!
# References after a substitution

`Ty.references` and `Ty.substitute` go down a type each on its own way, the one by recursion and the
other by a walk. What a type refers to after a substitution is still known exactly: to what it
referred before, the replaced binder apart, and to what the replacements refer that were used,
`Ty.references_substitute_iff`.

## Positions

A replacement is used where the type has a reference to the parameter, and places in a type are told
by positions. A type refers to a binder if there is a position with a reference to it
(`Ty.references_iff_exists_nodeAt?`), which is also a way of saying that it has an occurrence of it.

At each position a substitution gives what it gives for the node there alone,
`Ty.nodeAt?_substitute`. So a replacement is put in as it is, and its own references to the replaced
binder stay. A binder is gone after the substitution for it if and only if no replacement that is
used refers to it, whatever the unused ones do.

## Instances

An instance of a lambda is a substitution in its result, with a replacement for each parameter. If
no argument refers to the binder of the lambda, the instance does not either. That is the usual
case, and the statement for arguments that are used is the sharper one.

## The proof

The equivalence is shown on occurrences, where it is a matter of lists: what occurs after a
substitution is what occurred before or what occurs in a replacement. Positions come in at the end,
as the places of occurrences.
-/

namespace TreePickle

namespace Ty

variable {a b : Binder} {i : Nat} {t u s : Ty} {rs : List Ty}

/-! ## References at positions -/

theorem isParam_eq_false_of_mem_children {c : Ty} (h : c ∈ t.children) : t.isParam = false := by
  cases t with
  | paramRef b i => cases h
  | _ => rfl

theorem nodeAt?_paramRef_eq_paramRef_iff {c : Binder} {j : Nat} {p : List Nat} :
    (paramRef c j).nodeAt? p = some (paramRef b i) ↔ p = [] ∧ c = b ∧ j = i := by
  rcases p with _ | ⟨k, p⟩
  · simp [nodeAt?]
  · simp [nodeAt?, children]

/-- A reference in a node stands in one of its children. -/
theorem nodeAt?_eq_paramRef_iff (ht : t.isParam = false) {p : List Nat} :
    t.nodeAt? p = some (paramRef b i) ↔ ∃ (k : Nat) (q : List Nat) (c : Ty),
      p = k :: q ∧ t.children[k]? = some c ∧ c.nodeAt? q = some (paramRef b i) := by
  rcases p with _ | ⟨k, p⟩
  · constructor
    · rintro ⟨⟩
      cases ht
    · rintro ⟨_, _, _, ⟨⟩, -⟩
  · rw [nodeAt?, Option.bind_eq_some_iff]
    constructor
    · rintro ⟨c, hk, hc⟩
      exact ⟨k, p, c, rfl, hk, hc⟩
    · rintro ⟨_, _, c, ⟨⟩, hk, hc⟩
      exact ⟨c, hk, hc⟩

/-- An occurrence is a position with a reference to a parameter. -/
theorem exists_occurrence_iff : (∃ o ∈ t.occurrences, o.binder = b ∧ o.index = i) ↔
    ∃ p, t.nodeAt? p = some (paramRef b i) := by
  induction t using induction_params with
  | paramRef c j =>
    simp only [nodeAt?_paramRef_eq_paramRef_iff, exists_eq_left]
    simp [occurrences]
  | node t ht ih =>
    simp only [nodeAt?_eq_paramRef_iff ht]
    rw [occurrences_node ht]
    constructor
    · rintro ⟨_, hmem, rfl, rfl⟩
      obtain ⟨o, hbelow, rfl⟩ := List.mem_map.mp hmem
      obtain ⟨c, hc, ho⟩ := List.mem_flatMap.mp hbelow
      obtain ⟨p, hp⟩ := (ih c hc).mp ⟨o, ho, rfl, rfl⟩
      obtain ⟨k, hk⟩ := List.mem_iff_getElem?.mp hc
      exact ⟨k :: p, k, p, c, rfl, hk, hp⟩
    · rintro ⟨_, k, p, c, rfl, hk, hc⟩
      have hmem := List.mem_of_getElem? hk
      obtain ⟨o, ho, rfl, rfl⟩ := (ih c hmem).mpr ⟨p, hc⟩
      exact ⟨_, List.mem_map_of_mem (List.mem_flatMap.mpr ⟨c, hmem, ho⟩), rfl, rfl⟩

theorem references_iff_exists_nodeAt? :
    t.references b = true ↔ ∃ p i, t.nodeAt? p = some (paramRef b i) := by
  rw [references_iff_exists_occurrence]
  constructor
  · rintro ⟨o, ho, hb⟩
    obtain ⟨p, hp⟩ := exists_occurrence_iff.mp ⟨o, ho, hb, rfl⟩
    exact ⟨p, o.index, hp⟩
  · rintro ⟨p, i, hp⟩
    obtain ⟨o, ho, hb, -⟩ := exists_occurrence_iff.mpr ⟨p, hp⟩
    exact ⟨o, ho, hb⟩

/-! ## Substitution at a position -/

/-- What a substitution gives at a position is what it gives for the node there. -/
theorem nodeAt?_substitute (h : t.substitute a rs = .ok u) {p : List Nat}
    (hp : t.nodeAt? p = some s) : ∃ s', u.nodeAt? p = some s' ∧ s.substitute a rs = .ok s' := by
  induction p generalizing t u with
  | nil =>
    cases hp
    exact ⟨u, rfl, h⟩
  | cons k p ih =>
    obtain ⟨c, hk, hc⟩ := Option.bind_eq_some_iff.mp hp
    have ht := isParam_eq_false_of_mem_children (List.mem_of_getElem? hk)
    obtain ⟨us, hus, rfl⟩ := (substitute_node_eq_ok_iff ht).mp h
    obtain ⟨v, hv, hcv⟩ := exists_getElem?_of_forall₂ hus hk
    rw [nodeAt?, children_withChildren hus.length_eq.symm, hv]
    exact ih hcv hc

/-- A replacement is put in as it is. -/
theorem nodeAt?_substitute_paramRef (h : t.substitute a rs = .ok u) {p : List Nat}
    (hp : t.nodeAt? p = some (paramRef a i)) : ∃ r, rs[i]? = some r ∧ u.nodeAt? p = some r := by
  obtain ⟨r, hr, hsubstitute⟩ := nodeAt?_substitute h hp
  exact ⟨r, substitute_paramRef_self_eq_ok_iff.mp hsubstitute, hr⟩

/-! ## References after a substitution -/

theorem references_substitute_iff (h : t.substitute a rs = .ok u) :
    u.references b = true ↔ b ≠ a ∧ t.references b = true ∨
      ∃ p i r, t.nodeAt? p = some (paramRef a i) ∧ rs[i]? = some r ∧ r.references b = true := by
  simp only [references_iff_exists_occurrence, occurrences_substitute h, List.mem_flatMap,
    Occurrence.mem_replaced_iff]
  constructor
  · rintro ⟨_, ⟨o, ho, ⟨hne, rfl⟩ | ⟨ha, r, hr, q, hq, rfl⟩⟩, rfl⟩
    · exact .inl ⟨hne, _, ho, rfl⟩
    · obtain ⟨p, hp⟩ := exists_occurrence_iff.mp ⟨o, ho, ha, rfl⟩
      exact .inr ⟨p, _, r, hp, hr, q, hq, rfl⟩
  · rintro (⟨hne, o, ho, rfl⟩ | ⟨p, i, r, hp, hr, q, hq, rfl⟩)
    · exact ⟨o, ⟨o, ho, .inl ⟨hne, rfl⟩⟩, rfl⟩
    · obtain ⟨o, ho, ha, rfl⟩ := exists_occurrence_iff.mpr ⟨p, hp⟩
      exact ⟨_, ⟨o, ho, .inr ⟨ha, r, hr, q, hq, rfl⟩⟩, rfl⟩

/-- A binder is gone if no replacement that is used refers to it. -/
theorem references_substitute_self (h : t.substitute a rs = .ok u)
    (hused : ∀ p i r, t.nodeAt? p = some (paramRef a i) → rs[i]? = some r →
      r.references a = false) : u.references a = false := by
  rw [← Bool.not_eq_true, references_substitute_iff h]
  rintro (⟨hne, -⟩ | ⟨p, i, r, hp, hr, href⟩)
  · exact hne rfl
  · rw [hused p i r hp hr] at href
    cases href

end Ty

/-- An instance of a lambda does not refer to its parameters, if no argument does. -/
theorem TypeLambda.references_instantiate_self {l : TypeLambda} {args : List Ty} {r : Ty}
    (h : l.instantiate args = .ok r) (hargs : ∀ arg ∈ args, arg.references l.binder = false) :
    r.references l.binder = false :=
  Ty.references_substitute_self (substitute_of_instantiate h)
    fun _ _ arg _ harg ↦ hargs arg (List.mem_of_getElem? harg)

namespace Ty

/-- **What a type refers to after a substitution**: to what it referred before, apart from the
binder that is replaced, and to what the replacements refer that come in. So the binder is gone if
none of them refers to it, as after the instantiation of a lambda. They come in as they are, and
nothing is substituted in them. -/
theorem references_substitute {t u : Ty} {a : Binder} {rs : List Ty}
    (h : t.substitute a rs = .ok u) :
    (∀ b, u.references b = true ↔ b ≠ a ∧ t.references b = true ∨
      ∃ p i r, t.nodeAt? p = some (paramRef a i) ∧ rs[i]? = some r ∧ r.references b = true) ∧
    ((∀ p i r, t.nodeAt? p = some (paramRef a i) → rs[i]? = some r → r.references a = false) →
      u.references a = false) ∧
    (∀ p i, t.nodeAt? p = some (paramRef a i) → ∃ r, rs[i]? = some r ∧ u.nodeAt? p = some r) ∧
    ∀ (l : TypeLambda) (args : List Ty) (r : Ty), l.instantiate args = .ok r →
      (∀ arg ∈ args, arg.references l.binder = false) → r.references l.binder = false :=
  ⟨fun _ ↦ references_substitute_iff h, references_substitute_self h,
    fun _ _ ↦ nodeAt?_substitute_paramRef h,
    fun _ _ _ ↦ TypeLambda.references_instantiate_self⟩

/-- Replacements below a nested lambda, in a bound and in an argument. If one of them refers to the
replaced binder itself, the binder stays. -/
theorem references_substitute_nested :
    let x (i : Nat) := paramRef ⟨0⟩ i
    let z := select (paramRef ⟨7⟩ 0) (.term "M")
    let nested (s t : Ty) := lambda ⟨⟨1⟩, [.term "Y"], [⟨nothing, s⟩], applied (paramRef ⟨1⟩ 0) [t]⟩
    let l : TypeLambda := ⟨⟨0⟩, [.term "X", .term "Z"], [.unbounded, .unbounded],
      (x 1).and (nested (x 1) (x 0))⟩
    let u := (x 5).and (nested (x 5) z)
    l.result.substitute ⟨0⟩ [z, x 5] = .ok u ∧
      u.references ⟨0⟩ = true ∧ u.references ⟨1⟩ = true ∧ u.references ⟨7⟩ = true ∧
      u.nodeAt? [1, 1] = some (x 5) ∧
      ∃ r, l.instantiate [z, any] = .ok r ∧ r.references ⟨0⟩ = false := by
  intro x z nested l u
  have h : l.result.substitute ⟨0⟩ [z, x 5] = .ok u := by decide +kernel
  have hr : l.instantiate [z, any] = .ok (any.and (nested any z)) := by decide +kernel
  obtain ⟨hrefs, -, hput, hinstance⟩ := references_substitute h
  have hstays : u.references ⟨0⟩ = true := (hrefs _).mpr (.inr ⟨[0], 1, x 5, rfl, rfl, by decide⟩)
  have hkept : u.references ⟨1⟩ = true := (hrefs _).mpr (.inl ⟨by decide, by decide⟩)
  have hcame : u.references ⟨7⟩ = true :=
    (hrefs _).mpr (.inr ⟨[1, 2, 1], 0, z, rfl, rfl, by decide⟩)
  obtain ⟨_, ⟨⟩, hnode⟩ := hput [1, 1] 1 rfl
  exact ⟨h, hstays, hkept, hcame, hnode, _, hr, hinstance l _ _ hr (by decide)⟩

end Ty

end TreePickle
