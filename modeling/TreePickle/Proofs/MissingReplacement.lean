import TreePickle.Proofs.References

/-!
# Parameters without a replacement

A substitution fails exactly if a parameter of the replaced binder occurs for which the list of
replacements is too short, `Ty.exists_substitute_eq_error_iff`. The walk ends at the first such
reference, and the fault names it, `Ty.substitute_eq_error_iff`.

## What comes first

What comes first is told by positions: the order of a walk, children from left to right and each
with all that is below it, is the lexicographic order of positions. `Ty.IsFirstMissing` says of a
position that there is a reference without a replacement, and that there is none before. There is at
most one such position, and so at most one parameter to be named, `Ty.IsFirstMissing.unique`.

## The proof

That a fault comes from the first missing parameter is shown by induction on the type. In a node the
first failing child decides: the children before it have been substituted in without a fault, hence
nothing is missing in them, and what is missing first in the child is missing first in the node
(`Ty.IsFirstMissing.node`). The converse needs no second induction. If a parameter is missing, the
substitution has some fault, because one without a fault finds replacements for all parameters, and
the fault it has names a first missing one, of which there is only one.

## Instantiation

A wrong number of arguments is found before the result of the lambda is looked at, and a
substitution never reports one, so the two faults of an instantiation exclude each other. With the
right number of arguments, the parameters that are missing are those that the lambda does not have.
-/

namespace TreePickle

namespace Ty

/-! ## The first missing parameter -/

/-- The reference at `p` is to a parameter of `a` that is none of the first `n`, and no such
reference stands at a position before `p`. -/
structure IsFirstMissing (t : Ty) (a : Binder) (n : Nat) (p : List Nat) (i : Nat) : Prop where
  nodeAt?_eq : t.nodeAt? p = some (paramRef a i)
  le_index : n ≤ i
  not_lt : ∀ q j, t.nodeAt? q = some (paramRef a j) → n ≤ j → ¬q < p

namespace IsFirstMissing

variable {a : Binder} {n i j : Nat} {t c : Ty} {p q : List Nat}

theorem unique (h : t.IsFirstMissing a n p i) (h' : t.IsFirstMissing a n q j) : i = j := by
  have hp : ¬q < p := h.not_lt q j h'.nodeAt?_eq h'.le_index
  have hq : ¬p < q := h'.not_lt p i h.nodeAt?_eq h.le_index
  obtain rfl : p = q := List.le_antisymm hp hq
  have heq : some (paramRef a i) = some (paramRef a j) := h.nodeAt?_eq.symm.trans h'.nodeAt?_eq
  cases heq
  rfl

theorem paramRef (hi : n ≤ i) : (paramRef a i).IsFirstMissing a n [] i where
  nodeAt?_eq := rfl
  le_index := hi
  not_lt q _ _ _ := List.not_lt_nil q

/-- What is missing first in a child is missing first in the node, if nothing is missing in the
children before. -/
theorem node (ht : t.isParam = false) {k : Nat} (hc : t.children[k]? = some c)
    (h : c.IsFirstMissing a n p i)
    (hbefore : ∀ k' < k, ∀ d ∈ t.children[k']?, ∀ q j, d.nodeAt? q = some (.paramRef a j) → j < n) :
    t.IsFirstMissing a n (k :: p) i where
  nodeAt?_eq := (nodeAt?_eq_paramRef_iff ht).mpr ⟨k, p, c, rfl, hc, h.nodeAt?_eq⟩
  le_index := h.le_index
  not_lt := by
    intro q' j hq' hj hlt
    obtain ⟨k', q, d, rfl, hd, hq⟩ := (nodeAt?_eq_paramRef_iff ht).mp hq'
    rcases List.cons_lt_cons_iff.mp hlt with hk | ⟨rfl, hqp⟩
    · exact absurd (hbefore k' hk d hd q j hq) (Nat.not_lt.mpr hj)
    · cases hc.symm.trans hd
      exact h.not_lt q j hq hj hqp

end IsFirstMissing

/-! ## Faults of a substitution -/

section

variable {ε α β : Type}

theorem exists_eq_error_iff {x : Except ε α} : (∃ e, x = .error e) ↔ ¬∃ u, x = .ok u := by
  cases x with
  | error e => simp
  | ok u => simp

theorem bind_eq_error_iff {x : Except ε α} {f : α → Except ε β} {e : ε} :
    (x >>= f) = .error e ↔ x = .error e ∨ ∃ u, x = .ok u ∧ f u = .error e := by
  cases x with
  | error e' =>
    constructor
    · rintro ⟨⟩
      exact .inl rfl
    · rintro (⟨⟨⟩⟩ | ⟨_, ⟨⟩, -⟩)
      rfl
  | ok u =>
    constructor
    · intro h
      exact .inr ⟨u, rfl, h⟩
    · rintro (⟨⟨⟩⟩ | ⟨_, ⟨⟩, h⟩)
      exact h

/-- A list fails with the fault of an entry before which no other one has a fault. -/
theorem exists_of_mapM_eq_error {f : α → Except ε β} {xs : List α} {e : ε}
    (h : xs.mapM f = .error e) : ∃ (k : Nat) (x : α), xs[k]? = some x ∧ f x = .error e ∧
      ∀ k' < k, ∀ y ∈ xs[k']?, ∃ v, f y = .ok v := by
  induction xs with
  | nil => cases h
  | cons x xs ih =>
    rw [List.mapM_cons] at h
    rcases bind_eq_error_iff.mp h with hx | ⟨v, hx, hrest⟩
    · exact ⟨0, x, rfl, hx, nofun⟩
    · rcases bind_eq_error_iff.mp hrest with hxs | ⟨_, -, ⟨⟩⟩
      obtain ⟨k, y, hy, hfy, hbefore⟩ := ih hxs
      refine ⟨k + 1, y, hy, hfy, ?_⟩
      rintro (_ | k') hk z hz
      · cases hz
        exact ⟨v, hx⟩
      · exact hbefore k' (Nat.lt_of_succ_lt_succ hk) z hz

end

variable {a : Binder} {i : Nat} {t u : Ty} {rs : List Ty} {f : Fault} {p : List Nat}

/-- Where a substitution has no fault, it has replacements for all parameters that occur. -/
theorem lt_length_of_substitute (h : t.substitute a rs = .ok u)
    (hp : t.nodeAt? p = some (paramRef a i)) : i < rs.length := by
  obtain ⟨r, hr, -⟩ := nodeAt?_substitute_paramRef h hp
  exact (List.getElem?_eq_some_iff.mp hr).1

theorem substitute_paramRef_eq_error {c : Binder}
    (h : (paramRef c i).substitute a rs = .error f) :
    c = a ∧ rs.length ≤ i ∧ f = .noReplacement a i rs.length := by
  by_cases hc : c = a
  · subst hc
    rw [substitute_paramRef_self] at h
    cases hr : rs[i]? with
    | some r =>
      rw [hr] at h
      cases h
    | none =>
      rw [hr] at h
      cases h
      exact ⟨rfl, List.getElem?_eq_none_iff.mp hr, rfl⟩
  · rw [substitute_paramRef_of_ne hc] at h
    cases h

/-- A fault comes from the parameter that is missing first. -/
theorem exists_isFirstMissing_of_substitute (h : t.substitute a rs = .error f) :
    ∃ p i, t.IsFirstMissing a rs.length p i ∧ f = .noReplacement a i rs.length := by
  induction t using induction_params with
  | paramRef c i =>
    obtain ⟨rfl, hi, hf⟩ := substitute_paramRef_eq_error h
    exact ⟨[], i, .paramRef hi, hf⟩
  | node t ht ih =>
    rw [substitute_node ht, map_eq_pure_bind] at h
    rcases bind_eq_error_iff.mp h with h | ⟨_, -, ⟨⟩⟩
    obtain ⟨k, c, hk, hc, hbefore⟩ := exists_of_mapM_eq_error h
    obtain ⟨p, i, hfirst, hf⟩ := ih c (List.mem_of_getElem? hk) hc
    refine ⟨k :: p, i, .node ht hk hfirst ?_, hf⟩
    -- the children before were substituted in, so nothing is missing in them
    intro k' hk' d hd q j hq
    obtain ⟨v, hv⟩ := hbefore k' hk' d hd
    exact lt_length_of_substitute hv hq

/-- A substitution fails exactly if a parameter is missing. -/
theorem exists_substitute_eq_error_iff : (∃ f, t.substitute a rs = .error f) ↔
    ∃ p i, t.nodeAt? p = some (paramRef a i) ∧ rs.length ≤ i := by
  constructor
  · rintro ⟨f, h⟩
    obtain ⟨p, i, hfirst, -⟩ := exists_isFirstMissing_of_substitute h
    exact ⟨p, i, hfirst.nodeAt?_eq, hfirst.le_index⟩
  · rintro ⟨p, i, hp, hi⟩
    cases h : t.substitute a rs with
    | ok u => exact absurd (lt_length_of_substitute h hp) (Nat.not_lt.mpr hi)
    | error f => exact ⟨f, rfl⟩

theorem exists_substitute_eq_ok_iff : (∃ u, t.substitute a rs = .ok u) ↔
    ∀ p i, t.nodeAt? p = some (paramRef a i) → i < rs.length := by
  rw [← not_iff_not, ← exists_eq_error_iff, exists_substitute_eq_error_iff]
  simp only [not_forall, Nat.not_lt, exists_prop]

/-- The fault of a substitution names the parameter that is missing first. -/
theorem substitute_eq_error_iff : t.substitute a rs = .error f ↔
    ∃ p i, t.IsFirstMissing a rs.length p i ∧ f = .noReplacement a i rs.length := by
  constructor
  · intro h
    exact exists_isFirstMissing_of_substitute h
  · rintro ⟨p, i, hfirst, rfl⟩
    obtain ⟨f, h⟩ :=
      exists_substitute_eq_error_iff.mpr ⟨p, i, hfirst.nodeAt?_eq, hfirst.le_index⟩
    obtain ⟨q, j, hfirst', rfl⟩ := exists_isFirstMissing_of_substitute h
    rw [h, hfirst.unique hfirst']

end Ty

/-! ## Faults of an instantiation -/

namespace TypeLambda

variable {l : TypeLambda} {args : List Ty}

theorem instantiate_of_length_ne (h : args.length ≠ l.arity) :
    l.instantiate args = .error (.arityMismatch l.arity args.length) :=
  if_pos h

theorem instantiate_of_length_eq (h : args.length = l.arity) :
    l.instantiate args = l.result.substitute l.binder args :=
  if_neg (not_not.mpr h)

/-- A wrong number of arguments is found before the result of the lambda is looked at, and a
substitution never reports it. -/
theorem instantiate_eq_arityMismatch_iff {expected actual : Nat} :
    l.instantiate args = .error (.arityMismatch expected actual) ↔
      args.length ≠ l.arity ∧ expected = l.arity ∧ actual = args.length := by
  constructor
  · intro h
    by_cases hargs : args.length = l.arity
    · rw [instantiate_of_length_eq hargs] at h
      obtain ⟨_, _, -, ⟨⟩⟩ := Ty.substitute_eq_error_iff.mp h
    · rw [instantiate_of_length_ne hargs] at h
      cases h
      exact ⟨hargs, rfl, rfl⟩
  · rintro ⟨hargs, rfl, rfl⟩
    exact instantiate_of_length_ne hargs

end TypeLambda

namespace Ty

/-- **When a substitution fails, and how.** It fails exactly if there is no replacement for some
parameter, anywhere in the type, and its fault names the first one in the order of a walk. An
instantiation fails exactly if the number of arguments is wrong, or else if the result of the lambda
refers to a parameter that the lambda does not have. -/
theorem faults_substitute :
    (∀ (t : Ty) (a : Binder) (rs : List Ty),
      ((∃ f, t.substitute a rs = .error f) ↔
        ∃ p i, t.nodeAt? p = some (paramRef a i) ∧ rs.length ≤ i) ∧
      ∀ f, t.substitute a rs = .error f ↔
        ∃ p i, t.IsFirstMissing a rs.length p i ∧ f = .noReplacement a i rs.length) ∧
    ∀ (l : TypeLambda) (args : List Ty),
      (∀ expected actual, l.instantiate args = .error (.arityMismatch expected actual) ↔
        args.length ≠ l.arity ∧ expected = l.arity ∧ actual = args.length) ∧
      (args.length = l.arity →
        ((∃ f, l.instantiate args = .error f) ↔
          ∃ p i, l.result.nodeAt? p = some (l.paramRef i) ∧ l.arity ≤ i) ∧
        ∀ f, l.instantiate args = .error f ↔
          ∃ p i, l.result.IsFirstMissing l.binder l.arity p i ∧
            f = .noReplacement l.binder i l.arity) := by
  refine ⟨fun t a rs ↦ ⟨exists_substitute_eq_error_iff, fun f ↦ substitute_eq_error_iff⟩,
    fun l args ↦ ⟨fun _ _ ↦ TypeLambda.instantiate_eq_arityMismatch_iff, fun hargs ↦ ?_⟩⟩
  rw [TypeLambda.instantiate_of_length_eq hargs, ← hargs]
  exact ⟨exists_substitute_eq_error_iff, fun f ↦ substitute_eq_error_iff⟩

/-- A lambda that refers to three parameters that it does not have: first in the upper bound of a
nested lambda, then in the result of that, and then behind it. -/
theorem faults_substitute_nested :
    let x (i : Nat) := paramRef ⟨0⟩ i
    let nested : TypeLambda := ⟨⟨1⟩, [.term "Y"], [⟨x 0, member (x 5) "T"⟩],
      applied (x 9) [paramRef ⟨1⟩ 7]⟩
    let l : TypeLambda := ⟨⟨0⟩, [.term "X", .term "Z"], [.unbounded, .unbounded],
      applied (x 1) [lambda nested, x 3]⟩
    [any, nothing].length = l.arity ∧
      l.instantiate [any] = .error (.arityMismatch 2 1) ∧
      l.instantiate [any, nothing] = .error (.noReplacement ⟨0⟩ 5 2) ∧
      (∃ p, l.result.IsFirstMissing ⟨0⟩ 2 p 5) ∧
      ∃ f, l.result.substitute ⟨0⟩ [any, nothing, any] = .error f := by
  intro x nested l
  obtain ⟨hsubstitute, hinstantiate⟩ := faults_substitute
  have hargs : [any, nothing].length = l.arity := rfl
  have harity : l.instantiate [any] = .error (.arityMismatch 2 1) :=
    ((hinstantiate l [any]).1 2 1).mpr ⟨by decide, rfl, rfl⟩
  have hfault : l.instantiate [any, nothing] = .error (.noReplacement ⟨0⟩ 5 2) := by
    decide +kernel
  obtain ⟨p, _, hfirst, ⟨⟩⟩ := (((hinstantiate l [any, nothing]).2 hargs).2 _).mp hfault
  -- three replacements are still too few
  have hmissing : ∃ p i, l.result.nodeAt? p = some (x i) ∧ 3 ≤ i := ⟨[2], 3, rfl, Nat.le_refl 3⟩
  exact ⟨hargs, harity, hfault, ⟨p, hfirst⟩, (hsubstitute l.result ⟨0⟩ _).1.mpr hmissing⟩

end Ty

end TreePickle
