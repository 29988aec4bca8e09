import TreePickle.Proofs.MissingReplacement

/-!
# Rebinding

Rebinding changes references and leaves the binders of lambdas alone. What it does is said in three
results: that it composes and when it can be undone (`Ty.rebind_composes_and_inverts`), that it is a
substitution of parameters (`Ty.substitute_paramRefs`), and that a type stays as it is if and only
if it does not refer to the binder (`Ty.references_decides`).

## There and back

References to two binders that have become one cannot be told apart afterwards, so a rebinding can
be undone exactly if the new binder did not occur before: `Ty.rebind_rebind_self_iff`. The way back
turns all references to the new binder, so a type that comes out has none, and that is the whole
proof of the one direction.

## Rebinding as a substitution

Parameters of the new binder can be substituted for those of the old one, each for the one with its
index. The one walk cannot fail and the other one can, so they are compared on successful
substitutions, node by node, and which substitutions succeed is known from the parameters that are
missing. So a lambda can be instantiated with its own parameters exactly if it refers to no others,
and the parameters of a copy give the result of the copy.

Nothing is assumed of the binder of the copy. Whether it is a new one matters for what else can be
told of the copy, and not for its result.

## Types that stay as they are

With no replacements at all every reference is missing one. So the empty substitution succeeds on
exactly those types that do not refer to the binder, which are those that any substitution and any
rebinding leave as they are.
-/

namespace TreePickle

variable {a b c : Binder} {i n : Nat} {t u r : Ty} {rs : List Ty}

namespace Ty

/-! ## There and back -/

/-- The old binder occurs after a rebinding only if it was not replaced by another one. -/
theorem references_rebind_of_ne (hab : a ≠ b) : (t.rebind a b).references a = false := by
  rw [← Bool.not_eq_true, references_rebind_iff]
  rintro (⟨-, hne⟩ | ⟨-, heq⟩)
  · exact hne rfl
  · exact hab heq

theorem references_rebind_new :
    (t.rebind a b).references b = true ↔ t.references a = true ∨ t.references b = true := by
  rw [references_rebind_iff]
  constructor
  · rintro (⟨hb, -⟩ | ⟨ha, -⟩)
    · exact .inr hb
    · exact .inl ha
  · rintro (ha | hb)
    · exact .inr ⟨ha, rfl⟩
    · by_cases hba : b = a
      · subst hba
        exact .inr ⟨hb, rfl⟩
      · exact .inl ⟨hb, hba⟩

theorem references_rebind_other (hca : c ≠ a) (hcb : c ≠ b) :
    (t.rebind a b).references c = t.references c := by
  rw [Bool.eq_iff_iff, references_rebind_iff]
  constructor
  · rintro (⟨hc, -⟩ | ⟨-, heq⟩)
    · exact hc
    · exact absurd heq hcb
  · intro hc
    exact .inl ⟨hc, hca⟩

/-- What refers to the new binder after a rebinding is turned back as a whole, so that nothing is
left that referred to it before. -/
theorem rebind_rebind_self_iff :
    (t.rebind a b).rebind b a = t ↔ a = b ∨ t.references b = false := by
  constructor
  · intro h
    by_cases hab : a = b
    · exact .inl hab
    · have hb := references_rebind_of_ne (t := t.rebind a b) (Ne.symm hab)
      rw [h] at hb
      exact .inr hb
  · rintro (rfl | hb)
    · rw [rebind_self, rebind_self]
    · rw [rebind_rebind hb, rebind_self]

/-- **Rebinding composes and inverts.** A binder that does not occur can stand in between, and back
from the new binder to the old one there is a way exactly if the new one did not occur. All other
binders occur as before. -/
theorem rebind_composes_and_inverts (t : Ty) (a b : Binder) :
    (t.references b = false → ∀ c, (t.rebind a b).rebind b c = t.rebind a c) ∧
    ((t.rebind a b).rebind b a = t ↔ a = b ∨ t.references b = false) ∧
    (a ≠ b → (t.rebind a b).references a = false ∧
      ((t.rebind a b).references b = true ↔ t.references a = true ∨ t.references b = true) ∧
      ∀ c, c ≠ a → c ≠ b → (t.rebind a b).references c = t.references c) :=
  ⟨fun hb _ ↦ rebind_rebind hb, rebind_rebind_self_iff, fun hab ↦
    ⟨references_rebind_of_ne hab, references_rebind_new, fun _ ↦ references_rebind_other⟩⟩

/-- A nested lambda with the old binder, and a reference to another one in its bound. -/
theorem rebind_composes_and_inverts_nested :
    let t := (member (paramRef ⟨0⟩ 0) "T").or
      (lambda ⟨⟨0⟩, [.term "Y"], [⟨paramRef ⟨3⟩ 1, any⟩], applied (paramRef ⟨0⟩ 2) [any]⟩)
    t.references ⟨1⟩ = false ∧ (⟨0⟩ : Binder) ≠ ⟨1⟩ ∧ (⟨0⟩ : Binder) ≠ ⟨3⟩ ∧
      (t.rebind ⟨0⟩ ⟨1⟩).rebind ⟨1⟩ ⟨2⟩ = t.rebind ⟨0⟩ ⟨2⟩ ∧
      (t.rebind ⟨0⟩ ⟨1⟩).rebind ⟨1⟩ ⟨0⟩ = t ∧
      (t.rebind ⟨0⟩ ⟨1⟩).references ⟨0⟩ = false ∧ (t.rebind ⟨0⟩ ⟨1⟩).references ⟨3⟩ = true ∧
      (t.rebind ⟨0⟩ ⟨3⟩).rebind ⟨3⟩ ⟨0⟩ ≠ t := by
  intro t
  have hnew : t.references ⟨1⟩ = false := by decide
  have hne : (⟨0⟩ : Binder) ≠ ⟨1⟩ := by decide
  have hne' : (⟨0⟩ : Binder) ≠ ⟨3⟩ := by decide
  obtain ⟨hcomposes, hinverts, hreferences⟩ := rebind_composes_and_inverts t ⟨0⟩ ⟨1⟩
  obtain ⟨hold, -, hother⟩ := hreferences hne
  have hkept : (t.rebind ⟨0⟩ ⟨1⟩).references ⟨3⟩ = true := by
    rw [hother ⟨3⟩ (by decide) (by decide)]
    decide
  -- the bound refers to the binder that the others are turned into
  have hmerged : ¬((⟨0⟩ : Binder) = ⟨3⟩ ∨ t.references ⟨3⟩ = false) := by decide
  exact ⟨hnew, hne, hne', hcomposes hnew ⟨2⟩, hinverts.mpr (.inr hnew), hold, hkept,
    mt (rebind_composes_and_inverts t ⟨0⟩ ⟨3⟩).2.1.mp hmerged⟩

end Ty

/-! ## Rebinding as a substitution -/

/-- References to the first `n` parameters of a binder. -/
def Binder.paramRefs (b : Binder) (n : Nat) : List Ty := (List.range n).map (Ty.paramRef b)

/-- References to all parameters of a lambda. -/
def TypeLambda.paramRefs (l : TypeLambda) : List Ty := l.binder.paramRefs l.arity

namespace Binder

@[simp] theorem length_paramRefs : (b.paramRefs n).length = n := by
  rw [paramRefs, List.length_map, List.length_range]

theorem eq_of_getElem?_paramRefs (h : (b.paramRefs n)[i]? = some r) : r = .paramRef b i := by
  rw [paramRefs, List.getElem?_map, Option.map_eq_some_iff] at h
  obtain ⟨j, hj, rfl⟩ := h
  obtain ⟨_, rfl⟩ := List.getElem?_eq_some_iff.mp hj
  rw [List.getElem_range]

end Binder

namespace Ty

/-- A substitution of the parameters of another binder, each for the one with its index, gives what
the rebinding gives, if there are enough of them. -/
theorem eq_rebind_of_substitute_paramRefs (h : t.substitute a (b.paramRefs n) = .ok u) :
    u = t.rebind a b := by
  refine substitute_induction (P := fun t u ↦ u = t.rebind a b) ?_ ?_ ?_ h
  · intro i r hr
    rw [rebind_paramRef, if_pos rfl]
    exact Binder.eq_of_getElem?_paramRefs hr
  · intro c i hc
    rw [rebind_paramRef, if_neg hc]
  · intro t us ht hus
    have hmap : us = t.children.map (·.rebind a b) := by
      rw [← List.forall₂_eq_eq_eq, List.forall₂_map_right_iff]
      exact hus.flip
    rw [rebind_node ht, hmap]

theorem substitute_paramRefs_eq_rebind_iff :
    t.substitute a (b.paramRefs n) = .ok (t.rebind a b) ↔
      ∀ p i, t.nodeAt? p = some (paramRef a i) → i < n := by
  have hok : (∃ u, t.substitute a (b.paramRefs n) = .ok u) ↔
      ∀ p i, t.nodeAt? p = some (paramRef a i) → i < n := by
    rw [exists_substitute_eq_ok_iff, Binder.length_paramRefs]
  constructor
  · intro h
    exact hok.mp ⟨_, h⟩
  · intro h
    obtain ⟨u, hu⟩ := hok.mpr h
    rw [hu, eq_rebind_of_substitute_paramRefs hu]

end Ty

/-- An instance of a lambda for the parameters of another binder is its result with that binder. -/
theorem TypeLambda.instantiate_paramRefs_eq_rebind_iff {l : TypeLambda} :
    l.instantiate (b.paramRefs l.arity) = .ok (l.result.rebind l.binder b) ↔
      ∀ p i, l.result.nodeAt? p = some (l.paramRef i) → i < l.arity := by
  rw [instantiate_of_length_eq Binder.length_paramRefs]
  exact Ty.substitute_paramRefs_eq_rebind_iff

namespace Ty

/-- **Rebinding is a substitution of parameters**, exactly if all parameters that occur are among
those that are given. So a lambda that refers only to parameters that it has can be instantiated
with its own ones, which gives its result, and with those of a copy, which gives the result of the
copy. -/
theorem substitute_paramRefs :
    (∀ (t : Ty) (a b : Binder) (n : Nat),
      t.substitute a (b.paramRefs n) = .ok (t.rebind a b) ↔
        ∀ p i, t.nodeAt? p = some (paramRef a i) → i < n) ∧
    ∀ l : TypeLambda,
      (l.instantiate l.paramRefs = .ok l.result ↔
        ∀ p i, l.result.nodeAt? p = some (l.paramRef i) → i < l.arity) ∧
      ∀ supply : BinderSupply,
        let copy := (l.freshCopy.run supply).1
        l.instantiate copy.paramRefs = .ok copy.result ↔
          ∀ p i, l.result.nodeAt? p = some (l.paramRef i) → i < l.arity := by
  refine ⟨fun t a b n ↦ substitute_paramRefs_eq_rebind_iff, fun l ↦ ⟨?_, fun supply ↦ ?_⟩⟩
  · rw [← TypeLambda.instantiate_paramRefs_eq_rebind_iff (b := l.binder), rebind_self]
    rfl
  · exact TypeLambda.instantiate_paramRefs_eq_rebind_iff

/-! ## Types that stay as they are -/

theorem rebind_of_references_eq_false (h : t.references a = false) : t.rebind a b = t := by
  have hkept : t.substitute a (b.paramRefs 0) = .ok t := substitute_of_references_eq_false h
  exact (eq_rebind_of_substitute_paramRefs hkept).symm

theorem rebind_ne_self (hab : a ≠ b) (h : t.references a = true) : t.rebind a b ≠ t := by
  intro heq
  have hgone := references_rebind_of_ne (t := t) hab
  rw [heq, h] at hgone
  cases hgone

/-- Without replacements, every reference is missing one. -/
theorem exists_substitute_nil_eq_error (h : t.references a = true) :
    ∃ i, t.substitute a [] = .error (.noReplacement a i 0) := by
  obtain ⟨p, j, hp⟩ := references_iff_exists_nodeAt?.mp h
  have hfails : ∃ f, t.substitute a [] = .error f :=
    exists_substitute_eq_error_iff.mpr ⟨p, j, hp, Nat.zero_le j⟩
  obtain ⟨f, hf⟩ := hfails
  obtain ⟨-, i, -, rfl⟩ := substitute_eq_error_iff.mp hf
  exact ⟨i, hf⟩

/-- **Whether a type refers to a binder decides whether it is rewritten.** If it does not, any
substitution for the binder gives it back, and so does any rebinding. If it does, every rebinding
to another binder gives another type, and without replacements the substitution fails. -/
theorem references_decides (t : Ty) (b : Binder) :
    (t.references b = false →
      (∀ rs, t.substitute b rs = .ok t) ∧ ∀ c, t.rebind b c = t) ∧
    (t.references b = true →
      (∀ c, c ≠ b → t.rebind b c ≠ t) ∧ ∃ i, t.substitute b [] = .error (.noReplacement b i 0)) :=
  ⟨fun h ↦ ⟨fun _ ↦ substitute_of_references_eq_false h, fun _ ↦ rebind_of_references_eq_false h⟩,
    fun h ↦ ⟨fun _ hc ↦ rebind_ne_self hc.symm h, exists_substitute_nil_eq_error h⟩⟩

/-- A reference in the bound of a nested lambda, whose own binder is not a reference. -/
theorem references_decides_bound :
    let t := (ofText "Int").and
      (lambda ⟨⟨1⟩, [.term "Y"], [⟨nothing, member (paramRef ⟨0⟩ 4) "T"⟩], applied any [any]⟩)
    t.references ⟨1⟩ = false ∧ t.references ⟨0⟩ = true ∧
      t.substitute ⟨1⟩ [] = .ok t ∧ t.rebind ⟨1⟩ ⟨0⟩ = t ∧ t.rebind ⟨0⟩ ⟨1⟩ ≠ t ∧
      ∃ i, t.substitute ⟨0⟩ [] = .error (.noReplacement ⟨0⟩ i 0) := by
  intro t
  have hnot : t.references ⟨1⟩ = false := by decide
  have href : t.references ⟨0⟩ = true := by decide
  obtain ⟨hsubstitute, hrebind⟩ := (references_decides t ⟨1⟩).1 hnot
  obtain ⟨hchanges, hfails⟩ := (references_decides t ⟨0⟩).2 href
  exact ⟨hnot, href, hsubstitute [], hrebind ⟨0⟩, hchanges ⟨1⟩ (by decide), hfails⟩

end Ty

end TreePickle
