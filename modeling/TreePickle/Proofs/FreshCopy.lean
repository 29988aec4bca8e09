import TreePickle.Proofs.Parameters
import TreePickle.Ty.Lambda

/-!
# Copies of lambdas

A copy of a lambda has another binder, and nothing else tells the two apart: they are applied to
the same arguments with the same result, and the copy can be turned back. `TypeLambda.IsCopy` says
so, and `TypeLambda.isCopy_freshCopy` proves it of fresh copies.

## Outcomes up to a binder

Faults name the binder that has no replacement, and that is the one of the lambda in the one case
and the one of the copy in the other. Outcomes are therefore compared by `Ty.Agrees`: the same
value, or the same fault but for that name. It is closed under sequences and under `mapM`, so the
comparison of two substitutions goes from the children to the node as an equation would. At a
reference to the new binder it would be wrong, which is why the lambda must not have one.

## The binder of a copy

Numbers of binders are used again after the last one. So the new binder is not new by being minted,
and the hypothesis is about the lambda: it does not refer to the binder that is minted. When that is
so in a run of a program is another question and is not asked here.

Binders of nested lambdas are of no account. A nested lambda may have the same binder as the copied
one or as the copy, since references are all that a substitution and a rebinding look at.

## Bounds

A substitution in the bounds of a parameter gives outcomes that agree, for the lower bound, for the
upper one and for both as one type. Each is a type of its own, and `TypeLambda.IsCopy` goes through
the three with one statement.
-/

namespace TreePickle

namespace Ty

/-! ## Outcomes up to a binder -/

section

variable {α β γ : Type} {a b : Binder}

/-- The same value or the same fault, but for the binder that a fault names: `a` in the one and `b`
in the other. -/
inductive Agrees (a b : Binder) : Except Fault α → Except Fault α → Prop
  | ok (v : α) : Agrees a b (.ok v) (.ok v)
  | noReplacement (index count : Nat) :
      Agrees a b (.error (.noReplacement a index count)) (.error (.noReplacement b index count))
  | arityMismatch (expected actual : Nat) :
      Agrees a b (.error (.arityMismatch expected actual)) (.error (.arityMismatch expected actual))

namespace Agrees

theorem bind {x y : Except Fault α} {f g : α → Except Fault β} (h : Agrees a b x y)
    (hfg : ∀ v, Agrees a b (f v) (g v)) : Agrees a b (x >>= f) (y >>= g) := by
  cases h with
  | ok v => exact hfg v
  | noReplacement index count => exact .noReplacement index count
  | arityMismatch expected actual => exact .arityMismatch expected actual

theorem map {x y : Except Fault α} (h : Agrees a b x y) (k : α → β) :
    Agrees a b (k <$> x) (k <$> y) := by
  rw [map_eq_pure_bind, map_eq_pure_bind]
  exact h.bind fun v ↦ .ok (k v)

theorem mapM {f : α → Except Fault γ} {g : β → Except Fault γ} {xs : List α} {ys : List β}
    (h : List.Forall₂ (fun x y ↦ Agrees a b (f x) (g y)) xs ys) :
    Agrees a b (xs.mapM f) (ys.mapM g) := by
  induction h with
  | nil => exact .ok []
  | cons hxy _ ih =>
    rw [List.mapM_cons, List.mapM_cons]
    exact hxy.bind fun v ↦ ih.bind fun vs ↦ .ok (v :: vs)

end Agrees

/-- Substituting for a binder that has taken the place of another one is substituting for that. -/
theorem agrees_substitute_rebind {t : Ty} (h : t.references b = false) (rs : List Ty) :
    Agrees a b (t.substitute a rs) ((t.rebind a b).substitute b rs) := by
  induction t using induction_params with
  | paramRef c i =>
    rw [rebind_paramRef]
    by_cases hca : c = a
    · subst hca
      rw [if_pos rfl, substitute_paramRef_self, substitute_paramRef_self]
      cases rs[i]? with
      | none => exact .noReplacement i rs.length
      | some r => exact .ok r
    · have hcb : c ≠ b := by rwa [← Bool.not_eq_true, references_paramRef] at h
      rw [if_neg hca, substitute_paramRef_of_ne hca, substitute_paramRef_of_ne hcb]
      exact .ok _
  | node t ht ih =>
    have hchildren := references_of_mem_children ht h
    rw [substitute_node ht, rebind_node ht, substitute_withChildren ht (List.length_map _)]
    refine Agrees.map (Agrees.mapM ?_) t.withChildren
    rw [List.forall₂_map_right_iff, List.forall₂_same]
    exact fun c hc ↦ ih c hc (hchildren c hc)

end

theorem rebind_bounds (a b : Binder) (c : TypeBounds) :
    (bounds c).rebind a b = bounds ⟨c.low.rebind a b, c.high.rebind a b⟩ :=
  rebind_node rfl

end Ty

namespace TypeLambda

open Ty

/-- `c` is `l` with another binder. -/
structure IsCopy (l c : TypeLambda) : Prop where
  paramNames_eq : c.paramNames = l.paramNames
  arity_eq : c.arity = l.arity
  length_paramBounds : c.paramBounds.length = l.paramBounds.length
  /-- The copy is on its own: it does not refer to the parameters of the lambda. -/
  references_binder : (lambda c).references l.binder = false
  instantiate_agrees (args : List Ty) :
    Agrees l.binder c.binder (l.instantiate args) (c.instantiate args)
  /-- Substitution in the bounds of a parameter, in each of them and in both. -/
  substitute_agrees (args : List Ty) : List.Forall₂ (fun p q ↦
    ∀ part ∈ [TypeBounds.low, TypeBounds.high, bounds], Agrees l.binder c.binder
      ((part p).substitute l.binder args) ((part q).substitute c.binder args))
    l.paramBounds c.paramBounds
  /-- The copy can be turned back, in its bounds and in its result. -/
  withBinder_binder : c.withBinder l.binder = l

variable {l : TypeLambda} {a b : Binder}

theorem arity_withBinder : (l.withBinder b).arity = l.arity := rfl

theorem paramBounds_withBinder : (l.withBinder b).paramBounds =
    l.paramBounds.map fun p ↦ ⟨p.low.rebind l.binder b, p.high.rebind l.binder b⟩ := rfl

theorem references_eq_false_iff : (lambda l).references b = false ↔
    (∀ p ∈ l.paramBounds, (bounds p).references b = false) ∧ l.result.references b = false := by
  simp

theorem references_withBinder (h : (lambda l).references b = false) :
    (lambda (l.withBinder b)).references l.binder = false := by
  rw [references_eq_false_iff] at h ⊢
  refine ⟨?_, references_rebind_self h.2⟩
  rw [paramBounds_withBinder, List.forall_mem_map]
  intro p hp
  rw [← rebind_bounds]
  exact references_rebind_self (h.1 p hp)

theorem withBinder_withBinder (h : (lambda l).references b = false) :
    (l.withBinder b).withBinder l.binder = l := by
  have hback (t : Ty) (ht : t.references b = false) :
      (t.rebind l.binder b).rebind b l.binder = t := by rw [rebind_rebind ht, rebind_self]
  rw [references_eq_false_iff] at h
  obtain ⟨a, names, bs, r⟩ := l
  have hbounds : ∀ p ∈ bs, (⟨(p.low.rebind a b).rebind b a, (p.high.rebind a b).rebind b a⟩ :
      TypeBounds) = p := by
    intro p hp
    have hp := hback (bounds p) (h.1 p hp)
    rwa [rebind_bounds, rebind_bounds, bounds.injEq] at hp
  rw [withBinder, withBinder, List.map_map, hback r h.2]
  congr
  exact (List.map_congr_left hbounds).trans (List.map_id' bs)

theorem agrees_instantiate (h : (lambda l).references b = false) (args : List Ty) :
    Agrees l.binder b (l.instantiate args) ((l.withBinder b).instantiate args) := by
  rw [references_eq_false_iff] at h
  rw [instantiate, instantiate, arity_withBinder]
  by_cases hargs : args.length ≠ l.arity
  · rw [if_pos hargs, if_pos hargs]
    exact .arityMismatch l.arity args.length
  · rw [if_neg hargs, if_neg hargs]
    exact agrees_substitute_rebind h.2 args

theorem agrees_substitute_bounds {p : TypeBounds} (h : (bounds p).references b = false)
    (args : List Ty) {part : TypeBounds → Ty}
    (hpart : part ∈ [TypeBounds.low, TypeBounds.high, bounds]) :
    Agrees a b ((part p).substitute a args)
      ((part ⟨p.low.rebind a b, p.high.rebind a b⟩).substitute b args) := by
  have hsides := h
  rw [references_bounds, Bool.or_eq_false_iff] at hsides
  simp only [List.mem_cons, List.not_mem_nil, or_false] at hpart
  rcases hpart with rfl | rfl | rfl
  · exact agrees_substitute_rebind hsides.1 args
  · exact agrees_substitute_rebind hsides.2 args
  · rw [← rebind_bounds]
    exact agrees_substitute_rebind h args

theorem isCopy_withBinder (h : (lambda l).references b = false) : l.IsCopy (l.withBinder b) where
  paramNames_eq := rfl
  arity_eq := arity_withBinder
  length_paramBounds := List.length_map _
  references_binder := references_withBinder h
  instantiate_agrees := agrees_instantiate h
  substitute_agrees args := by
    rw [references_eq_false_iff] at h
    rw [paramBounds_withBinder, List.forall₂_map_right_iff, List.forall₂_same]
    intro p hp part hpart
    exact agrees_substitute_bounds (h.1 p hp) args hpart
  withBinder_binder := withBinder_withBinder h

/-- **A fresh copy is a copy**, if the lambda does not refer to the binder that is minted. -/
theorem isCopy_freshCopy (l : TypeLambda) (supply : BinderSupply)
    (h : (lambda l).references ⟨supply.next⟩ = false) :
    (l.freshCopy.run supply).1.binder = ⟨supply.next⟩ ∧ l.IsCopy (l.freshCopy.run supply).1 :=
  ⟨rfl, isCopy_withBinder h⟩

/-- A lambda that holds another one with the same binder, and refers to a parameter that it does
not have. -/
theorem isCopy_freshCopy_nested :
    let p := Ty.paramRef ⟨4⟩
    let inner : TypeLambda := ⟨⟨4⟩, [], [⟨nothing, p 1⟩], Ty.paramRef ⟨2⟩ 0⟩
    let l : TypeLambda := ⟨⟨4⟩, [.term "X", .term "Y"], [⟨nothing, p 0⟩, ⟨p 3, any⟩],
      applied (p 0) [lambda inner, p 1]⟩
    let c := (l.freshCopy.run ⟨9⟩).1
    (lambda l).references ⟨9⟩ = false ∧ c.binder = ⟨9⟩ ∧ l.IsCopy c ∧
      (c.instantiate [any, nothing]).isOk = true := by
  intro p inner l c
  have h : (lambda l).references ⟨9⟩ = false := by decide +kernel
  obtain ⟨hbinder, hcopy⟩ := isCopy_freshCopy l ⟨9⟩ h
  exact ⟨h, hbinder, hcopy, by decide +kernel⟩

end TypeLambda

end TreePickle
