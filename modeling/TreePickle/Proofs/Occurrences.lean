import TreePickle.Proofs.Parameters

/-!
# Occurrences of references

`Ty.occurrences` lists the references to parameters in a type from left to right, each with the
binders of the lambdas around it. A lambda owns the references to its binder in its bounds and in
its result, so that list tells whose parameter a reference is.

## Owners

Occurrences in the children of a node are occurrences in the node, with one owner more if the node
is a lambda. To put a type below other lambdas adds their binders at the end and changes nothing
else: `Occurrence.under`. Owners are listed from the inside out, so the lambdas that come around a
place later stand behind those that were there, and putting a type below two lists of lambdas is
putting it below the one list, `Occurrence.under_under`.

As in the modules before, there is one equation for references and one for all other nodes,
`Ty.occurrences_node`, and the mutual recursion over lists and bounds does not appear again.

## Substitution

Substitution goes below lambdas and renames nothing. So it acts on the occurrences one by one: an
occurrence of another binder stays, and one of the replaced binder gives way to the occurrences in
its replacement, which then stand below the lambdas around the place. This is
`Occurrence.replaced`, and `Ty.occurrences_substitute` says that the occurrences after a
substitution are these, in order. The case of a node is that of its children, because what comes
into the place of an occurrence does not depend on where the type stands,
`Occurrence.replaced_under`.
-/

namespace TreePickle

/-! ## Occurrences -/

/-- A reference to a parameter, at some place in a type. -/
structure Occurrence where
  binder : Binder
  index : Nat
  /-- The binders of the lambdas around the place, from the inside out. -/
  owners : List Binder
  deriving DecidableEq

namespace Occurrence

/-- The same occurrence below more lambdas. -/
def under (owners : List Binder) (o : Occurrence) : Occurrence :=
  { o with owners := o.owners ++ owners }

@[simp] theorem under_nil (o : Occurrence) : o.under [] = o := by
  rw [under, List.append_nil]

@[simp] theorem under_under (o : Occurrence) (owners owners' : List Binder) :
    (o.under owners).under owners' = o.under (owners ++ owners') := by
  rw [under, under, under, List.append_assoc]

end Occurrence

mutual

/-- The references to parameters in a type, from left to right. -/
def Ty.occurrences : Ty → List Occurrence
  | .paramRef binder index => [⟨binder, index, []⟩]
  | .select qualifier _ => qualifier.occurrences
  | .applied tycon args => tycon.occurrences ++ Ty.listOccurrences args
  | .lambda ⟨binder, _, paramBounds, result⟩ =>
      (Ty.boundsOccurrences paramBounds ++ result.occurrences).map (·.under [binder])
  | .bounds ⟨low, high⟩ => low.occurrences ++ high.occurrences
  | .and left right | .or left right => left.occurrences ++ right.occurrences
  | .named _ | .thisOf _ | .any | .nothing => []

def Ty.listOccurrences : List Ty → List Occurrence
  | [] => []
  | t :: ts => t.occurrences ++ Ty.listOccurrences ts

def Ty.boundsOccurrences : List TypeBounds → List Occurrence
  | [] => []
  | ⟨low, high⟩ :: bs => low.occurrences ++ high.occurrences ++ Ty.boundsOccurrences bs

end

namespace Ty

theorem listOccurrences_eq (ts : List Ty) : listOccurrences ts = ts.flatMap occurrences := by
  induction ts with
  | nil => rfl
  | cons t ts ih => rw [listOccurrences, ih, List.flatMap_cons]

theorem boundsOccurrences_eq (bs : List TypeBounds) :
    boundsOccurrences bs = (bs.flatMap TypeBounds.toList).flatMap occurrences := by
  induction bs with
  | nil => rfl
  | cons b bs ih =>
    cases b
    simp [boundsOccurrences, ih, TypeBounds.toList]

/-- The binder that a node adds to those around its children. -/
def ownBinder : Ty → List Binder
  | lambda l => [l.binder]
  | _ => []

theorem occurrences_node {t : Ty} (ht : t.isParam = false) :
    t.occurrences = (t.children.flatMap occurrences).map (·.under t.ownBinder) := by
  cases t with
  | paramRef b i => cases ht
  | lambda l =>
    cases l
    simp [occurrences, children, ownBinder, boundsOccurrences_eq]
  | bounds b =>
    cases b
    simp [occurrences, children, ownBinder, TypeBounds.toList]
  | _ => simp [occurrences, children, ownBinder, listOccurrences_eq]

theorem occurrences_withChildren {t : Ty} {ts : List Ty} (ht : t.isParam = false)
    (hts : ts.length = t.children.length) :
    (t.withChildren ts).occurrences = (ts.flatMap occurrences).map (·.under t.ownBinder) := by
  have hown : (t.withChildren ts).ownBinder = t.ownBinder := by cases t <;> rfl
  rw [occurrences_node (by rwa [isParam_withChildren]), children_withChildren hts, hown]

/-- A type refers to a binder where it occurs, free or not. -/
theorem references_iff_exists_occurrence {b : Binder} {t : Ty} :
    t.references b = true ↔ ∃ o ∈ t.occurrences, o.binder = b := by
  induction t using induction_params with
  | paramRef c i => simp [references_paramRef, occurrences]
  | node t ht ih =>
    rw [references_node ht, occurrences_node ht, List.any_eq_true]
    constructor
    · rintro ⟨c, hc, href⟩
      obtain ⟨o, ho, rfl⟩ := (ih c hc).mp href
      exact ⟨_, List.mem_map_of_mem (List.mem_flatMap.mpr ⟨c, hc, ho⟩), rfl⟩
    · rintro ⟨_, hmem, rfl⟩
      obtain ⟨o, hbelow, rfl⟩ := List.mem_map.mp hmem
      obtain ⟨c, hc, ho⟩ := List.mem_flatMap.mp hbelow
      exact ⟨c, hc, (ih c hc).mpr ⟨o, ho, rfl⟩⟩

end Ty

/-! ## Occurrences after a substitution -/

namespace Occurrence

/-- What comes into the place of an occurrence when the parameters of `a` are replaced. -/
def replaced (a : Binder) (rs : List Ty) (o : Occurrence) : List Occurrence :=
  if o.binder = a then
    match rs[o.index]? with
    | some r => r.occurrences.map (·.under o.owners)
    | none => []
  else [o]

variable {a : Binder} {rs : List Ty} {o p : Occurrence}

theorem replaced_under (owners : List Binder) :
    (o.under owners).replaced a rs = (o.replaced a rs).map (·.under owners) := by
  rw [replaced, replaced, under]
  by_cases ho : o.binder = a
  · rw [if_pos ho, if_pos ho]
    cases rs[o.index]? with
    | none => rfl
    | some r => simp
  · rw [if_neg ho, if_neg ho]
    rfl

theorem mem_replaced_iff : p ∈ o.replaced a rs ↔
    o.binder ≠ a ∧ p = o ∨
      o.binder = a ∧ ∃ r, rs[o.index]? = some r ∧ ∃ q ∈ r.occurrences, q.under o.owners = p := by
  rw [replaced]
  by_cases ho : o.binder = a
  · rw [if_pos ho]
    cases rs[o.index]? with
    | none => simp [ho]
    | some r => simp [ho]
  · simp [ho]

end Occurrence

namespace Ty

variable {a : Binder} {rs : List Ty}

/-- Entries are replaced by entries, so the occurrences in a list are the occurrences in its
entries. -/
private theorem flatMap_occurrences_replaced {ts us : List Ty}
    (h : List.Forall₂ (fun t u ↦ u.occurrences = t.occurrences.flatMap (·.replaced a rs)) ts us) :
    us.flatMap occurrences = (ts.flatMap occurrences).flatMap (·.replaced a rs) := by
  induction h with
  | nil => rfl
  | cons h _ ih => rw [List.flatMap_cons, List.flatMap_cons, List.flatMap_append, h, ih]

/-- **A substitution replaces occurrences** one by one, and those in a replacement come below the
lambdas around the place. -/
theorem occurrences_substitute {t u : Ty} (h : t.substitute a rs = .ok u) :
    u.occurrences = t.occurrences.flatMap (·.replaced a rs) := by
  refine substitute_induction (P := fun t u ↦
    u.occurrences = t.occurrences.flatMap (·.replaced a rs)) ?_ ?_ ?_ h
  · intro i r hr
    rw [occurrences, List.flatMap_singleton, Occurrence.replaced, if_pos rfl, hr]
    simp
  · intro c i hc
    rw [occurrences, List.flatMap_singleton, Occurrence.replaced, if_neg hc]
  · intro t us ht hus
    rw [occurrences_withChildren ht hus.length_eq.symm, flatMap_occurrences_replaced hus,
      occurrences_node ht, List.flatMap_map, List.map_flatMap]
    exact List.flatMap_congr fun o _ ↦ (Occurrence.replaced_under _).symm

end Ty

end TreePickle
