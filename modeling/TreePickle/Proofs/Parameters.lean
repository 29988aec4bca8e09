import Mathlib.Data.List.Forall2
import TreePickle.Proofs.Rebuilding
import TreePickle.Ty.Lambda

/-!
# References to parameters

Rebinding and substitution look at references to parameters and walk on everywhere else. So a
statement about them is proved for references, and for all other nodes at once from their children:
`Ty.induction_params`. No kind of node is mentioned below but references.

## Equations

Each of the three functions on parameters has an equation for references and one for other nodes.
The second has the shape of `Ty.withChildren` around the list of children, which is where walks are
opened for the last time: the definitions are not looked at after that, here or in the modules that
are built on this one. `Ty.references` goes down a type by recursion and not by a walk, and its
equation hides that.

A node whose children have been replaced is a node with the new ones as children. The equations are
stated for it once more, with the length of the list as their hypothesis, because a substitution
followed by another one meets its own results.

## Substitutions without a fault

A substitution may fail, and most of what is said of one is said of those that do not. For these
there is an induction of its own, `Ty.substitute_induction`. Its cases are what can become of a
type: a reference is replaced or stays, and another node is rebuilt from what became of its
children. A statement on what goes in and what comes out has three cases to prove, and no monad is
left in them.
-/

namespace TreePickle.Ty

/-- Whether a type is a reference to a parameter. -/
def isParam : Ty → Bool
  | paramRef .. => true
  | _ => false

@[simp] theorem isParam_withChildren (t : Ty) (ts : List Ty) :
    (t.withChildren ts).isParam = t.isParam := by
  cases t <;> rfl

/-- What holds of references to parameters, and of all other nodes if it holds of their children,
holds of every type. -/
@[elab_as_elim]
theorem induction_params {P : Ty → Prop} (paramRef : ∀ b i, P (paramRef b i))
    (node : ∀ t : Ty, t.isParam = false → (∀ c ∈ t.children, P c) → P t) (t : Ty) : P t := by
  induction t using induction_children with
  | h t ih =>
    cases ht : t.isParam with
    | false => exact node t ht ih
    | true =>
      cases t with
      | paramRef b i => exact paramRef b i
      | _ => cases ht

/-! ## Equations -/

section

variable {a b c : Binder} {i : Nat} {t : Ty} {ts rs : List Ty}

theorem references_paramRef : (paramRef c i).references b = true ↔ c = b := by
  rw [references, beq_iff_eq]

theorem references_node (ht : t.isParam = false) :
    t.references b = t.children.any (·.references b) := by
  rw [references_eq_any_children]
  cases t with
  | paramRef b i => cases ht
  | _ => rfl

theorem rebind_paramRef :
    (paramRef c i).rebind a b = if c = a then paramRef b i else paramRef c i := by
  rw [rebind, transform_eq]
  rfl

theorem rebind_node (ht : t.isParam = false) :
    t.rebind a b = t.withChildren (t.children.map (·.rebind a b)) := by
  have hstep : ∀ below, rebindStep a b t below = below := by
    cases t with
    | paramRef b i => cases ht
    | _ => exact fun _ ↦ rfl
  rw [rebind, transform_of_onward hstep, Id.run_map, List.idRun_mapM]
  rfl

theorem substitute_paramRef_self :
    (paramRef a i).substitute a rs =
      match rs[i]? with
      | some r => .ok r
      | none => .error (.noReplacement a i rs.length) := by
  rw [substitute, transform_eq]
  exact if_pos rfl

theorem substitute_paramRef_self_eq_ok_iff {r : Ty} :
    (paramRef a i).substitute a rs = .ok r ↔ rs[i]? = some r := by
  rw [substitute_paramRef_self]
  cases rs[i]? with
  | none => exact ⟨nofun, nofun⟩
  | some r' => simp

theorem substitute_paramRef_of_ne (h : c ≠ a) :
    (paramRef c i).substitute a rs = .ok (paramRef c i) := by
  rw [substitute, transform_eq]
  exact if_neg h

theorem substitute_node (ht : t.isParam = false) :
    t.substitute a rs = t.withChildren <$> t.children.mapM (·.substitute a rs) := by
  have hstep : ∀ below, substituteStep a rs t below = below := by
    cases t with
    | paramRef b i => cases ht
    | _ => exact fun _ ↦ rfl
  rw [substitute, transform_of_onward hstep]
  rfl

/-! The same for a node whose children have been replaced before. -/

theorem references_withChildren (ht : t.isParam = false) (hts : ts.length = t.children.length) :
    (t.withChildren ts).references b = ts.any (·.references b) := by
  rw [references_node (by rwa [isParam_withChildren]), children_withChildren hts]

theorem rebind_withChildren (ht : t.isParam = false) (hts : ts.length = t.children.length) :
    (t.withChildren ts).rebind a b = t.withChildren (ts.map (·.rebind a b)) := by
  rw [rebind_node (by rwa [isParam_withChildren]), children_withChildren hts,
    withChildren_withChildren]

theorem substitute_withChildren (ht : t.isParam = false) (hts : ts.length = t.children.length) :
    (t.withChildren ts).substitute a rs = t.withChildren <$> ts.mapM (·.substitute a rs) := by
  have hagain : (t.withChildren ts).withChildren = t.withChildren :=
    funext (withChildren_withChildren t ts)
  rw [substitute_node (by rwa [isParam_withChildren]), children_withChildren hts, hagain]

end

/-! ## Rebinding -/

section

variable {a b c : Binder} {t : Ty}

/-- A binder that a node does not refer to is not referred to below it. -/
theorem references_of_mem_children (ht : t.isParam = false) (h : t.references b = false) :
    ∀ c ∈ t.children, c.references b = false := by
  rw [references_node ht, List.any_eq_false] at h
  intro c hc
  rw [← Bool.not_eq_true]
  exact h c hc

/-- References to the old binder become references to the new one, and all others stay. -/
theorem references_rebind_iff : (t.rebind a b).references c = true ↔
    t.references c = true ∧ c ≠ a ∨ t.references a = true ∧ c = b := by
  induction t using induction_params with
  | paramRef d i =>
    rw [rebind_paramRef, references_paramRef, references_paramRef]
    by_cases hd : d = a
    · rw [if_pos hd, references_paramRef]
      subst hd
      grind
    · rw [if_neg hd, references_paramRef]
      grind
  | node t ht ih =>
    rw [rebind_node ht, references_withChildren ht (List.length_map _), references_node ht,
      references_node ht, List.any_map, List.any_eq_true, List.any_eq_true, List.any_eq_true]
    constructor
    · rintro ⟨u, hu, href⟩
      rcases (ih u hu).mp href with ⟨hc, hne⟩ | ⟨ha, hb⟩
      · exact .inl ⟨⟨u, hu, hc⟩, hne⟩
      · exact .inr ⟨⟨u, hu, ha⟩, hb⟩
    · rintro (⟨⟨u, hu, hc⟩, hne⟩ | ⟨⟨u, hu, ha⟩, hb⟩)
      · exact ⟨u, hu, (ih u hu).mpr (.inl ⟨hc, hne⟩)⟩
      · exact ⟨u, hu, (ih u hu).mpr (.inr ⟨ha, hb⟩)⟩

/-- Nothing refers to a binder that has been replaced by one that did not occur. -/
theorem references_rebind_self (h : t.references b = false) :
    (t.rebind a b).references a = false := by
  rw [← Bool.not_eq_true, references_rebind_iff]
  rintro (⟨-, hne⟩ | ⟨href, rfl⟩)
  · exact hne rfl
  · rw [h] at href
    cases href

/-- A binder that does not occur can stand in between. -/
theorem rebind_rebind (h : t.references b = false) :
    (t.rebind a b).rebind b c = t.rebind a c := by
  induction t using induction_params with
  | paramRef d i =>
    have hd : d ≠ b := by rwa [← Bool.not_eq_true, references_paramRef] at h
    rw [rebind_paramRef, rebind_paramRef]
    by_cases hda : d = a
    · rw [if_pos hda, if_pos hda, rebind_paramRef, if_pos rfl]
    · rw [if_neg hda, if_neg hda, rebind_paramRef, if_neg hd]
  | node t ht ih =>
    have hchildren := references_of_mem_children ht h
    rw [rebind_node ht, rebind_withChildren ht (List.length_map _), rebind_node ht, List.map_map]
    exact congrArg t.withChildren (List.map_congr_left fun c hc ↦ ih c hc (hchildren c hc))

theorem rebind_self : t.rebind a a = t := by
  induction t using induction_params with
  | paramRef d i =>
    rw [rebind_paramRef]
    split
    · next hd => rw [hd]
    · rfl
  | node t ht ih =>
    rw [rebind_node ht, List.map_congr_left ih, List.map_id', withChildren_children]

end

/-! ## Substitution without a fault -/

section

variable {ε α β : Type}

theorem bind_eq_ok_iff {x : Except ε α} {f : α → Except ε β} {v : β} :
    (x >>= f) = .ok v ↔ ∃ u, x = .ok u ∧ f u = .ok v := by
  cases x with
  | error e => exact ⟨nofun, nofun⟩
  | ok u =>
    constructor
    · intro h
      exact ⟨u, rfl, h⟩
    · rintro ⟨_, ⟨⟩, h⟩
      exact h

/-- A list is visited without a fault exactly if each of its entries is. -/
theorem mapM_eq_ok_iff {f : α → Except ε β} {xs : List α} {ys : List β} :
    xs.mapM f = .ok ys ↔ List.Forall₂ (fun x y ↦ f x = .ok y) xs ys := by
  induction xs generalizing ys with
  | nil =>
    rw [List.mapM_nil, List.forall₂_nil_left_iff]
    exact ⟨fun h ↦ (Except.ok.inj h).symm, fun h ↦ congrArg Except.ok h.symm⟩
  | cons x xs ih =>
    simp only [List.mapM_cons, bind_eq_ok_iff, ih, List.forall₂_cons_left_iff]
    constructor
    · rintro ⟨y, hy, ys, hys, ⟨⟩⟩
      exact ⟨y, ys, hy, hys, rfl⟩
    · rintro ⟨y, ys, hy, hys, rfl⟩
      exact ⟨y, hy, ys, hys, rfl⟩

/-- In lists that are related entry by entry, each entry has its counterpart. -/
theorem exists_getElem?_of_forall₂ {R : α → β → Prop} {xs : List α} {ys : List β}
    (h : List.Forall₂ R xs ys) {i : Nat} {x : α} (hx : xs[i]? = some x) :
    ∃ y, ys[i]? = some y ∧ R x y := by
  induction h generalizing i with
  | nil => cases hx
  | @cons x y xs ys hxy _ ih =>
    cases i with
    | zero =>
      cases hx
      exact ⟨y, rfl, hxy⟩
    | succ i => exact ih hx

variable {a : Binder} {t u : Ty} {rs : List Ty}

/-- A node is substituted in without a fault exactly if its children are, and then they are
replaced by what comes out of them. -/
theorem substitute_node_eq_ok_iff (ht : t.isParam = false) :
    t.substitute a rs = .ok u ↔
      ∃ us, List.Forall₂ (fun c v ↦ c.substitute a rs = .ok v) t.children us ∧
        u = t.withChildren us := by
  rw [substitute_node ht, map_eq_pure_bind, bind_eq_ok_iff]
  simp only [mapM_eq_ok_iff]
  refine exists_congr fun us ↦ and_congr_right fun _ ↦ ?_
  exact ⟨fun h ↦ (Except.ok.inj h).symm, fun h ↦ congrArg Except.ok h.symm⟩

/-- What holds of references that are replaced, of those that stay, and of nodes if it holds of
their children, holds of every type and what a substitution makes of it. -/
theorem substitute_induction {P : Ty → Ty → Prop}
    (replaced : ∀ i r, rs[i]? = some r → P (paramRef a i) r)
    (kept : ∀ c i, c ≠ a → P (paramRef c i) (paramRef c i))
    (node : ∀ t us, t.isParam = false → List.Forall₂ P t.children us → P t (t.withChildren us))
    (h : t.substitute a rs = .ok u) : P t u := by
  induction t using induction_params generalizing u with
  | paramRef c i =>
    by_cases hc : c = a
    · subst hc
      exact replaced i u (substitute_paramRef_self_eq_ok_iff.mp h)
    · rw [substitute_paramRef_of_ne hc] at h
      cases h
      exact kept c i hc
  | node t ht ih =>
    obtain ⟨us, hus, rfl⟩ := (substitute_node_eq_ok_iff ht).mp h
    have hih : ∀ c ∈ t.children, ∀ u, c.substitute a rs = .ok u → P c u :=
      fun c hc u hu ↦ ih c hc hu
    have hchildren := (List.forall₂_and_left _ _).mpr ⟨hih, hus⟩
    exact node t us ht (hchildren.imp fun _ _ hcu ↦ hcu.1 _ hcu.2)

/-- Nothing is substituted where the binder does not occur. -/
theorem substitute_of_references_eq_false (h : t.references a = false) :
    t.substitute a rs = .ok t := by
  induction t using induction_params with
  | paramRef c i =>
    rw [← Bool.not_eq_true, references_paramRef] at h
    exact substitute_paramRef_of_ne h
  | node t ht ih =>
    have hchildren := references_of_mem_children ht h
    rw [substitute_node_eq_ok_iff ht]
    refine ⟨t.children, ?_, (withChildren_children t).symm⟩
    rw [List.forall₂_same]
    exact fun c hc ↦ ih c hc (hchildren c hc)

end

end TreePickle.Ty
