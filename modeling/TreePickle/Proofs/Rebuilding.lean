import Mathlib.Data.List.Basic
import TreePickle.Ty.Visit

/-!
# Nodes with other children

A walk puts what the visits return in the place of the children. `Ty.withChildren` does that with a
list, as the inverse of `Ty.children`, and `Ty.walk_eq` says that a walk is nothing else: visits in
the order of the children, and the same node around their results. A walk can so be reasoned about
as one `mapM`, whatever the node, and only this module looks at the kinds of nodes.

## Lists of children

The list is meant to have an entry for each child. Entries that are missing count as `any`, so that
the children that a node had before are of no account, whatever the list:
`Ty.withChildren_withChildren` needs no hypothesis. That the new children are those of the list does
need one, on its length, `Ty.children_withChildren`.

A lambda has its bounds two by two in front of its result. `TypeBounds.pairUp` puts them together
again, and it is the inverse of listing them for lists of even length.

## Sharing

A walk does not build a new node if a test says that nothing has changed below it. All that is
assumed of the test is that it is sound: what it takes for the same is the same. Then the old node
is equal to the new one, and the test is gone from the right-hand side of `Ty.walk_eq`. There is no
such law for a test that is wrong, and none is needed for one that finds nothing to share.

The monad of the visits is arbitrary. It has to be lawful, because the visits of a walk are nested
in another way than those of `mapM`.
-/

namespace TreePickle

/-! ## Bounds as lists -/

namespace TypeBounds

/-- Types two by two, as bounds. -/
def pairUp : List Ty → List TypeBounds
  | low :: high :: ts => ⟨low, high⟩ :: pairUp ts
  | _ => []

theorem pairUp_flatMap_toList (bs : List TypeBounds) : pairUp (bs.flatMap toList) = bs := by
  induction bs with
  | nil => rfl
  | cons b bs ih =>
    cases b
    rw [List.flatMap_cons, toList, List.cons_append, List.cons_append, List.nil_append, pairUp, ih]

theorem length_flatMap_toList (bs : List TypeBounds) :
    (bs.flatMap toList).length = 2 * bs.length := by
  induction bs with
  | nil => rfl
  | cons b bs ih =>
    rw [List.flatMap_cons, List.length_append, ih, List.length_cons, toList, List.length_cons,
      List.length_singleton]
    omega

theorem flatMap_toList_pairUp {n : Nat} {ts : List Ty} (h : ts.length = 2 * n) :
    (pairUp ts).flatMap toList = ts := by
  induction n generalizing ts with
  | zero =>
    rw [List.length_eq_zero_iff.mp h]
    rfl
  | succ n ih =>
    match ts, h with
    | low :: high :: ts, h =>
      rw [List.length_cons, List.length_cons] at h
      rw [pairUp, List.flatMap_cons, ih (by omega)]
      rfl

end TypeBounds

namespace Ty

/-! ## Nodes -/

/-- The same node with other children. -/
def withChildren : Ty → List Ty → Ty
  | select _ name, ts => select (ts.getD 0 any) name
  | applied _ _, ts => applied (ts.getD 0 any) ts.tail
  | lambda l, ts =>
      lambda { l with
        paramBounds := TypeBounds.pairUp ts.dropLast, result := ts.getLastD any }
  | bounds _, ts => bounds ⟨ts.getD 0 any, ts.getD 1 any⟩
  | and _ _, ts => and (ts.getD 0 any) (ts.getD 1 any)
  | or _ _, ts => or (ts.getD 0 any) (ts.getD 1 any)
  | t, _ => t

@[simp] theorem withChildren_children (t : Ty) : t.withChildren t.children = t := by
  cases t with
  | lambda l =>
    cases l
    rw [children, withChildren, List.dropLast_concat, List.getLastD_concat,
      TypeBounds.pairUp_flatMap_toList]
  | bounds b =>
    cases b
    rfl
  | _ => rfl

@[simp] theorem withChildren_withChildren (t : Ty) (ts us : List Ty) :
    (t.withChildren ts).withChildren us = t.withChildren us := by
  cases t <;> rfl

theorem children_withChildren {t : Ty} {ts : List Ty} (h : ts.length = t.children.length) :
    (t.withChildren ts).children = ts := by
  cases t with
  | select qualifier name =>
    obtain ⟨u, rfl⟩ := List.length_eq_one_iff.mp h
    rfl
  | applied tycon args =>
    obtain ⟨u, us, rfl⟩ := List.exists_cons_of_length_eq_add_one h
    rfl
  | lambda l =>
    -- the types two by two, and the result behind them
    rw [children, List.length_append, TypeBounds.length_flatMap_toList, List.length_singleton] at h
    rcases List.eq_nil_or_concat' ts with rfl | ⟨us, u, rfl⟩
    · cases h
    · rw [List.length_append, List.length_singleton] at h
      rw [withChildren, children, List.dropLast_concat, List.getLastD_concat,
        TypeBounds.flatMap_toList_pairUp (Nat.succ.inj h)]
  | bounds b =>
    obtain ⟨u, v, rfl⟩ := List.length_eq_two.mp h
    rfl
  | and left right | or left right =>
    obtain ⟨u, v, rfl⟩ := List.length_eq_two.mp h
    rfl
  | paramRef _ _ | named _ | thisOf _ | any | nothing => exact (List.length_eq_zero_iff.mp h).symm

/-! ## Walks -/

variable {m : Type → Type} [Monad m] [LawfulMonad m]

/-- Bounds are visited two by two. -/
private theorem mapM_walkBounds (visit : Ty → m Ty) (bs : List TypeBounds) :
    bs.mapM (walkBounds visit) =
      TypeBounds.pairUp <$> (bs.flatMap TypeBounds.toList).mapM visit := by
  induction bs with
  | nil => simp [TypeBounds.pairUp]
  | cons b bs ih =>
    simp [List.mapM_cons, ih, walkBounds, TypeBounds.toList, TypeBounds.pairUp]

/-- **A walk rebuilds a node.** It visits the children in their order and puts the results in their
place. -/
theorem walk_eq {same : Ty → Ty → Bool} (hs : IsSound same) (visit : Ty → m Ty) (t : Ty) :
    walk same visit t = t.withChildren <$> t.children.mapM visit := by
  rw [walk_eq_of_isSound hs]
  cases t with
  | select qualifier name => simp [walk, children, withChildren, neverSame]
  | applied tycon args => simp [walk, children, withChildren, neverSame]
  | lambda l => simp [walk, children, withChildren, neverSame, mapM_walkBounds]
  | bounds b =>
    simp [walk, walkBounds, children, TypeBounds.toList, withChildren, neverSame, sameBounds]
  | and left right | or left right => simp [walk, children, withChildren, neverSame]
  | paramRef _ _ | named _ | thisOf _ | any | nothing => simp [walk, children, withChildren]

/-- A transformation rebuilds a node where its step walks on. -/
theorem transform_of_onward {step : Step m} {t : Ty} (h : ∀ below, step t below = below) :
    transform step t = t.withChildren <$> t.children.mapM (transform step) := by
  rw [transform_eq, h, walk_eq isSound_beq]

end Ty

end TreePickle
