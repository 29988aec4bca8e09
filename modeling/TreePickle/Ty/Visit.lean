import TreePickle.Ty.Basic

/-!
# Walking over types

A walk visits the types directly below a node, in their order, and puts what it gets back in their
place. The visit is an action of any monad, so it may keep a state and it may fail; what stands
beside the children, such as names, binders and counts, stays as it is.

## Sharing

If no child has changed, the walk returns the node that it was given and builds no new one. Whether
a child has changed is for a test `same` to say. A test that only says yes for equal types
(`Ty.IsSound`) makes no difference to the result (`Ty.walk_eq_of_isSound`): it decides no more than
how much is shared.

## Transformations

A *transformation* is a walk over the whole tree. Its step looks at a node first, and decides
whether to walk on below it or to put something else in its place. It recurses on the depth of the
tree, which is enough for every node of it; `Ty.transform_eq` is the equation without the depth.
Three small transformations stand at the end: one that keeps a record, one that changes a leaf, and
one that fails.
-/

namespace TreePickle.Ty

/-- A test that calls two types the same only if they are equal. -/
def IsSound (same : Ty → Ty → Bool) : Prop := ∀ s t, same s t = true → s = t

theorem isSound_beq : IsSound (· == ·) := fun _ _ ↦ eq_of_beq

/-- The test that finds nothing the same, with which every walk builds a new node. -/
def neverSame (_ _ : Ty) : Bool := false

/-! ## The test for whole lists -/

/-- Both bounds are the same. -/
def sameBounds (same : Ty → Ty → Bool) (a b : TypeBounds) : Bool :=
  same a.low b.low && same a.high b.high

/-- Two lists are of one length, and the same entry by entry. -/
def sameList {α : Type} (same : α → α → Bool) : List α → List α → Bool
  | [], [] => true
  | a :: as, b :: bs => same a b && sameList same as bs
  | _, _ => false

theorem IsSound.eq_of_sameBounds {same : Ty → Ty → Bool} (h : IsSound same) {a b : TypeBounds}
    (hab : sameBounds same a b = true) : a = b := by
  cases a
  cases b
  rw [sameBounds, Bool.and_eq_true] at hab
  rw [TypeBounds.mk.injEq]
  exact ⟨h _ _ hab.1, h _ _ hab.2⟩

theorem eq_of_sameList {α : Type} {same : α → α → Bool} (h : ∀ a b, same a b = true → a = b) :
    ∀ {l l' : List α}, sameList same l l' = true → l = l'
  | [], [], _ => rfl
  | a :: l, b :: l', hl => by
      rw [sameList, Bool.and_eq_true] at hl
      rw [h a b hl.1, eq_of_sameList h hl.2]

/-! ## One node -/

variable {m : Type → Type} [Monad m]

/-- Visits both bounds. -/
def walkBounds (visit : Ty → m Ty) (b : TypeBounds) : m TypeBounds :=
  return ⟨← visit b.low, ← visit b.high⟩

/-- Visits the children of a node and rebuilds it. -/
def walk (same : Ty → Ty → Bool) (visit : Ty → m Ty) (t : Ty) : m Ty := do
  match t with
  | select qualifier name =>
      let qualifier' ← visit qualifier
      return if same qualifier' qualifier then t else select qualifier' name
  | applied tycon args =>
      let tycon' ← visit tycon
      let args' ← args.mapM visit
      return if same tycon' tycon && sameList same args' args then t else applied tycon' args'
  | lambda l =>
      let paramBounds ← l.paramBounds.mapM (walkBounds visit)
      let result ← visit l.result
      return if sameList (sameBounds same) paramBounds l.paramBounds && same result l.result then t
        else lambda { l with paramBounds, result }
  | bounds b =>
      let b' ← walkBounds visit b
      return if sameBounds same b' b then t else bounds b'
  | and left right =>
      let left' ← visit left
      let right' ← visit right
      return if same left' left && same right' right then t else and left' right'
  | or left right =>
      let left' ← visit left
      let right' ← visit right
      return if same left' left && same right' right then t else or left' right'
  | paramRef .. | named _ | thisOf _ | any | nothing => return t

private theorem mapM_congr [LawfulMonad m] {α β : Type} {f g : α → m β} {l : List α}
    (h : ∀ a ∈ l, f a = g a) : l.mapM f = l.mapM g := by
  induction l with
  | nil => rfl
  | cons a l ih =>
    rw [List.mapM_cons, List.mapM_cons, h a List.mem_cons_self,
      ih fun b hb ↦ h b (List.mem_cons_of_mem _ hb)]

/-- A walk depends on what the visit does with the children, and on nothing else. -/
theorem walk_congr [LawfulMonad m] {same : Ty → Ty → Bool} {visit visit' : Ty → m Ty} {t : Ty}
    (h : ∀ c ∈ t.children, visit c = visit' c) : walk same visit t = walk same visit' t := by
  cases t with
  | select qualifier name => simp only [walk, h qualifier (by simp [children])]
  | applied tycon args =>
    have ha : ∀ a ∈ args, visit a = visit' a := fun a ha ↦ h a (List.mem_cons_of_mem _ ha)
    simp only [walk, h tycon (by simp [children]), mapM_congr ha]
  | lambda l =>
    have hb : ∀ b ∈ l.paramBounds, walkBounds visit b = walkBounds visit' b := by
      intro b hb
      have hc : ∀ c ∈ b.toList, visit c = visit' c := fun c hc ↦
        h c (List.mem_append_left _ (List.mem_flatMap.2 ⟨b, hb, hc⟩))
      simp only [walkBounds, hc b.low (by simp [TypeBounds.toList]),
        hc b.high (by simp [TypeBounds.toList])]
    simp only [walk, mapM_congr hb, h l.result (by simp [children])]
  | bounds b =>
    simp only [walk, walkBounds, h b.low (by simp [children, TypeBounds.toList]),
      h b.high (by simp [children, TypeBounds.toList])]
  | and left right | or left right =>
    simp only [walk, h left (by simp [children]), h right (by simp [children])]
  | paramRef _ _ | named _ | thisOf _ | any | nothing => rfl

private theorem kept_eq {same : Bool} {t new : Ty} (h : same = true → new = t) :
    (if same then t else new) = new := by
  cases same with
  | false => rfl
  | true => exact (h rfl).symm

/-- A sound test for what has not changed makes no difference to the result of a walk. -/
theorem walk_eq_of_isSound {same : Ty → Ty → Bool} (hs : IsSound same) (visit : Ty → m Ty)
    (t : Ty) : walk same visit t = walk neverSame visit t := by
  cases t with
  | select qualifier name =>
    refine bind_congr fun qualifier' ↦ congrArg pure (kept_eq fun h ↦ ?_)
    rw [hs _ _ h]
  | applied tycon args =>
    refine bind_congr fun tycon' ↦ bind_congr fun args' ↦ congrArg pure (kept_eq fun h ↦ ?_)
    rw [Bool.and_eq_true] at h
    rw [hs _ _ h.1, eq_of_sameList hs h.2]
  | lambda l =>
    refine bind_congr fun bounds' ↦ bind_congr fun result' ↦ congrArg pure ?_
    rw [kept_eq]
    · simp [neverSame]
    · intro h
      rw [Bool.and_eq_true] at h
      rw [hs _ _ h.2, eq_of_sameList (fun _ _ ↦ hs.eq_of_sameBounds) h.1]
      cases l
      rfl
  | bounds b =>
    refine bind_congr fun b' ↦ congrArg pure (kept_eq fun h ↦ ?_)
    rw [hs.eq_of_sameBounds h]
  | and left right | or left right =>
    refine bind_congr fun left' ↦ bind_congr fun right' ↦ congrArg pure (kept_eq fun h ↦ ?_)
    rw [Bool.and_eq_true] at h
    rw [hs _ _ h.1, hs _ _ h.2]
  | paramRef _ _ | named _ | thisOf _ | any | nothing => rfl

/-! ## Whole trees -/

/-- What a transformation does with a node; the second argument walks on below it. -/
abbrev Step (m : Type → Type) := Ty → m Ty → m Ty

/-- Transforms the topmost `n` levels of a tree. -/
def transformLevels (step : Step m) : Nat → Ty → m Ty
  | 0, t => pure t
  | n + 1, t => step t (walk (· == ·) (transformLevels step n) t)

/-- Transforms a tree from the root downwards. -/
def transform (step : Step m) (t : Ty) : m Ty := transformLevels step t.depth t

/-- Levels below the deepest node make no difference. -/
theorem transformLevels_eq [LawfulMonad m] (step : Step m) {n k : Nat} {t : Ty} (hn : t.depth ≤ n)
    (hk : t.depth ≤ k) : transformLevels step n t = transformLevels step k t := by
  induction n generalizing k t with
  | zero => exact absurd t.depth_pos (by omega)
  | succ n ih =>
    cases k with
    | zero => exact absurd t.depth_pos (by omega)
    | succ k =>
      rw [transformLevels, transformLevels]
      refine congrArg (step t) (walk_congr fun c hc ↦ ih ?_ ?_) <;>
      · have := depth_lt_of_mem_children hc
        omega

/-- A transformation does its step at the root, and goes on with the children where the step walks
on. -/
theorem transform_eq [LawfulMonad m] (step : Step m) (t : Ty) :
    transform step t = step t (walk (· == ·) (transform step) t) := by
  obtain ⟨n, hn⟩ : ∃ n, t.depth = n + 1 := ⟨t.depth - 1, by have := t.depth_pos; omega⟩
  rw [transform, hn, transformLevels]
  refine congrArg (step t) (walk_congr fun c hc ↦ transformLevels_eq step ?_ (Nat.le_refl _))
  have := depth_lt_of_mem_children hc
  omega

/-- A step that always walks on. -/
def Step.onward : Step m := fun _ below ↦ below

/-! ## Transformations that look at nodes -/

/-- Notes each node before walking on below it. -/
def recordStep : Step (StateM (Array Ty)) := fun t below ↦ do
  modify (·.push t)
  below

/-- All nodes of a type, each in front of those below it. -/
def visited (t : Ty) : Array Ty := ((t.transform recordStep).run #[]).2

def lowerStep : Step Id := fun t below ↦
  match t with
  | any => nothing
  | _ => below

/-- A type with the least type in all places of the greatest one. -/
def lowerAny (t : Ty) : Ty := Id.run (t.transform lowerStep)

/-- Counts nodes, and fails with their number at the first occurrence of the greatest type. -/
def refuseStep : Step (StateT Nat (Except Nat)) := fun t below ↦ do
  let count := (← get) + 1
  set count
  match t with
  | any => throw count
  | _ => below

/-- A type in which the greatest type does not occur, as it is. The error is the number of nodes
up to the first occurrence. -/
def refuseAny (t : Ty) : Except Nat Ty := (t.transform refuseStep).run' 0

end TreePickle.Ty
