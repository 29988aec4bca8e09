import TreePickle.Name

/-!
# Types

Types are trees. The leaves are references to parameters, names, and the two ends of the order of
types; the inner nodes are selections, applications, lambdas, bounds, intersections and unions.
Types are equal if they are the same tree, binders and parameter names included; `Ty.beq` decides it
by walking down both trees.

## Binders

A type lambda has an identity, its binder, and its parameters are referred to by the binder and a
position. Names of parameters are for display only, so nothing depends on them and no reference is
ever captured by a name. `Ty.references` tells whether the parameters of a binder occur anywhere in
a type.

Binders are minted from a supply, each with the next number. Numbers are 32-bit words: after the
last one the supply starts again from zero.

## Nodes and their children

`Ty.children` lists the types directly below a node in the order in which they are visited. Most
that is to be said about types can be said of a node and its children, whatever the node; the depth
of a tree is what such arguments go down along, and `Ty.induction_children` is the induction.
-/

namespace TreePickle

/-! ## Binders -/

/-- The identity of a type lambda. -/
structure Binder where
  number : UInt32
  deriving DecidableEq, Repr

def Binder.text (b : Binder) : String := s!"#{b.number.toNat}"

/-- The source of new binders. -/
structure BinderSupply where
  /-- The number of the next binder. -/
  next : UInt32
  deriving DecidableEq, Repr

/-- A supply from which no binder has been minted. -/
def BinderSupply.initial : BinderSupply := ⟨0⟩

/-- Actions that may mint binders. -/
abbrev Minting (α : Type) := StateM BinderSupply α

/-- Mints a binder. -/
def Binder.fresh : Minting Binder := fun supply ↦ (⟨supply.next⟩, ⟨supply.next + 1⟩)

/-! ## Trees -/

mutual

inductive Ty where
  /-- The parameter at a position of the lambda that owns `binder`. -/
  | paramRef (binder : Binder) (index : Nat)
  /-- A type known by its name alone. -/
  | named (name : SimpleName)
  /-- A member of another type: `p.T`. -/
  | select (qualifier : Ty) (name : SimpleName)
  /-- The type of an enclosing class's own instance: `C.this`. -/
  | thisOf (owner : QualifiedName)
  /-- A type constructor with its arguments: `F[A, B]`. -/
  | applied (tycon : Ty) (args : List Ty)
  /-- A type constructor: `[X, Y] =>> R`. -/
  | lambda (lambda : TypeLambda)
  /-- An unknown type between two others. -/
  | bounds (bounds : TypeBounds)
  | and (left right : Ty)
  | or (left right : Ty)
  /-- The greatest type. -/
  | any
  /-- The least type. -/
  | nothing

/-- The types between two others: `>: low <: high`. -/
structure TypeBounds where
  low : Ty
  high : Ty

/-- A type with parameters. -/
structure TypeLambda where
  /-- The identity to which references to the parameters point. -/
  binder : Binder
  /-- What the parameters are called, for display only. -/
  paramNames : List SimpleName
  /-- The bounds of the parameters, in their order. -/
  paramBounds : List TypeBounds
  result : Ty

end

instance : Inhabited Ty := ⟨.any⟩

/-- All types lie between these bounds. -/
def TypeBounds.unbounded : TypeBounds := ⟨.nothing, .any⟩

namespace Ty

/-- The type of a name in the namespace of types. -/
def ofText (text : String) : Ty := named (SimpleName.term text).toTypeName

/-- The member of a type with a name in the namespace of types. -/
def member (qualifier : Ty) (text : String) : Ty :=
  select qualifier (SimpleName.term text).toTypeName

end Ty

/-! ## References -/

mutual

/-- Whether a parameter of `b` occurs anywhere in a type. -/
def Ty.references (b : Binder) : Ty → Bool
  | .paramRef binder _ => binder == b
  | .select qualifier _ => qualifier.references b
  | .applied tycon args => tycon.references b || Ty.listReferences b args
  | .lambda ⟨_, _, paramBounds, result⟩ =>
      Ty.boundsReference b paramBounds || result.references b
  | .bounds ⟨low, high⟩ => low.references b || high.references b
  | .and left right | .or left right => left.references b || right.references b
  | .named _ | .thisOf _ | .any | .nothing => false

/-- Whether a parameter of `b` occurs in any of the types. -/
def Ty.listReferences (b : Binder) : List Ty → Bool
  | [] => false
  | t :: ts => t.references b || Ty.listReferences b ts

/-- Whether a parameter of `b` occurs in any of the bounds. -/
def Ty.boundsReference (b : Binder) : List TypeBounds → Bool
  | [] => false
  | ⟨low, high⟩ :: bs => low.references b || high.references b || Ty.boundsReference b bs

end

namespace Ty

variable (b : Binder)

theorem listReferences_eq_any (ts : List Ty) :
    listReferences b ts = ts.any (·.references b) := by
  induction ts with
  | nil => rfl
  | cons t ts ih => rw [listReferences, List.any_cons, ih]

theorem boundsReference_eq_any (cs : List TypeBounds) :
    boundsReference b cs = cs.any fun c ↦ c.low.references b || c.high.references b := by
  induction cs with
  | nil => rfl
  | cons c cs ih =>
    cases c
    rw [List.any_cons, ← ih, boundsReference]

@[simp] theorem references_lambda (l : TypeLambda) :
    (lambda l).references b =
      ((l.paramBounds.any fun c ↦ c.low.references b || c.high.references b) ||
        l.result.references b) := by
  cases l
  rw [← boundsReference_eq_any, references]

@[simp] theorem references_bounds (c : TypeBounds) :
    (bounds c).references b = (c.low.references b || c.high.references b) := by
  cases c
  rw [references]

end Ty

/-! ## Texts -/

mutual

/-- A type in writing. -/
def Ty.text : Ty → String
  | .paramRef binder index => binder.text ++ "." ++ toString index
  | .named name => name.text
  | .select qualifier name => qualifier.text ++ "." ++ name.text
  | .thisOf owner => owner.text ++ ".this"
  | .applied tycon args => tycon.text ++ "[" ++ String.intercalate ", " (Ty.texts args) ++ "]"
  | .lambda ⟨_, paramNames, _, result⟩ =>
      "[" ++ String.intercalate ", " (paramNames.map SimpleName.text) ++ "] =>> " ++ result.text
  | .bounds ⟨low, high⟩ => ">: " ++ low.text ++ " <: " ++ high.text
  | .and left right => left.text ++ " & " ++ right.text
  | .or left right => left.text ++ " | " ++ right.text
  | .any => "Any"
  | .nothing => "Nothing"

def Ty.texts : List Ty → List String
  | [] => []
  | t :: ts => t.text :: Ty.texts ts

end

/-! ## Children -/

/-- Both bounds, the lower one first. -/
def TypeBounds.toList (b : TypeBounds) : List Ty := [b.low, b.high]

/-- The types directly below a node. -/
def Ty.children : Ty → List Ty
  | select qualifier _ => [qualifier]
  | applied tycon args => tycon :: args
  | lambda l => l.paramBounds.flatMap TypeBounds.toList ++ [l.result]
  | bounds b => b.toList
  | and left right | or left right => [left, right]
  | paramRef .. | named _ | thisOf _ | any | nothing => []

/-! ## Depth -/

mutual

/-- The number of nodes on the longest way down. -/
def Ty.depth : Ty → Nat
  | .select qualifier _ => qualifier.depth + 1
  | .applied tycon args => max tycon.depth (Ty.depthList args) + 1
  | .lambda ⟨_, _, paramBounds, result⟩ => max (Ty.depthBounds paramBounds) result.depth + 1
  | .bounds ⟨low, high⟩ => max low.depth high.depth + 1
  | .and left right | .or left right => max left.depth right.depth + 1
  | .paramRef .. | .named _ | .thisOf _ | .any | .nothing => 1

def Ty.depthList : List Ty → Nat
  | [] => 0
  | t :: ts => max t.depth (Ty.depthList ts)

def Ty.depthBounds : List TypeBounds → Nat
  | [] => 0
  | ⟨low, high⟩ :: bs => max (max low.depth high.depth) (Ty.depthBounds bs)

end

namespace Ty

@[simp] theorem depth_lambda (l : TypeLambda) :
    (lambda l).depth = max (depthBounds l.paramBounds) l.result.depth + 1 := by
  cases l
  rw [depth]

@[simp] theorem depth_bounds (b : TypeBounds) :
    (bounds b).depth = max b.low.depth b.high.depth + 1 := by
  cases b
  rw [depth]

theorem depthBounds_cons (b : TypeBounds) (bs : List TypeBounds) :
    depthBounds (b :: bs) = max (max b.low.depth b.high.depth) (depthBounds bs) := by
  cases b
  rw [depthBounds]

theorem depth_pos (t : Ty) : 0 < t.depth := by
  cases t <;> simp [depth]

private theorem eq_or_eq_of_mem_pair {t a b : Ty} (h : t ∈ [a, b]) : t = a ∨ t = b := by
  simpa using h

private theorem depth_le_depthList {t : Ty} {ts : List Ty} (h : t ∈ ts) :
    t.depth ≤ depthList ts := by
  induction ts with
  | nil => cases h
  | cons u us ih =>
    rw [depthList]
    rcases List.mem_cons.1 h with rfl | h
    · exact Nat.le_max_left ..
    · exact Nat.le_trans (ih h) (Nat.le_max_right ..)

private theorem depth_le_depthBounds {t : Ty} {bs : List TypeBounds}
    (h : t ∈ bs.flatMap TypeBounds.toList) : t.depth ≤ depthBounds bs := by
  induction bs with
  | nil => cases h
  | cons b bs ih =>
    rw [depthBounds_cons]
    rw [List.flatMap_cons, List.mem_append] at h
    rcases h with h | h
    · rcases eq_or_eq_of_mem_pair h with rfl | rfl <;> omega
    · have := ih h
      omega

/-- A node is deeper than each of its children. -/
theorem depth_lt_of_mem_children {c t : Ty} (h : c ∈ t.children) : c.depth < t.depth := by
  cases t with
  | select qualifier name =>
    cases List.mem_singleton.1 h
    exact Nat.lt_succ_self _
  | applied tycon args =>
    rw [depth]
    rcases List.mem_cons.1 h with rfl | h
    · omega
    · have := depth_le_depthList h
      omega
  | lambda l =>
    rw [depth_lambda]
    rcases List.mem_append.1 h with h | h
    · have := depth_le_depthBounds h
      omega
    · cases List.mem_singleton.1 h
      omega
  | bounds b =>
    rw [depth_bounds]
    rcases eq_or_eq_of_mem_pair h with rfl | rfl <;> omega
  | and left right | or left right =>
    rw [depth]
    rcases eq_or_eq_of_mem_pair h with rfl | rfl <;> omega
  | paramRef _ _ | named _ | thisOf _ | any | nothing => cases h

/-- What holds of a node as soon as it holds of its children holds of every type. -/
theorem induction_children {P : Ty → Prop} (h : ∀ t : Ty, (∀ c ∈ t.children, P c) → P t) (t : Ty) :
    P t :=
  h t fun c _ ↦ induction_children h c
termination_by t.depth
decreasing_by exact depth_lt_of_mem_children ‹_›

/-- A parameter occurs at a node or below it. -/
theorem references_eq_any_children (b : Binder) (t : Ty) :
    t.references b =
      ((match t with | paramRef binder _ => binder == b | _ => false) ||
        t.children.any (·.references b)) := by
  cases t with
  | lambda l => simp [children, TypeBounds.toList, List.any_flatMap]
  | bounds c => simp [children, TypeBounds.toList]
  | _ => simp [references, children, listReferences_eq_any]

end Ty

/-! ## Equality -/

mutual

/-- Whether two types are the same tree. -/
def Ty.beq : Ty → Ty → Bool
  | .paramRef b i, .paramRef b' i' => b == b' && i == i'
  | .named n, .named n' => n == n'
  | .select q n, .select q' n' => q.beq q' && n == n'
  | .thisOf o, .thisOf o' => o == o'
  | .applied c args, .applied c' args' => c.beq c' && Ty.beqList args args'
  | .lambda l, .lambda l' => l.beq l'
  | .bounds b, .bounds b' => b.beq b'
  | .and l r, .and l' r' => l.beq l' && r.beq r'
  | .or l r, .or l' r' => l.beq l' && r.beq r'
  | .any, .any => true
  | .nothing, .nothing => true
  | _, _ => false

def TypeBounds.beq : TypeBounds → TypeBounds → Bool
  | ⟨low, high⟩, ⟨low', high'⟩ => low.beq low' && high.beq high'

def TypeLambda.beq : TypeLambda → TypeLambda → Bool
  | ⟨b, ns, bs, r⟩, ⟨b', ns', bs', r'⟩ =>
      b == b' && ns == ns' && Ty.beqBounds bs bs' && r.beq r'

def Ty.beqList : List Ty → List Ty → Bool
  | [], [] => true
  | t :: ts, t' :: ts' => t.beq t' && Ty.beqList ts ts'
  | _, _ => false

def Ty.beqBounds : List TypeBounds → List TypeBounds → Bool
  | [], [] => true
  | b :: bs, b' :: bs' => b.beq b' && Ty.beqBounds bs bs'
  | _, _ => false

end

mutual

theorem Ty.beq_iff : ∀ {s t : Ty}, s.beq t = true ↔ s = t
  | .paramRef .., t => by cases t <;> simp [Ty.beq]
  | .named _, t => by cases t <;> simp [Ty.beq]
  | .select q _, t => by cases t <;> simp [Ty.beq, Ty.beq_iff (s := q)]
  | .thisOf _, t => by cases t <;> simp [Ty.beq]
  | .applied c args, t => by
      cases t <;> simp [Ty.beq, Ty.beq_iff (s := c), Ty.beqList_iff (s := args)]
  | .lambda l, t => by cases t <;> simp [Ty.beq, TypeLambda.beq_iff (s := l)]
  | .bounds b, t => by cases t <;> simp [Ty.beq, TypeBounds.beq_iff (s := b)]
  | .and l r, t => by cases t <;> simp [Ty.beq, Ty.beq_iff (s := l), Ty.beq_iff (s := r)]
  | .or l r, t => by cases t <;> simp [Ty.beq, Ty.beq_iff (s := l), Ty.beq_iff (s := r)]
  | .any, t => by cases t <;> simp [Ty.beq]
  | .nothing, t => by cases t <;> simp [Ty.beq]

theorem TypeBounds.beq_iff : ∀ {s t : TypeBounds}, s.beq t = true ↔ s = t
  | ⟨low, high⟩, ⟨_, _⟩ => by
      simp [TypeBounds.beq, Ty.beq_iff (s := low), Ty.beq_iff (s := high)]

theorem TypeLambda.beq_iff : ∀ {s t : TypeLambda}, s.beq t = true ↔ s = t
  | ⟨_, _, bs, r⟩, ⟨_, _, _, _⟩ => by
      simp [TypeLambda.beq, Ty.beqBounds_iff (s := bs), Ty.beq_iff (s := r), and_assoc]

theorem Ty.beqList_iff : ∀ {s t : List Ty}, Ty.beqList s t = true ↔ s = t
  | [], t => by cases t <;> simp [Ty.beqList]
  | a :: l, t => by
      cases t <;> simp [Ty.beqList, Ty.beq_iff (s := a), Ty.beqList_iff (s := l)]

theorem Ty.beqBounds_iff : ∀ {s t : List TypeBounds}, Ty.beqBounds s t = true ↔ s = t
  | [], t => by cases t <;> simp [Ty.beqBounds]
  | b :: l, t => by
      cases t <;> simp [Ty.beqBounds, TypeBounds.beq_iff (s := b), Ty.beqBounds_iff (s := l)]

end

instance : DecidableEq Ty := fun _ _ ↦ decidable_of_iff _ Ty.beq_iff

instance : DecidableEq TypeBounds := fun _ _ ↦ decidable_of_iff _ TypeBounds.beq_iff

instance : DecidableEq TypeLambda := fun _ _ ↦ decidable_of_iff _ TypeLambda.beq_iff

end TreePickle
