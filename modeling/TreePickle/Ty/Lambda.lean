import TreePickle.Ty.Visit

/-!
# Substitution and type lambdas

References to the parameters of one binder are replaced throughout a type: by references to those
of another binder (`Ty.rebind`), or by given types (`Ty.substitute`). References to other binders
stay. What is put in is not looked into again, so a replacement may mention the very binder that
is being replaced. Both are transformations whose step changes the references and walks on below
every other node.

## Lambdas

A lambda is made with a binder of its own, and a copy gets a new one, so that its parameters can be
told from those of the lambda it was copied from. Applying a lambda to arguments replaces its
parameters in the result; the bounds are not checked. A lambda inside of the result keeps its
binder, so an argument that mentions that binder means the lambda's parameters afterwards.
-/

namespace TreePickle

namespace Ty

/-- Why parameters cannot be replaced. -/
inductive Fault where
  /-- There is no replacement for a parameter that occurs. -/
  | noReplacement (binder : Binder) (index count : Nat)
  /-- A lambda is given too many or too few arguments. -/
  | arityMismatch (expected actual : Nat)
  deriving DecidableEq, Repr

def Fault.message : Fault → String
  | noReplacement binder index count =>
      s!"Parameter {index} of binder {binder.text} has no replacement ({count} given)"
  | arityMismatch expected actual =>
      s!"Invalid type argument count: expected {expected}, got {actual}"

/-! ## Other binders -/

def rebindStep (old new : Binder) : Step Id := fun t below ↦
  match t with
  | paramRef binder index => if binder = old then paramRef new index else below
  | _ => below

/-- Points references to `old` at `new`. -/
def rebind (t : Ty) (old new : Binder) : Ty := Id.run (t.transform (rebindStep old new))

/-! ## Other types -/

def substituteStep (old : Binder) (replacements : List Ty) : Step (Except Fault) := fun t below ↦
  match t with
  | paramRef binder index =>
      if binder = old then
        match replacements[index]? with
        | some r => .ok r
        | none => .error (.noReplacement old index replacements.length)
      else below
  | _ => below

/-- Replaces the parameters of `old` by the types at their positions. -/
def substitute (t : Ty) (old : Binder) (replacements : List Ty) : Except Fault Ty :=
  t.transform (substituteStep old replacements)

end Ty

/-! ## Type lambdas -/

namespace TypeLambda

/-- A lambda with a new binder, which its bounds and its result may refer to. The binder is minted
first, and lambdas inside of it get later ones. -/
def build (paramNames : List SimpleName) (body : Binder → Minting (List TypeBounds × Ty)) :
    Minting TypeLambda := do
  let binder ← Binder.fresh
  let (paramBounds, result) ← body binder
  return { binder, paramNames, paramBounds, result }

/-- The number of parameters. -/
def arity (l : TypeLambda) : Nat := l.paramNames.length

/-- A reference to a parameter. -/
def paramRef (l : TypeLambda) (index : Nat) : Ty := .paramRef l.binder index

/-- The result for given arguments. -/
def instantiate (l : TypeLambda) (args : List Ty) : Except Ty.Fault Ty :=
  if args.length ≠ l.arity then .error (.arityMismatch l.arity args.length)
  else l.result.substitute l.binder args

/-- The same lambda with another binder. -/
def withBinder (l : TypeLambda) (binder : Binder) : TypeLambda where
  binder := binder
  paramNames := l.paramNames
  paramBounds := l.paramBounds.map fun b ↦
    ⟨b.low.rebind l.binder binder, b.high.rebind l.binder binder⟩
  result := l.result.rebind l.binder binder

/-- The same lambda with a new binder. -/
def freshCopy (l : TypeLambda) : Minting TypeLambda := return l.withBinder (← Binder.fresh)

end TypeLambda

end TreePickle
