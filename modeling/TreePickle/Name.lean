/-!
# Names

An entry of the name table is a simple name or a path of simple names. Derived names keep their
structure: the getter of a default argument is not the same as an identifier that happens to be
spelled like one.

## Representation

Three types refer to each other. A path is never empty, which its shape expresses: it is a single
name, or a name selected from a path. A signature is read from the front: parameters one by one,
and a result at the end. `QualifiedName.path` and `Signature.params` give the same data as lists.

A record of the name table begins with a byte that says how the rest is understood, its `NameTag`.
The numbering has gaps: plain and qualified names come first, then the derived names that carry a
number, those that only mark another name, and last the names of methods with their signature.

## Names in writing

The text of a name is what messages and section labels show. It forgets structure: the namespace
of types leaves no trace, and a derived name can be spelled like a plain one. Paths are joined by
dots, and `QualifiedName.ofDotted` takes a text apart at its dots.
-/

namespace TreePickle

/-! ## Tags of name records -/

/-- The kinds of name records. -/
inductive NameTag where
  /-- A text. -/
  | utf8
  /-- A name selected from a qualifier. -/
  | qualified
  /-- A private name made unique by its owner's name. -/
  | expanded
  /-- A name made unique by the name of a prefix. -/
  | expandPrefix
  /-- A name made unique by a number. -/
  | unique
  /-- The getter of a default argument. -/
  | defaultGetter
  /-- The accessor of a member of a superclass. -/
  | superAccessor
  /-- The accessor of a member that inlined code refers to. -/
  | inlineAccessor
  /-- The method that keeps the body of an inline method. -/
  | bodyRetainer
  /-- The class of an object. -/
  | objectClass
  /-- The name of a method with its signature, and the name that it overrides elsewhere. -/
  | targetSigned
  /-- The name of a method with its signature. -/
  | signed
  deriving DecidableEq, Repr, Inhabited

namespace NameTag

def toByte : NameTag → UInt8
  | utf8 => 1
  | qualified => 2
  | expanded => 3
  | expandPrefix => 4
  | unique => 10
  | defaultGetter => 11
  | superAccessor => 20
  | inlineAccessor => 21
  | bodyRetainer => 22
  | objectClass => 23
  | targetSigned => 62
  | signed => 63

/-- All tags, in the order of their bytes. -/
def all : List NameTag :=
  [utf8, qualified, expanded, expandPrefix, unique, defaultGetter, superAccessor, inlineAccessor,
    bodyRetainer, objectClass, targetSigned, signed]

/-- The tag that a byte stands for. -/
def ofByte? (b : UInt8) : Option NameTag := all.find? fun tag ↦ tag.toByte == b

theorem toByte_injective {s t : NameTag} (h : s.toByte = t.toByte) : s = t := by
  revert h
  cases s <;> cases t <;> decide

theorem ofByte?_eq_some_iff {b : UInt8} {tag : NameTag} :
    ofByte? b = some tag ↔ tag.toByte = b := by
  constructor
  · intro h
    simpa using List.find?_some h
  · rintro rfl
    cases tag <;> decide

/-- The name of the tag in the format's description. -/
def label : NameTag → String
  | utf8 => "UTF8"
  | qualified => "QUALIFIED"
  | expanded => "EXPANDED"
  | expandPrefix => "EXPANDPREFIX"
  | unique => "UNIQUE"
  | defaultGetter => "DEFAULTGETTER"
  | superAccessor => "SUPERACCESSOR"
  | inlineAccessor => "INLINEACCESSOR"
  | bodyRetainer => "BODYRETAINER"
  | objectClass => "OBJECTCLASS"
  | targetSigned => "TARGETSIGNED"
  | signed => "SIGNED"

/-- Whether the tag marks another name at its front. -/
def isPrefix : NameTag → Bool
  | superAccessor | inlineAccessor => true
  | _ => false

/-- Whether the tag marks another name at its end. -/
def isSuffix : NameTag → Bool
  | bodyRetainer => true
  | _ => false

end NameTag

/-! ## Simple names, paths and signatures -/

mutual

/-- A name without qualifier. -/
inductive SimpleName where
  /-- A text, in the namespace of terms. -/
  | term (text : String)
  /-- `name` made unique by the name in front of it. -/
  | expanded (tag : NameTag) (outer name : SimpleName)
  /-- `underlying` made unique by a number. -/
  | unique (separator : String) (underlying : SimpleName) (number : UInt64)
  /-- The getter of the default argument number `index`, counted from zero. -/
  | defaultGetter (underlying : SimpleName) (index : UInt64)
  /-- A method's name with its signature, and the name under which it is known elsewhere. -/
  | signed (underlying : SimpleName) (signature : Signature) (target : SimpleName)
  /-- A name with a mark at its front. -/
  | prefixed (tag : NameTag) (underlying : SimpleName)
  /-- A name with a mark at its end. -/
  | suffixed (tag : NameTag) (underlying : SimpleName)
  /-- The class of an object. -/
  | objectClass (underlying : SimpleName)
  /-- The same name in the namespace of types. -/
  | type (underlying : SimpleName)
  deriving DecidableEq

/-- A path of simple names. -/
inductive QualifiedName where
  | single (name : SimpleName)
  | select (qualifier : QualifiedName) (name : SimpleName)
  deriving DecidableEq

/-- The erased type of a method. -/
inductive Signature where
  /-- The type of the result. -/
  | result (type : QualifiedName)
  /-- A term parameter of the given type in front. -/
  | param (type : QualifiedName) (rest : Signature)
  /-- A clause of `count` type parameters in front. -/
  | typeParams (count : UInt64) (rest : Signature)
  deriving DecidableEq

end

/-- A parameter of a signature. -/
inductive ParamSig where
  /-- A term parameter of the given type. -/
  | term (type : QualifiedName)
  /-- A clause of so many type parameters. -/
  | typeLen (count : UInt64)
  deriving DecidableEq

/-- An entry of the name table. -/
inductive Name where
  | simple (name : SimpleName)
  | qualified (name : QualifiedName)
  deriving DecidableEq

/-! ## Simple names -/

namespace SimpleName

/-- The name of something that has none. -/
def empty : SimpleName := term ""

instance : Inhabited SimpleName := ⟨empty⟩

def isEmpty : SimpleName → Bool
  | term text => text == ""
  | _ => false

/-- The name in the namespace of types. -/
def toTypeName : SimpleName → SimpleName
  | type n => type n
  | n => type n

def isTypeName : SimpleName → Bool
  | type _ => true
  | _ => false

/-- The class of an object of this name. The mark does not leave the namespace of types. -/
def withObjectSuffix : SimpleName → SimpleName
  | type n => type n.withObjectSuffix
  | n => objectClass n

/-- The text of a name that is nothing but a text, in either namespace. -/
def plainText? : SimpleName → Option String
  | term text => some text
  | type n => n.plainText?
  | _ => none

end SimpleName

/-! ## Paths -/

namespace QualifiedName

/-- The names of a path, from the outermost inwards. -/
def path : QualifiedName → List SimpleName
  | single n => [n]
  | select q n => q.path ++ [n]

/-- The path with more names selected from it, one after the other. -/
def selectAll (q : QualifiedName) (names : List SimpleName) : QualifiedName :=
  names.foldl select q

/-- The path of a list of names, if there is any name. -/
def ofPath? : List SimpleName → Option QualifiedName
  | [] => none
  | n :: names => some ((single n).selectAll names)

/-- The last name of a path. -/
def last : QualifiedName → SimpleName
  | single n => n
  | select _ n => n

/-- Changes the last name of a path. -/
def mapLast (f : SimpleName → SimpleName) : QualifiedName → QualifiedName
  | single n => single (f n)
  | select q n => select q (f n)

@[simp] theorem path_selectAll (q : QualifiedName) (names : List SimpleName) :
    (q.selectAll names).path = q.path ++ names := by
  induction names generalizing q with
  | nil => simp [selectAll]
  | cons n names ih =>
    rw [selectAll, List.foldl_cons, ← selectAll, ih]
    simp [path]

theorem path_ne_nil (q : QualifiedName) : q.path ≠ [] := by
  cases q <;> simp [path]

theorem ofPath?_append_singleton {names : List SimpleName} (h : names ≠ []) (n : SimpleName) :
    ofPath? (names ++ [n]) = (ofPath? names).map (select · n) := by
  cases names with
  | nil => exact absurd rfl h
  | cons first names => simp [ofPath?, selectAll]

/-- A path is determined by its names. -/
@[simp] theorem ofPath?_path : ∀ q : QualifiedName, ofPath? q.path = some q
  | single _ => rfl
  | select q n => by rw [path, ofPath?_append_singleton q.path_ne_nil, ofPath?_path q]; rfl

end QualifiedName

/-! ## Signatures -/

namespace Signature

/-- Puts a parameter in front. -/
def withParam (s : Signature) : ParamSig → Signature
  | .term type => param type s
  | .typeLen count => typeParams count s

/-- The signature of a list of parameters and a result. -/
def ofParams (params : List ParamSig) (type : QualifiedName) : Signature :=
  params.foldr (fun p s ↦ s.withParam p) (result type)

/-- The parameters, from the first on. -/
def params : Signature → List ParamSig
  | result _ => []
  | param type rest => .term type :: rest.params
  | typeParams count rest => .typeLen count :: rest.params

/-- The type of the result. -/
def resultType : Signature → QualifiedName
  | result type => type
  | param _ rest => rest.resultType
  | typeParams _ rest => rest.resultType

theorem params_withParam (s : Signature) (p : ParamSig) :
    (s.withParam p).params = p :: s.params := by
  cases p <;> rfl

@[simp] theorem params_ofParams (ps : List ParamSig) (type : QualifiedName) :
    (ofParams ps type).params = ps := by
  induction ps with
  | nil => rfl
  | cons p ps ih => rw [ofParams, List.foldr_cons, ← ofParams, params_withParam, ih]

@[simp] theorem resultType_ofParams (ps : List ParamSig) (type : QualifiedName) :
    (ofParams ps type).resultType = type := by
  induction ps with
  | nil => rfl
  | cons p ps ih => cases p <;> exact ih

/-- A signature is determined by its parameters and its result. -/
@[simp] theorem ofParams_params : ∀ s : Signature, ofParams s.params s.resultType = s
  | result _ => rfl
  | param type rest => congrArg (param type) (ofParams_params rest)
  | typeParams count rest => congrArg (typeParams count) (ofParams_params rest)

end Signature

/-! ## Entries -/

namespace Name

/-- An entry as a path: a simple name is a path of one name. -/
def toQualified : Name → QualifiedName
  | simple n => .single n
  | qualified q => q

end Name

/-! ## Texts -/

/-- The number by which people count something that has an index from zero. The last index shares
its number with the one before it, so that the number still fits into 64 bits. -/
def ordinal (index : UInt64) : Nat := min (index.toNat + 1) (UInt64.size - 1)

mutual

/-- The text of a simple name. -/
def SimpleName.text : SimpleName → String
  | .term text => text
  | .expanded tag outer name =>
      outer.text ++ (if tag = .expandPrefix then "$" else "$$") ++ name.text
  | .unique separator underlying number =>
      underlying.text ++ separator ++ toString number.toNat
  | .defaultGetter underlying index =>
      underlying.text ++ "$default$" ++ toString (ordinal index)
  | .signed underlying signature _ => underlying.text ++ "[(" ++ signature.rest true ++ "]"
  | .prefixed tag underlying =>
      (if tag = .inlineAccessor then "inline$" else "super$") ++ underlying.text
  | .suffixed _ underlying => underlying.text ++ "$retainedBody"
  | .objectClass underlying => underlying.text ++ "$"
  | .type underlying => underlying.text

/-- The text of a path: its names with dots in between. -/
def QualifiedName.text : QualifiedName → String
  | .single name => name.text
  | .select qualifier name => qualifier.text ++ "." ++ name.text

/-- The text of a signature behind its opening bracket, or behind a parameter. -/
def Signature.rest (first : Bool) : Signature → String
  | .result type => ")" ++ type.text
  | .param type rest => (if first then "" else ",") ++ type.text ++ rest.rest false
  | .typeParams count rest =>
      (if first then "" else ",") ++ toString count.toNat ++ rest.rest false

end

/-- The text of a signature: the parameters in brackets, and the result. -/
def Signature.text (s : Signature) : String := "(" ++ s.rest true

/-- The text of a parameter: its type, or the number of type parameters. -/
def ParamSig.text : ParamSig → String
  | .term type => type.text
  | .typeLen count => toString count.toNat

def Name.text : Name → String
  | .simple n => n.text
  | .qualified q => q.text

/-! ## Dotted texts -/

/-- The piece of a text in front of its first dot, and the pieces that follow a dot. -/
def dottedPieces : List Char → List Char × List (List Char)
  | [] => ([], [])
  | c :: cs =>
      let (first, others) := dottedPieces cs
      if c = '.' then ([], first :: others) else (c :: first, others)

/-- The path whose names are the pieces of a text between its dots, empty ones included. -/
def QualifiedName.ofDotted (text : String) : QualifiedName :=
  let (first, others) := dottedPieces text.toList
  (single (.term (String.ofList first))).selectAll (others.map fun p ↦ .term (String.ofList p))

end TreePickle
