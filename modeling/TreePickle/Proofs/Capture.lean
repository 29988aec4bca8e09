import TreePickle.Proofs.Occurrences
import TreePickle.Ty.Lambda

/-!
# Capture

A reference is free if no lambda around it owns it. What is free in an instance of a lambda is known
exactly from the occurrences in its result and in the arguments: what an argument brings in stays
free if no lambda around the place has the binder, and only then. This is
`TypeLambda.occurrences_instantiate`.

## Conditions on the arguments

An instance is made by a substitution, which goes below nested lambdas with the binders that they
have. Whether one of these captures a reference depends on the place where the argument comes in:
`TypeLambda.Inserts` pairs an argument with the lambdas around such a place, and
`TypeLambda.Captures` asks for a free reference in it to one of their binders. The hypothesis speaks
of what goes into an instantiation, not of what comes out, so that it can be tested beforehand. It
holds if the arguments do not refer to the binders of nested lambdas at all,
`TypeLambda.not_captures_of_references_eq_false`.

## Captured references

Binders that were minted for different lambdas are different, but that is not enough. All instances
of a lambda share the lambdas inside of it with their binders, so a reference that is taken from one
instance can be captured in the next: `TypeLambda.instance_captures`. The lambdas in both instances
are the same one, with the one binder that was minted for it.

## The proof

Occurrences in an instance are known from `Ty.occurrences_substitute`, each with its owners. It
remains to see which of them are free, and that is asked of each one by itself,
`Occurrence.isFree_under`: below more lambdas, a reference is free if it was so before and none of
them owns it.
-/

namespace TreePickle

/-! ## Free references -/

namespace Occurrence

/-- No lambda around the place owns the reference. -/
def IsFree (o : Occurrence) : Prop := o.binder ∉ o.owners

instance (o : Occurrence) : Decidable o.IsFree := inferInstanceAs (Decidable (_ ∉ _))

theorem isFree_under {o : Occurrence} {owners : List Binder} :
    (o.under owners).IsFree ↔ o.IsFree ∧ o.binder ∉ owners := by
  rw [IsFree, IsFree, under, List.mem_append, not_or]

end Occurrence

namespace Ty

/-- A reference occurs free in a type. -/
def HasFree (t : Ty) (b : Binder) (i : Nat) : Prop :=
  ∃ o ∈ t.occurrences, o.binder = b ∧ o.index = i ∧ o.IsFree

instance (t : Ty) (b : Binder) (i : Nat) : Decidable (t.HasFree b i) :=
  inferInstanceAs (Decidable (∃ o ∈ t.occurrences, o.binder = b ∧ o.index = i ∧ o.IsFree))

end Ty

/-! ## Instances of a lambda -/

namespace TypeLambda

variable {l : TypeLambda} {args : List Ty} {r : Ty}

/-- The place of a parameter in the result of a lambda is taken by an argument, below nested lambdas
with these binders. -/
def Inserts (l : TypeLambda) (args : List Ty) (arg : Ty) (owners : List Binder) : Prop :=
  ∃ k, ⟨l.binder, k, owners⟩ ∈ l.result.occurrences ∧ args[k]? = some arg

/-- A nested lambda becomes the owner of a free reference in an argument. -/
def Captures (l : TypeLambda) (args : List Ty) : Prop :=
  ∃ arg owners, l.Inserts args arg owners ∧ ∃ o ∈ arg.occurrences, o.IsFree ∧ o.binder ∈ owners

theorem substitute_of_instantiate (h : l.instantiate args = .ok r) :
    l.result.substitute l.binder args = .ok r := by
  rw [instantiate] at h
  split at h
  · cases h
  · exact h

theorem mem_occurrences_instantiate (h : l.instantiate args = .ok r) {p : Occurrence} :
    p ∈ r.occurrences ↔ p ∈ l.result.occurrences ∧ p.binder ≠ l.binder ∨
      ∃ arg owners, l.Inserts args arg owners ∧ ∃ o ∈ arg.occurrences, o.under owners = p := by
  rw [Ty.occurrences_substitute (substitute_of_instantiate h), List.mem_flatMap]
  simp only [Occurrence.mem_replaced_iff]
  constructor
  · rintro ⟨o, ho, ⟨hne, rfl⟩ | ⟨heq, arg, harg, hp⟩⟩
    · exact .inl ⟨ho, hne⟩
    · exact .inr ⟨arg, o.owners, ⟨o.index, heq ▸ ho, harg⟩, hp⟩
  · rintro (⟨hp, hne⟩ | ⟨arg, owners, ⟨k, hk, harg⟩, hp⟩)
    · exact ⟨p, hp, .inl ⟨hne, rfl⟩⟩
    · exact ⟨_, hk, .inr ⟨rfl, arg, harg, hp⟩⟩

theorem hasFree_instantiate (h : l.instantiate args = .ok r) {b : Binder} {i : Nat} :
    r.HasFree b i ↔ b ≠ l.binder ∧ l.result.HasFree b i ∨
      ∃ arg owners, l.Inserts args arg owners ∧ b ∉ owners ∧ arg.HasFree b i := by
  simp only [Ty.HasFree, mem_occurrences_instantiate h]
  constructor
  · rintro ⟨p, ⟨hp, hne⟩ | ⟨arg, owners, hput, o, ho, rfl⟩, rfl, rfl, hfree⟩
    · exact .inl ⟨hne, p, hp, rfl, rfl, hfree⟩
    · obtain ⟨hfree, hout⟩ := Occurrence.isFree_under.mp hfree
      exact .inr ⟨arg, owners, hput, hout, o, ho, rfl, rfl, hfree⟩
  · rintro (⟨hne, p, hp, rfl, rfl, hfree⟩ | ⟨arg, owners, hput, hout, o, ho, rfl, rfl, hfree⟩)
    · exact ⟨p, .inl ⟨hp, hne⟩, rfl, rfl, hfree⟩
    · exact ⟨_, .inr ⟨arg, owners, hput, o, ho, rfl⟩, rfl, rfl,
        Occurrence.isFree_under.mpr ⟨hfree, hout⟩⟩

/-- Nothing is captured if no argument refers to a binder of a lambda around a place where it comes
in. -/
theorem not_captures_of_references_eq_false (h : ∀ place ∈ l.result.occurrences,
    place.binder = l.binder → ∀ arg ∈ args[place.index]?, ∀ b ∈ place.owners,
      arg.references b = false) : ¬l.Captures args := by
  rintro ⟨arg, owners, ⟨k, hk, harg⟩, o, ho, -, howner⟩
  have href : arg.references o.binder = true := Ty.references_iff_exists_occurrence.mpr ⟨o, ho, rfl⟩
  rw [h _ hk rfl arg harg _ howner] at href
  cases href

/-- **What an instance refers to.** The references in the result of a lambda stay, those to its
parameters apart, and in the places of these come the references in the arguments. What is free in
an argument stays free if no lambda around the place has the binder, and only then. -/
theorem occurrences_instantiate (h : l.instantiate args = .ok r) :
    r.occurrences = l.result.occurrences.flatMap (·.replaced l.binder args) ∧
      (∀ b i, r.HasFree b i ↔ b ≠ l.binder ∧ l.result.HasFree b i ∨
        ∃ arg owners, l.Inserts args arg owners ∧ b ∉ owners ∧ arg.HasFree b i) ∧
      (¬l.Captures args → ∀ arg owners, l.Inserts args arg owners →
        (∀ b i, arg.HasFree b i → r.HasFree b i) ∧
        ∀ o ∈ arg.occurrences, o.under owners ∈ r.occurrences ∧
          ((o.under owners).IsFree ↔ o.IsFree)) := by
  refine ⟨Ty.occurrences_substitute (substitute_of_instantiate h),
    fun b i ↦ hasFree_instantiate h, fun hcaptures arg owners hput ↦ ⟨?_, fun o ho ↦ ⟨?_, ?_⟩⟩⟩
  · rintro b i ⟨o, ho, rfl, rfl, hfree⟩
    have hout : o.binder ∉ owners := fun hin ↦ hcaptures ⟨arg, owners, hput, o, ho, hfree, hin⟩
    exact (hasFree_instantiate h).mpr (.inr ⟨arg, owners, hput, hout, o, ho, rfl, rfl, hfree⟩)
  · exact (mem_occurrences_instantiate h).mpr (.inr ⟨arg, owners, hput, o, ho, rfl⟩)
  · rw [Occurrence.isFree_under]
    exact and_iff_left_of_imp fun hfree hin ↦ hcaptures ⟨arg, owners, hput, o, ho, hfree, hin⟩

/-- A reference that comes in below a nested lambda, and one to the binder of that lambda, which
comes in beside it. -/
theorem occurrences_instantiate_nested :
    let y := Ty.paramRef ⟨1⟩ 0
    let z := Ty.paramRef ⟨7⟩ 3
    let inner (x : Ty) := Ty.lambda ⟨⟨1⟩, [.term "Y"], [.unbounded], .applied x [y]⟩
    let l : TypeLambda := ⟨⟨0⟩, [.term "X", .term "Z"], [.unbounded, .unbounded],
      .and (inner (.paramRef ⟨0⟩ 0)) (.paramRef ⟨0⟩ 1)⟩
    let r := Ty.and (inner z) y
    l.instantiate [z, y] = .ok r ∧ ¬l.Captures [z, y] ∧ r.HasFree ⟨7⟩ 3 ∧ r.HasFree ⟨1⟩ 0 := by
  intro y z inner l r
  have hr : l.instantiate [z, y] = .ok r := by decide +kernel
  have hcaptures : ¬l.Captures [z, y] := not_captures_of_references_eq_false (by decide)
  obtain ⟨-, -, hstays⟩ := occurrences_instantiate hr
  have hz : l.Inserts [z, y] z [⟨1⟩] := ⟨0, by decide, rfl⟩
  have hy : l.Inserts [z, y] y [] := ⟨1, by decide, rfl⟩
  exact ⟨hr, hcaptures, (hstays hcaptures _ _ hz).1 _ _ (by decide),
    (hstays hcaptures _ _ hy).1 _ _ (by decide)⟩

/-- A parameter of one instance is captured in the next. The lambda in both is the same, with one
binder that was minted for it. -/
theorem instance_captures :
    let pair (s t : Ty) := Ty.applied (.ofText "Pair") [s, t]
    let outer : Minting TypeLambda := do
      let y ← Binder.fresh
      build [.term "X"] fun x ↦ return ([.unbounded],
        .lambda ⟨y, [.term "Y"], [.unbounded], pair (.paramRef x 0) (.paramRef y 0)⟩)
    let l := (outer.run .initial).1
    ∃ first second : TypeLambda, l.instantiate [.any] = .ok (.lambda first) ∧
      l.instantiate [first.paramRef 0] = .ok (.lambda second) ∧
      l.Inserts [first.paramRef 0] (first.paramRef 0) [second.binder] ∧
      (first.paramRef 0).HasFree first.binder 0 ∧ ¬(Ty.lambda second).HasFree first.binder 0 := by
  intro pair outer l
  let nested (x : Ty) : TypeLambda :=
    ⟨⟨0⟩, [.term "Y"], [.unbounded], pair x (.paramRef ⟨0⟩ 0)⟩
  refine ⟨nested .any, nested (.paramRef ⟨0⟩ 0), ?_, ?_, ⟨0, ?_, rfl⟩, ?_, ?_⟩
  · decide +kernel
  · decide +kernel
  · decide
  · decide
  · decide

end TypeLambda

end TreePickle
