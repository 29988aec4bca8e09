import TreePickle.Proofs.Parameters

/-!
# Two substitutions in a row

Substituting for the parameters of `a` and then for those of `b` is the same as substituting for
`b` first and then for `a`, if the replacements for `a` have been substituted in as well:
`Ty.substitute_substitute`. It is an equation between runs that may fail, so both sides have to
meet the same reference without a replacement first.

## Runs in two stages

On the right-hand side a whole tree is passed over before the second substitution begins. An
induction on the tree with the equation itself as its hypothesis would fail at a node with several
children: the stages of one child come after each other, while in the node the first stage of all
children comes before the second stage of any. A fault of the second stage would come too early or
too late.

`Ty.Staged` therefore says more than the equation: the second stage has no fault of its own. If the
first one fails, so does the whole, with the same fault, and if it does not, then neither does the
second. In this form the statement goes through lists, `Ty.Staged.mapM`, and so from the children to
the node.

## Where the hypotheses are used

The second stage finds a replacement for every parameter of `a` that is left, because the first
substitution found one and the lists are equally long, and because the replacements for `b` bring no
more of them in. That `a` and `b` are different is needed for a reference to `a`, which the other
substitution has to leave alone.
-/

namespace TreePickle.Ty

/-! ## Runs in two stages -/

section

variable {ε α β γ δ : Type}

/-- `z` is the outcome of `x` followed by `g`, and `g` has no faults of its own on what `x`
gives. -/
inductive Staged (x : Except ε α) (g : α → Except ε β) (z : Except ε β) : Prop
  | failed {e : ε} (hx : x = .error e) (hz : z = .error e)
  | done {v : α} {w : β} (hx : x = .ok v) (hg : g v = .ok w) (hz : z = .ok w)

theorem Staged.eq_bind {x : Except ε α} {g : α → Except ε β} {z : Except ε β}
    (h : Staged x g z) : z = x >>= g := by
  cases h with
  | failed hx hz =>
    rw [hx, hz]
    rfl
  | done hx hg hz =>
    rw [hx, hz, ← hg]
    rfl

/-- The stages of a list, all entries in the first stage before any in the second. Faults of the
second one would change places with later ones of the first. -/
theorem Staged.mapM {f : α → Except ε β} {g : β → Except ε γ} {k : δ → Except ε γ} {xs : List α}
    {ys : List δ} (h : List.Forall₂ (fun x y ↦ Staged (f x) g (k y)) xs ys) :
    Staged (xs.mapM f) (List.mapM g) (ys.mapM k) := by
  induction h with
  | nil => exact .done rfl rfl rfl
  | cons h _ ih =>
    rw [List.mapM_cons, List.mapM_cons]
    cases h with
    | failed hx hz => exact .failed (by rw [hx]; rfl) (by rw [hz]; rfl)
    | done hx hg hz =>
      rw [hx, hz]
      cases ih with
      | failed hxs hzs => exact .failed (by rw [hxs]; rfl) (by rw [hzs]; rfl)
      | done hxs hgs hzs =>
        refine .done (by rw [hxs]; rfl) ?_ (by rw [hzs]; rfl)
        rw [List.mapM_cons, hg, hgs]
        rfl

end

/-! ## The substitution lemma -/

section

variable {a b : Binder} {rs rs' ss : List Ty}

/-- A replacement for `a` comes in, before `b` is replaced or after. -/
private theorem staged_substitute_replaced (hab : a ≠ b)
    (hrs : List.Forall₂ (fun r r' ↦ r.substitute b ss = .ok r') rs rs') {i : Nat} {r : Ty}
    (hr : rs[i]? = some r) :
    Staged ((paramRef a i).substitute b ss) (·.substitute a rs') (r.substitute b ss) := by
  obtain ⟨r', hr', hsub⟩ := exists_getElem?_of_forall₂ hrs hr
  refine .done (substitute_paramRef_of_ne hab) ?_ hsub
  rw [substitute_paramRef_self, hr']

private theorem staged_substitute_kept (hss : ∀ s ∈ ss, s.references a = false) {c : Binder}
    (hca : c ≠ a) (i : Nat) :
    Staged ((paramRef c i).substitute b ss) (·.substitute a rs')
      ((paramRef c i).substitute b ss) := by
  by_cases hcb : c = b
  · -- a replacement for `b` comes in, in which there is nothing to replace for `a`
    subst hcb
    rw [substitute_paramRef_self]
    cases hs : ss[i]? with
    | none => exact .failed rfl rfl
    | some s =>
      have hmem : s ∈ ss := List.mem_of_getElem? hs
      exact .done rfl (substitute_of_references_eq_false (hss s hmem)) rfl
  · have hstays : (paramRef c i).substitute b ss = .ok (paramRef c i) :=
      substitute_paramRef_of_ne hcb
    exact .done hstays (substitute_paramRef_of_ne hca) hstays

private theorem staged_substitute_node {t : Ty} (ht : t.isParam = false) {us : List Ty}
    (h : List.Forall₂ (fun c u ↦
      Staged (c.substitute b ss) (·.substitute a rs') (u.substitute b ss)) t.children us) :
    Staged (t.substitute b ss) (·.substitute a rs') ((t.withChildren us).substitute b ss) := by
  have hus : us.length = t.children.length := h.length_eq.symm
  rw [substitute_node ht, substitute_withChildren ht hus]
  cases Staged.mapM h with
  | failed hx hz => exact .failed (by rw [hx]; rfl) (by rw [hz]; rfl)
  | @done vs ws hx hg hz =>
    have hvs : vs.length = t.children.length := (mapM_eq_ok_iff.mp hx).length_eq.symm
    refine .done (v := t.withChildren vs) (w := t.withChildren ws) ?_ ?_ ?_
    · rw [hx, Except.map_ok]
    · rw [substitute_withChildren ht hvs, hg, Except.map_ok]
    · rw [hz, Except.map_ok]

/-- Substituting for `b` and then for `a` does in two stages what substituting for `b` does after
that for `a`. The second stage finds replacements for all that the first substitution found. -/
theorem staged_substitute (hab : a ≠ b) (hss : ∀ s ∈ ss, s.references a = false)
    (hrs : List.Forall₂ (fun r r' ↦ r.substitute b ss = .ok r') rs rs') {t u : Ty}
    (h : t.substitute a rs = .ok u) :
    Staged (t.substitute b ss) (·.substitute a rs') (u.substitute b ss) := by
  refine substitute_induction (P := fun t u ↦
    Staged (t.substitute b ss) (·.substitute a rs') (u.substitute b ss)) ?_ ?_ ?_ h
  · exact fun i r hr ↦ staged_substitute_replaced hab hrs hr
  · exact fun c i hc ↦ staged_substitute_kept hss hc i
  · exact fun t us ht hus ↦ staged_substitute_node ht hus

/-- **The substitution lemma.** If the replacements for `b` do not refer to `a`, two substitutions
change places as the replacements for `a` are substituted in themselves, with the same fault if
there is one. -/
theorem substitute_substitute (hab : a ≠ b) (hss : ∀ s ∈ ss, s.references a = false)
    (hrs : List.Forall₂ (fun r r' ↦ r.substitute b ss = .ok r') rs rs') {t u : Ty}
    (h : t.substitute a rs = .ok u) :
    u.substitute b ss = (do (← t.substitute b ss).substitute a rs') :=
  (staged_substitute hab hss hrs h).eq_bind

/-- Under a lambda, where a replacement for `a` brings in a reference to `b`, and where the other
reference to `b` may have a replacement or none. -/
theorem substitute_substitute_lambda :
    let a : Binder := ⟨0⟩
    let b : Binder := ⟨1⟩
    let int := ofText "Int"
    let t (i : Nat) (p q r : Ty) :=
      lambda ⟨⟨2⟩, [], [⟨nothing, p⟩], applied q [member (paramRef b i) "T", paramRef ⟨2⟩ 0, r]⟩
    let source (i : Nat) := t i (paramRef a 0) (paramRef b 0) (paramRef a 1)
    let halfway (i : Nat) := t i (paramRef b 0) (paramRef b 0) any
    a ≠ b ∧ (∀ s ∈ [int], s.references a = false) ∧
      List.Forall₂ (fun r r' ↦ r.substitute b [int] = .ok r') [paramRef b 0, any] [int, any] ∧
      (∀ i ∈ [0, 1], (source i).substitute a [paramRef b 0, any] = .ok (halfway i) ∧
        (halfway i).substitute b [int] =
          (do (← (source i).substitute b [int]).substitute a [int, any])) ∧
      ((halfway 0).substitute b [int]).isOk = true ∧
      (halfway 1).substitute b [int] = .error (.noReplacement b 1 1) := by
  intro a b int t source halfway
  have hab : a ≠ b := by decide
  have hint : ∀ s ∈ [int], s.references a = false := by decide
  have hrs : List.Forall₂ (fun r r' ↦ r.substitute b [int] = .ok r') [paramRef b 0, any]
      [int, any] := .cons rfl (.cons rfl .nil)
  have hsource : ∀ i ∈ [0, 1], (source i).substitute a [paramRef b 0, any] = .ok (halfway i) := by
    simp only [List.forall_mem_cons]
    exact ⟨by decide +kernel, by decide +kernel, by simp⟩
  refine ⟨hab, hint, hrs, fun i hi ↦ ⟨hsource i hi, ?_⟩, rfl, rfl⟩
  exact substitute_substitute hab hint hrs (hsource i hi)

end

end TreePickle.Ty
