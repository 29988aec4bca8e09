import Mathlib.Algebra.Group.Nat.Defs
import Mathlib.Data.List.Nodup
import TreePickle.Proofs.FreshCopy
import TreePickle.Proofs.Occurrences
import TreePickle.Proofs.Visiting

/-!
# Freshness of binders

A program gets its binders by calls: it mints one, it makes a lambda, or it copies one. In a run of
up to `2 ^ 32` calls no binder is minted twice, and the binder of a copy is in no type that was
there before the copy. In a longer run the binders come again. `Program.mints_once` says both, with
the exact bound.

## Programs

What a program does next may depend on what it got, and there may be more calls while a lambda is
being made. So a program is a tree, `Program`, which branches over the results of its calls, and the
body of a lambda is a subtree that may call and go on like any other. The calls of a run are listed
in the order in which they mint, `Program.calls`. Calls of several threads mint one after the other
as well, so they are such a list.

## The invariant

Each call mints the binder of its place, `Program.run_calls`. This is proved by induction on the
program, together with what is left of the supply, for any supply to begin with. Places go on and
on, but the number of a binder is a word, so binders of two places are the same if and only if the
places differ by a multiple of `2 ^ 32` (`BinderSupply.binder_eq_binder_iff`). All that is said of a
run is read off from that.

## Copies

A type that is there before a call is made of binders from earlier calls, and that is all that is
known of it. If the call is one of the first `2 ^ 32`, a copy is what it should be,
`Program.isCopy_of_calls`. From that place on there are older types with the binder of the copy, and
a copy can get the binder of a reference in its source: `Program.copy_captures`.
-/

namespace TreePickle

/-! ## The binders of a supply -/

namespace BinderSupply

variable (s : BinderSupply) (m n : Nat)

/-- The supply from which `n` more binders have been minted. -/
def after (n : Nat) : BinderSupply := ⟨s.next + UInt32.ofNat n⟩

/-- The binder that is minted after `n` others. -/
def binder (n : Nat) : Binder := ⟨(s.after n).next⟩

@[simp] theorem after_zero : s.after 0 = s := by simp [after]

@[simp] theorem after_after : (s.after m).after n = s.after (m + n) := by
  simp [after, UInt32.ofNat_add, UInt32.add_assoc]

theorem binder_zero : s.binder 0 = ⟨s.next⟩ := by rw [binder, after_zero]

@[simp] theorem binder_after : (s.after m).binder n = s.binder (m + n) := by
  rw [binder, after_after, binder]

theorem binder_eq_binder_iff {i j : Nat} : s.binder i = s.binder j ↔ i % 2 ^ 32 = j % 2 ^ 32 := by
  rw [binder, binder, Binder.mk.injEq, after, after, UInt32.add_right_inj, ← UInt32.toNat_inj,
    UInt32.toNat_ofNat', UInt32.toNat_ofNat']

/-- The binder of a place is one of those before it if and only if a word cannot number it. -/
theorem binder_mem_iff {i : Nat} : s.binder i ∈ (List.range i).map s.binder ↔ 2 ^ 32 ≤ i := by
  simp only [List.mem_map, List.mem_range, binder_eq_binder_iff]
  constructor
  · rintro ⟨j, hj, heq⟩
    omega
  · intro hi
    exact ⟨i - 2 ^ 32, by omega, by omega⟩

theorem nodup_map_binder_iff : ((List.range n).map s.binder).Nodup ↔ n ≤ 2 ^ 32 := by
  rw [List.nodup_map_iff_inj_on List.nodup_range]
  simp only [List.mem_range, binder_eq_binder_iff]
  constructor
  · intro h
    by_contra hn
    have heq : 0 = 2 ^ 32 := h 0 (by omega) (2 ^ 32) (by omega) (by decide)
    omega
  · intro hn i hi j hj heq
    omega

end BinderSupply

theorem Binder.run_fresh (s : BinderSupply) : Binder.fresh.run s = (s.binder 0, s.after 1) := by
  rw [BinderSupply.binder_zero]
  rfl

theorem TypeLambda.run_freshCopy (l : TypeLambda) (s : BinderSupply) :
    l.freshCopy.run s = (l.withBinder (s.binder 0), s.after 1) := by
  rw [BinderSupply.binder_zero]
  rfl

theorem TypeLambda.run_build (paramNames : List SimpleName)
    (body : Binder → Minting (List TypeBounds × Ty)) (s : BinderSupply) :
    (build paramNames body).run s =
      let ((paramBounds, result), s') := (body (s.binder 0)).run (s.after 1)
      (⟨s.binder 0, paramNames, paramBounds, result⟩, s') := by
  rw [BinderSupply.binder_zero]
  rfl

/-! ## Calls -/

/-- A call that mints a binder, with what it gave. -/
inductive Call where
  | fresh (binder : Binder)
  | build (made : TypeLambda)
  | freshCopy (source copy : TypeLambda)
  deriving DecidableEq

namespace Call

/-- The binder that a call mints. -/
def binder : Call → Binder
  | fresh b => b
  | build made => made.binder
  | freshCopy _ copy => copy.binder

/-- The call mints `b`, and a copy is its source but for the binder. -/
def Mints (b : Binder) : Call → Prop
  | fresh b' => b' = b
  | build made => made.binder = b
  | freshCopy source copy => copy = source.withBinder b

theorem Mints.binder_eq {c : Call} {b : Binder} (h : c.Mints b) : c.binder = b := by
  cases c with
  | fresh b' => exact h
  | build made => exact h
  | freshCopy source copy => exact congrArg TypeLambda.binder h

/-- The binders that are minted before the call at a place. -/
def bindersBefore (calls : List Call) (i : Nat) : List Binder := (calls.take i).map binder

end Call

/-- The calls mint the binders of the supply, each the one of its place. -/
def BinderSupply.Numbers (s : BinderSupply) (calls : List Call) : Prop :=
  ∀ (i : Nat) (c : Call), calls[i]? = some c → c.Mints (s.binder i)

namespace BinderSupply.Numbers

variable {s : BinderSupply} {c : Call} {cs ds : List Call}

theorem nil : s.Numbers [] := by
  intro i c h
  cases h

theorem append (hcs : s.Numbers cs) (hds : (s.after cs.length).Numbers ds) :
    s.Numbers (cs ++ ds) := by
  intro i d hd
  rcases Nat.lt_or_ge i cs.length with hi | hi
  · exact hcs i d (by rwa [List.getElem?_append_left hi] at hd)
  · rw [List.getElem?_append_right hi] at hd
    have hmints := hds _ d hd
    rwa [binder_after, Nat.add_sub_cancel' hi] at hmints

theorem cons (hc : c.Mints (s.binder 0)) (hcs : (s.after 1).Numbers cs) : s.Numbers (c :: cs) := by
  have hone : s.Numbers [c] := by
    rintro (_ | i) d hd
    · cases hd
      exact hc
    · cases hd
  exact hone.append hcs

theorem map_binder (h : s.Numbers cs) :
    cs.map Call.binder = (List.range cs.length).map s.binder := by
  refine List.ext_getElem (by simp) fun i hi _ ↦ ?_
  rw [List.length_map] at hi
  simp [(h i cs[i] (List.getElem?_eq_getElem hi)).binder_eq]

theorem bindersBefore {i : Nat} (h : s.Numbers cs) (hi : i ≤ cs.length) :
    Call.bindersBefore cs i = (List.range i).map s.binder := by
  rw [Call.bindersBefore, List.map_take, h.map_binder, ← List.map_take, List.take_range,
    Nat.min_eq_left hi]

end BinderSupply.Numbers

/-! ## Programs -/

/-- A computation that gets binders by nothing but calls. -/
inductive Program : Type → Type 1
  | done {α : Type} (a : α) : Program α
  | fresh {α : Type} (next : Binder → Program α) : Program α
  | build {α : Type} (paramNames : List SimpleName)
      (body : Binder → Program (List TypeBounds × Ty)) (next : TypeLambda → Program α) : Program α
  | freshCopy {α : Type} (l : TypeLambda) (next : TypeLambda → Program α) : Program α

namespace Program

def run : {α : Type} → Program α → Minting α
  | _, done a => return a
  | _, fresh next => do (next (← Binder.fresh)).run
  | _, build paramNames body next => do
      (next (← TypeLambda.build paramNames fun b ↦ (body b).run)).run
  | _, freshCopy l next => do (next (← l.freshCopy)).run

/-- The calls of a run. The one that makes a lambda mints before those that it waits for. -/
def calls : {α : Type} → Program α → BinderSupply → List Call
  | _, done _, _ => []
  | _, fresh next, s =>
      let (b, s') := Binder.fresh.run s
      .fresh b :: (next b).calls s'
  | _, build paramNames body next, s =>
      let (made, s') := (TypeLambda.build paramNames fun b ↦ (body b).run).run s
      .build made :: ((body made.binder).calls (Binder.fresh.run s).2 ++ (next made).calls s')
  | _, freshCopy l next, s =>
      let (copy, s') := l.freshCopy.run s
      .freshCopy l copy :: (next copy).calls s'

/-- Mints `n` binders and uses none of them. -/
def skip {α : Type} : Nat → Program α → Program α
  | 0, p => p
  | n + 1, p => fresh fun _ ↦ skip n p

/-! ### One call -/

section

variable {α : Type} (s : BinderSupply)

theorem run_fresh (next : Binder → Program α) :
    (fresh next).run.run s = (next (s.binder 0)).run.run (s.after 1) := by
  rw [run, StateT.run_bind, Binder.run_fresh]
  rfl

theorem calls_fresh (next : Binder → Program α) :
    (fresh next).calls s = .fresh (s.binder 0) :: (next (s.binder 0)).calls (s.after 1) := by
  rw [calls, Binder.run_fresh]

theorem run_freshCopy (l : TypeLambda) (next : TypeLambda → Program α) :
    (freshCopy l next).run.run s = (next (l.withBinder (s.binder 0))).run.run (s.after 1) := by
  rw [run, StateT.run_bind, TypeLambda.run_freshCopy]
  rfl

theorem calls_freshCopy (l : TypeLambda) (next : TypeLambda → Program α) :
    (freshCopy l next).calls s = .freshCopy l (l.withBinder (s.binder 0)) ::
      (next (l.withBinder (s.binder 0))).calls (s.after 1) := by
  rw [calls, TypeLambda.run_freshCopy]

variable {paramBounds : List TypeBounds} {result : Ty} {s' : BinderSupply}
  {body : Binder → Program (List TypeBounds × Ty)} (paramNames : List SimpleName)
  (next : TypeLambda → Program α)

theorem run_build (h : (body (s.binder 0)).run.run (s.after 1) = ((paramBounds, result), s')) :
    (build paramNames body next).run.run s =
      (next ⟨s.binder 0, paramNames, paramBounds, result⟩).run.run s' := by
  rw [run, StateT.run_bind, TypeLambda.run_build, h]
  rfl

theorem calls_build (h : (body (s.binder 0)).run.run (s.after 1) = ((paramBounds, result), s')) :
    (build paramNames body next).calls s =
      .build ⟨s.binder 0, paramNames, paramBounds, result⟩ ::
        ((body (s.binder 0)).calls (s.after 1) ++
          (next ⟨s.binder 0, paramNames, paramBounds, result⟩).calls s') := by
  rw [calls, TypeLambda.run_build, h, Binder.run_fresh]

end

/-! ### A whole run -/

/-- A run takes as many binders from the supply as it makes calls, and each call mints the one of
its place. -/
theorem run_calls {α : Type} (p : Program α) (s : BinderSupply) :
    (p.run.run s).2 = s.after (p.calls s).length ∧ s.Numbers (p.calls s) := by
  -- What is left of a program runs from a later supply.
  induction p generalizing s with
  | done a => exact ⟨s.after_zero.symm, .nil⟩
  | fresh next ih =>
    obtain ⟨hsupply, hnumbers⟩ := ih (s.binder 0) (s.after 1)
    rw [run_fresh, calls_fresh, hsupply, BinderSupply.after_after, Nat.add_comm]
    exact ⟨rfl, .cons rfl hnumbers⟩
  | freshCopy l next ih =>
    obtain ⟨hsupply, hnumbers⟩ := ih (l.withBinder (s.binder 0)) (s.after 1)
    rw [run_freshCopy, calls_freshCopy, hsupply, BinderSupply.after_after, Nat.add_comm]
    exact ⟨rfl, .cons rfl hnumbers⟩
  | build paramNames body next ihbody ih =>
    obtain ⟨hinner, hinnerNumbers⟩ := ihbody (s.binder 0) (s.after 1)
    obtain ⟨⟨⟨paramBounds, result⟩, s'⟩, hbody⟩ :
      ∃ r, (body (s.binder 0)).run.run (s.after 1) = r := ⟨_, rfl⟩
    obtain rfl : s' = (s.after 1).after _ := by rw [← hinner, hbody]
    obtain ⟨hsupply, hnumbers⟩ := ih ⟨s.binder 0, paramNames, paramBounds, result⟩ _
    rw [run_build s paramNames next hbody, calls_build s paramNames next hbody, hsupply]
    refine ⟨?_, .cons rfl (.append hinnerNumbers hnumbers)⟩
    rw [BinderSupply.after_after, BinderSupply.after_after, List.length_cons, List.length_append]
    congr 1
    omega

theorem calls_skip {α : Type} (n : Nat) (p : Program α) (s : BinderSupply) :
    (skip n p).calls s = (List.range n).map (.fresh <| s.binder ·) ++ p.calls (s.after n) := by
  induction n generalizing s with
  | zero => simp [skip]
  | succ n ih =>
    rw [skip, calls_fresh, ih, BinderSupply.after_after, List.range_succ_eq_map, Nat.add_comm 1]
    simp [Nat.add_comm 1]

end Program

/-! ## Binders that come again -/

namespace Ty

/-- The binders in a type: those of references, and those of lambdas. -/
def binders (t : Ty) : List Binder :=
  t.nodes.flatMap fun
    | paramRef b _ => [b]
    | u => u.ownBinder

theorem binders_paramRef (b : Binder) (i : Nat) : (paramRef b i).binders = [b] := rfl

theorem mem_binders_of_references {b : Binder} {t : Ty} (h : t.references b = true) :
    b ∈ t.binders := by
  induction t using induction_children with
  | h t ih =>
    rw [references_eq_any_children, Bool.or_eq_true, List.any_eq_true] at h
    rw [binders, nodes_eq, List.flatMap_cons, List.mem_append]
    rcases h with hnode | ⟨c, hc, hbelow⟩
    · left
      cases t with
      | paramRef c i => exact List.mem_singleton.mpr (beq_iff_eq.mp hnode).symm
      | _ => cases hnode
    · right
      obtain ⟨u, hu, hb⟩ := List.mem_flatMap.mp (ih c hc hbelow)
      exact List.mem_flatMap.mpr ⟨u, List.mem_flatMap.mpr ⟨c, hc, hu⟩, hb⟩

end Ty

/-- No binder is minted twice by these calls. -/
structure MintsOnce (calls : List Call) : Prop where
  /-- Different calls mint different binders. -/
  nodup : (calls.map Call.binder).Nodup
  /-- The binder of a copy is in no type that was built from the binders of earlier calls. -/
  notMem_binders : ∀ i source copy, calls[i]? = some (.freshCopy source copy) →
    ∀ t : Ty, t.binders ⊆ Call.bindersBefore calls i → copy.binder ∉ t.binders

namespace Program

variable {α : Type} {p : Program α} {s : BinderSupply} {i : Nat}

theorem exists_binders_iff {c : Call} (h : (p.calls s)[i]? = some c) :
    (∃ t : Ty, t.binders ⊆ Call.bindersBefore (p.calls s) i ∧ c.binder ∈ t.binders) ↔
      2 ^ 32 ≤ i := by
  have hnumbers := (p.run_calls s).2
  have hi : i < (p.calls s).length := (List.getElem?_eq_some_iff.mp h).1
  rw [hnumbers.bindersBefore (Nat.le_of_lt hi), (hnumbers i c h).binder_eq, ← s.binder_mem_iff]
  constructor
  · rintro ⟨t, hsub, hmem⟩
    exact hsub hmem
  · intro hmem
    refine ⟨.paramRef (s.binder i) 0, ?_, ?_⟩
    · rw [Ty.binders_paramRef]
      exact List.cons_subset.mpr ⟨hmem, List.nil_subset _⟩
    · rw [Ty.binders_paramRef]
      exact List.mem_singleton_self _

theorem mintsOnce_iff : MintsOnce (p.calls s) ↔ (p.calls s).length ≤ 2 ^ 32 := by
  have hnodup : ((p.calls s).map Call.binder).Nodup ↔ (p.calls s).length ≤ 2 ^ 32 := by
    rw [(p.run_calls s).2.map_binder, s.nodup_map_binder_iff]
  refine ⟨fun h ↦ hnodup.mp h.nodup, fun h ↦ ⟨hnodup.mpr h, ?_⟩⟩
  intro i source copy hcall t hsub hmem
  have hi : i < (p.calls s).length := (List.getElem?_eq_some_iff.mp hcall).1
  have hlate : 2 ^ 32 ≤ i := (exists_binders_iff hcall).mp ⟨t, hsub, hmem⟩
  omega

/-- What is copied by one of the first `2 ^ 32` calls, and was built from the binders of earlier
ones, does not refer to the new binder. -/
theorem isCopy_of_calls {source copy : TypeLambda}
    (h : (p.calls s)[i]? = some (.freshCopy source copy)) (hi : i < 2 ^ 32)
    (hsource : (Ty.lambda source).binders ⊆ Call.bindersBefore (p.calls s) i) :
    source.IsCopy copy := by
  obtain rfl : copy = source.withBinder (s.binder i) := (p.run_calls s).2 i _ h
  refine TypeLambda.isCopy_withBinder ?_
  by_contra href
  have hmem := Ty.mem_binders_of_references (eq_true_of_ne_false href)
  exact absurd ((exists_binders_iff h).mp ⟨_, hsource, hmem⟩) (Nat.not_le_of_lt hi)

/-- **When binders are minted once.** A run mints no binder twice, and no binder of a copy is in a
type from before the copy, if and only if it is a run of at most `2 ^ 32` calls. In a run of any
length, two calls mint the same binder if and only if their places are the same up to a multiple of
`2 ^ 32`, and there are older types with the binder of a copy from place `2 ^ 32` on. -/
theorem mints_once (p : Program α) (s : BinderSupply) :
    (MintsOnce (p.calls s) ↔ (p.calls s).length ≤ 2 ^ 32) ∧
    (∀ (i j : Nat) (c d : Call), (p.calls s)[i]? = some c → (p.calls s)[j]? = some d →
      (c.binder = d.binder ↔ i % 2 ^ 32 = j % 2 ^ 32)) ∧
    ∀ i source copy, (p.calls s)[i]? = some (.freshCopy source copy) →
      ((∃ t : Ty, t.binders ⊆ Call.bindersBefore (p.calls s) i ∧ copy.binder ∈ t.binders) ↔
        2 ^ 32 ≤ i) := by
  refine ⟨mintsOnce_iff, fun i j c d hc hd ↦ ?_, fun i source copy h ↦ exists_binders_iff h⟩
  have hnumbers := (p.run_calls s).2
  rw [(hnumbers i c hc).binder_eq, (hnumbers j d hd).binder_eq, s.binder_eq_binder_iff]

/-- A lambda with another one inside of it, and a copy of it. The numbers start again from zero on
the way, which does no harm. -/
theorem mints_once_nested :
    let inner (x : Binder) : TypeLambda :=
      ⟨⟨0xffffffff⟩, [.term "Y"], [.unbounded], .and (.paramRef x 0) (.paramRef ⟨0xffffffff⟩ 0)⟩
    let outer (x : Binder) : TypeLambda := ⟨x, [.term "X"], [.unbounded], .lambda (inner x)⟩
    let p : Program TypeLambda := .build [.term "X"] (fun x ↦
      .build [.term "Y"] (fun y ↦ .done ([.unbounded], .and (.paramRef x 0) (.paramRef y 0)))
        fun l ↦ .done ([.unbounded], .lambda l)) fun l ↦ .freshCopy l .done
    p.calls ⟨0xfffffffe⟩ = [.build (outer ⟨0xfffffffe⟩), .build (inner ⟨0xfffffffe⟩),
        .freshCopy (outer ⟨0xfffffffe⟩) (outer ⟨0⟩)] ∧
      MintsOnce (p.calls ⟨0xfffffffe⟩) := by
  intro inner outer p
  have hcalls : p.calls ⟨0xfffffffe⟩ = [.build (outer ⟨0xfffffffe⟩), .build (inner ⟨0xfffffffe⟩),
      .freshCopy (outer ⟨0xfffffffe⟩) (outer ⟨0⟩)] := by decide +kernel
  refine ⟨hcalls, (mints_once p _).1.mpr ?_⟩
  rw [hcalls]
  decide

/-- A run of one call more than there are numbers. The last call copies a lambda that refers to the
first binder, and the copy gets that binder: what was a reference out of the lambda is one to the
parameter of the copy. -/
theorem copy_captures :
    let pair (s t : Ty) := Ty.applied (.ofText "Pair") [s, t]
    let made (x : Binder) : TypeLambda :=
      ⟨x, [.term "X"], [.unbounded], pair (.paramRef x 0) (.paramRef ⟨0⟩ 0)⟩
    let p (n : Nat) : Program TypeLambda := .fresh fun b ↦
      .build [.term "X"] (fun x ↦ .done ([.unbounded], pair (.paramRef x 0) (.paramRef b 0)))
        fun l ↦ .skip n (.freshCopy l .done)
    let calls := (p (2 ^ 32 - 2)).calls .initial
    calls[0]? = some (.fresh ⟨0⟩) ∧ calls[1]? = some (.build (made ⟨1⟩)) ∧
      calls[2 ^ 32]? = some (.freshCopy (made ⟨1⟩) (made ⟨0⟩)) ∧
      (made ⟨1⟩).instantiate [.any] = .ok (pair .any (.paramRef ⟨0⟩ 0)) ∧
      (made ⟨0⟩).instantiate [.any] = .ok (pair .any .any) ∧ ¬MintsOnce calls := by
  intro pair made p calls
  -- All is said of any number of skipped calls first: `2 ^ 32` of them cannot be written out.
  have hstart (n : Nat) : (p n).calls .initial = .fresh ⟨0⟩ :: .build (made ⟨1⟩) ::
      (skip n (freshCopy (made ⟨1⟩) done)).calls ⟨2⟩ := rfl
  have hlast (n : Nat) : ((p n).calls .initial)[n + 2]? = some
      (.freshCopy (made ⟨1⟩) ((made ⟨1⟩).withBinder (BinderSupply.binder ⟨2⟩ n))) := by
    rw [hstart, calls_skip, calls_freshCopy, List.getElem?_cons_succ, List.getElem?_cons_succ]
    simp
  have hlength (n : Nat) : ((p n).calls .initial).length = n + 3 := by
    rw [hstart, calls_skip, calls_freshCopy]
    simp [Program.calls]
  have hplace : 2 ^ 32 - 2 + 2 = 2 ^ 32 := by omega
  have hwraps : BinderSupply.binder ⟨2⟩ (2 ^ 32 - 2) = ⟨0⟩ := by decide
  have hcopy : (made ⟨1⟩).withBinder ⟨0⟩ = made ⟨0⟩ := by decide +kernel
  refine ⟨?_, ?_, ?_, by decide +kernel, by decide +kernel, ?_⟩
  · exact congrArg (·[0]?) (hstart _)
  · exact congrArg (·[1]?) (hstart _)
  · have h := hlast (2 ^ 32 - 2)
    rwa [hplace, hwraps, hcopy] at h
  · rw [mintsOnce_iff, hlength]
    omega

end Program

end TreePickle
