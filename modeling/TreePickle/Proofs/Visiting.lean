import Mathlib.Data.List.Basic
import TreePickle.Proofs.Rebuilding
import TreePickle.Ty.Visit

/-!
# What a walk visits

A walk is given a test for what has not changed and builds no new node if it says so of all
children. `Ty.walk_rebuilds` says that nothing but sharing depends on that test, and nothing is
forgotten or done twice.

## Visits in a row

`Ty.Visits` describes the outcome of visits without a monad: each type is visited once, with the
state that the visit before left, up to the first error, whose state is that of the whole. A visit
may depend on the state and fail, so neither the number of visits nor their results are known
beforehand, and the run is described visit by visit. The node that comes back is `Ty.Rebuilt`, a
relation with a clause for each kind of node that has children, which is written down independently
of how a walk puts nodes together.

## All nodes of a tree

A transformation that notes each node and walks on below it comes to each node of a tree once, in
the order of their positions. A position is the list of places among the children on the way down
from the root, `Ty.nodeAt?`. Positions are compared lexicographically, where a list comes before
those that it begins: a node is in front of those below it, and what is below one child is in front
of what is below the next.

`Ty.nodes` is the same list by structural recursion. That it is in order (`Ty.isPreorder_nodes`) is
shown for a node from its children, whose positions all get one more place in front. What a
transformation notes is compared with `Ty.nodes` by induction on the tree, as one `forM` over the
list, `Ty.eq_forM_nodes`.
-/

namespace TreePickle.Ty

/-! ## Visits in a row -/

section

variable {ε σ : Type} {visit : Ty → EStateM ε σ Ty}

/-- The outcome of visiting some types one after the other, each once: the results of all of them,
or the first error. -/
inductive Visits (visit : Ty → EStateM ε σ Ty) : List Ty → σ → EStateM.Result ε σ (List Ty) → Prop
  | nil (s : σ) : Visits visit [] s (.ok [] s)
  | cons {t u : Ty} {ts us : List Ty} {s s₁ s₂ : σ} (h : visit t s = .ok u s₁)
      (hs : Visits visit ts s₁ (.ok us s₂)) : Visits visit (t :: ts) s (.ok (u :: us) s₂)
  | failed {t : Ty} (ts : List Ty) {s s₁ : σ} {e : ε} (h : visit t s = .error e s₁) :
      Visits visit (t :: ts) s (.error e s₁)
  | later {t u : Ty} {ts : List Ty} {s s₁ s₂ : σ} {e : ε} (h : visit t s = .ok u s₁)
      (hs : Visits visit ts s₁ (.error e s₂)) : Visits visit (t :: ts) s (.error e s₂)

theorem visits_mapM (ts : List Ty) (s : σ) : Visits visit ts s (ts.mapM visit s) := by
  induction ts generalizing s with
  | nil => exact .nil s
  | cons t ts ih =>
    rw [List.mapM_cons]
    change Visits visit _ s (EStateM.bind (visit t) (fun u ↦ do return u :: (← ts.mapM visit)) s)
    rw [EStateM.bind]
    cases ht : visit t s with
    | error e s₁ => exact .failed ts ht
    | ok u s₁ =>
      have hts := ih s₁
      change Visits visit _ s (EStateM.bind (ts.mapM visit) (fun us ↦ pure (u :: us)) s₁)
      rw [EStateM.bind]
      cases hrest : ts.mapM visit s₁ with
      | error e s₂ => exact .later ht (hrest ▸ hts)
      | ok us s₂ => exact .cons ht (hrest ▸ hts)

theorem Visits.length_eq {ts us : List Ty} {s s' : σ} {r : EStateM.Result ε σ (List Ty)}
    (h : Visits visit ts s r) (hr : r = .ok us s') : us.length = ts.length := by
  induction h generalizing us s' with
  | nil => cases hr; rfl
  | cons _ _ ih =>
    cases hr
    rw [List.length_cons, ih rfl, List.length_cons]
  | failed _ _ => cases hr
  | later _ _ _ => cases hr

end

/-! ## The same node around other children -/

/-- `Rebuilt t ts u`: `u` is the node `t` with `ts` in the place of its children, in their order,
and with all that stands beside them as it was. -/
inductive Rebuilt : Ty → List Ty → Ty → Prop
  | select (p p' : Ty) (name : SimpleName) : Rebuilt (select p name) [p'] (select p' name)
  | applied (tycon tycon' : Ty) {args args' : List Ty} (h : args'.length = args.length) :
      Rebuilt (applied tycon args) (tycon' :: args') (applied tycon' args')
  | lambda (binder : Binder) (paramNames : List SimpleName) {bs bs' : List TypeBounds}
      (result result' : Ty) (h : bs'.length = bs.length) :
      Rebuilt (lambda ⟨binder, paramNames, bs, result⟩)
        (bs'.flatMap TypeBounds.toList ++ [result']) (lambda ⟨binder, paramNames, bs', result'⟩)
  | bounds (b : TypeBounds) (low high : Ty) : Rebuilt (bounds b) [low, high] (bounds ⟨low, high⟩)
  | and (left right left' right' : Ty) :
      Rebuilt (and left right) [left', right'] (and left' right')
  | or (left right left' right' : Ty) : Rebuilt (or left right) [left', right'] (or left' right')
  | leaf {t : Ty} (h : t.children = []) : Rebuilt t [] t

theorem rebuilt_withChildren {t : Ty} {ts : List Ty} (h : ts.length = t.children.length) :
    Rebuilt t ts (t.withChildren ts) := by
  cases t with
  | select qualifier name =>
    obtain ⟨u, rfl⟩ := List.length_eq_one_iff.mp h
    exact .select qualifier u name
  | applied tycon args =>
    obtain ⟨u, us, rfl⟩ := List.exists_cons_of_length_eq_add_one h
    exact .applied tycon u (Nat.succ.inj h)
  | lambda l =>
    obtain ⟨binder, paramNames, bs, result⟩ := l
    rw [children, List.length_append, TypeBounds.length_flatMap_toList, List.length_singleton] at h
    rcases List.eq_nil_or_concat' ts with rfl | ⟨us, u, rfl⟩
    · cases h
    · rw [List.length_append, List.length_singleton] at h
      have hus : us.length = 2 * bs.length := Nat.succ.inj h
      have hpairs := TypeBounds.flatMap_toList_pairUp hus
      have hlen : (TypeBounds.pairUp us).length = bs.length := by
        have hlen := TypeBounds.length_flatMap_toList (TypeBounds.pairUp us)
        rw [hpairs, hus] at hlen
        omega
      rw [withChildren, List.dropLast_concat, List.getLastD_concat]
      have hrebuilt := Rebuilt.lambda binder paramNames result u hlen
      rwa [hpairs] at hrebuilt
  | bounds b =>
    obtain ⟨u, v, rfl⟩ := List.length_eq_two.mp h
    exact .bounds b u v
  | and left right =>
    obtain ⟨u, v, rfl⟩ := List.length_eq_two.mp h
    exact .and left right u v
  | or left right =>
    obtain ⟨u, v, rfl⟩ := List.length_eq_two.mp h
    exact .or left right u v
  | paramRef _ _ | named _ | thisOf _ | any | nothing =>
    obtain rfl := List.length_eq_zero_iff.mp h
    exact .leaf rfl

/-- A walk makes its visits in a row, and rebuilds the node if none of them fails. -/
theorem exists_visits_walk {ε σ : Type} {same : Ty → Ty → Bool} (hs : IsSound same)
    (visit : Ty → EStateM ε σ Ty) (t : Ty) (s : σ) :
    ∃ r, Visits visit t.children s r ∧
      match r with
      | .ok us s' => ∃ u, walk same visit t s = .ok u s' ∧ Rebuilt t us u
      | .error e s' => walk same visit t s = .error e s' := by
  have hvisits : Visits visit t.children s (t.children.mapM visit s) := visits_mapM t.children s
  have hwalk : walk same visit t s = EStateM.map t.withChildren (t.children.mapM visit) s := by
    rw [walk_eq hs]
    rfl
  refine ⟨t.children.mapM visit s, hvisits, ?_⟩
  rw [EStateM.map] at hwalk
  cases hr : t.children.mapM visit s with
  | ok us s' =>
    rw [hr] at hwalk hvisits
    exact ⟨t.withChildren us, hwalk, rebuilt_withChildren (hvisits.length_eq rfl)⟩
  | error e s' =>
    rw [hr] at hwalk
    exact hwalk

/-! ## All nodes of a tree -/

mutual

/-- The nodes of a type, each in front of those below it, and these child by child. -/
def nodes : Ty → List Ty
  | select p name => select p name :: p.nodes
  | applied tycon args => applied tycon args :: (tycon.nodes ++ nodesList args)
  | lambda ⟨binder, paramNames, bs, result⟩ =>
      lambda ⟨binder, paramNames, bs, result⟩ :: (nodesBounds bs ++ result.nodes)
  | bounds ⟨low, high⟩ => bounds ⟨low, high⟩ :: (low.nodes ++ high.nodes)
  | and left right => and left right :: (left.nodes ++ right.nodes)
  | or left right => or left right :: (left.nodes ++ right.nodes)
  | t => [t]

def nodesList : List Ty → List Ty
  | [] => []
  | t :: ts => t.nodes ++ nodesList ts

def nodesBounds : List TypeBounds → List Ty
  | [] => []
  | ⟨low, high⟩ :: bs => low.nodes ++ high.nodes ++ nodesBounds bs

end

theorem nodesList_eq (ts : List Ty) : nodesList ts = ts.flatMap nodes := by
  induction ts with
  | nil => rfl
  | cons t ts ih => rw [nodesList, ih, List.flatMap_cons]

theorem nodesBounds_eq (bs : List TypeBounds) :
    nodesBounds bs = (bs.flatMap TypeBounds.toList).flatMap nodes := by
  induction bs with
  | nil => rfl
  | cons b bs ih =>
    cases b
    simp [nodesBounds, ih, TypeBounds.toList]

theorem nodes_eq (t : Ty) : t.nodes = t :: t.children.flatMap nodes := by
  cases t with
  | lambda l =>
    cases l
    simp [nodes, children, nodesBounds_eq]
  | bounds b =>
    cases b
    simp [nodes, children, TypeBounds.toList]
  | _ => simp [nodes, children, nodesList_eq]

/-- The node at a position below a type, if there is one. -/
def nodeAt? : Ty → List Nat → Option Ty
  | t, [] => some t
  | t, i :: p => t.children[i]?.bind (nodeAt? · p)

/-- The nodes of `t`, one for each position, in the lexicographic order of positions. -/
def IsPreorder (t : Ty) (ns : List Ty) : Prop :=
  ∃ placed : List (List Nat × Ty), placed.map Prod.snd = ns ∧
    (∀ p u, (p, u) ∈ placed ↔ t.nodeAt? p = some u) ∧
    placed.Pairwise fun a b ↦ a.1 < b.1

/-- The nodes of some trees that are the children of a node from the `k`-th on. -/
private theorem exists_placed_children {cs : List Ty} (h : ∀ c ∈ cs, c.IsPreorder c.nodes)
    (k : Nat) : ∃ placed : List (List Nat × Ty), placed.map Prod.snd = cs.flatMap nodes ∧
      (∀ p u, (p, u) ∈ placed ↔
        ∃ i q c, p = (k + i) :: q ∧ cs[i]? = some c ∧ c.nodeAt? q = some u) ∧
      placed.Pairwise fun a b ↦ a.1 < b.1 := by
  induction cs generalizing k with
  | nil => exact ⟨[], rfl, by simp, .nil⟩
  | cons c cs ih =>
    obtain ⟨first, hfirst, hmem, hlt⟩ := h c List.mem_cons_self
    obtain ⟨rest, hrest, hmem', hlt'⟩ := ih (fun c hc ↦ h c (List.mem_cons_of_mem _ hc)) (k + 1)
    refine ⟨first.map (fun x ↦ (k :: x.1, x.2)) ++ rest, ?_, fun p u ↦ ?_, ?_⟩
    · rw [List.map_append, List.map_map, hrest, List.flatMap_cons, ← hfirst]
      rfl
    · rw [List.mem_append, List.mem_map, hmem' p u]
      constructor
      · rintro (⟨⟨q, v⟩, hq, heq⟩ | ⟨i, q, d, rfl, hd, hu⟩)
        · cases heq
          exact ⟨0, q, c, rfl, rfl, (hmem q v).mp hq⟩
        · exact ⟨i + 1, q, d, by rw [Nat.add_assoc, Nat.add_comm 1], hd, hu⟩
      · rintro ⟨_ | i, q, d, rfl, hd, hu⟩
        · cases hd
          exact .inl ⟨(q, u), (hmem q u).mpr hu, rfl⟩
        · exact .inr ⟨i, q, d, by rw [Nat.add_assoc, Nat.add_comm 1], hd, hu⟩
    · refine List.pairwise_append.mpr ⟨?_, hlt', ?_⟩
      · rw [List.pairwise_map]
        exact hlt.imp fun hab ↦ List.cons_lt_cons_iff.mpr (.inr ⟨rfl, hab⟩)
      · rintro _ ha ⟨p, u⟩ hb
        obtain ⟨x, -, rfl⟩ := List.mem_map.mp ha
        obtain ⟨i, q, _, rfl, -⟩ := (hmem' p u).mp hb
        exact List.cons_lt_cons_iff.mpr (.inl (by omega))

theorem isPreorder_nodes (t : Ty) : t.IsPreorder t.nodes := by
  induction t using induction_children with
  | h t ih =>
    obtain ⟨placed, hnodes, hmem, hlt⟩ := exists_placed_children ih 0
    refine ⟨([], t) :: placed, ?_, fun p u ↦ ?_, List.pairwise_cons.mpr ⟨?_, hlt⟩⟩
    · rw [List.map_cons, hnodes, nodes_eq]
    · rw [List.mem_cons, hmem p u]
      cases p with
      | nil =>
        rw [nodeAt?]
        constructor
        · rintro (heq | ⟨_, _, _, hp, -⟩)
          · cases heq
            rfl
          · cases hp
        · rintro ⟨⟩
          exact .inl rfl
      | cons i p =>
        rw [nodeAt?, Option.bind_eq_some_iff]
        constructor
        · rintro (heq | ⟨j, q, c, hp, hc, hu⟩)
          · cases heq
          · obtain ⟨rfl, rfl⟩ := List.cons.inj hp
            exact ⟨c, by rwa [Nat.zero_add], hu⟩
        · rintro ⟨c, hc, hu⟩
          exact .inr ⟨i, p, c, by rw [Nat.zero_add], hc, hu⟩
    · rintro ⟨p, u⟩ hpu
      obtain ⟨i, q, _, rfl, -⟩ := (hmem p u).mp hpu
      exact List.nil_lt_cons _ _

/-! ## Noting each node -/

section

variable {m : Type → Type} [Monad m] [LawfulMonad m] {note : Ty → m PUnit}

/-- Visits that note all nodes of some types note those of the first type first. -/
private theorem mapM_note {apply : Ty → m Ty} {ts : List Ty}
    (h : ∀ t ∈ ts, apply t = do t.nodes.forM note; return t) :
    ts.mapM apply = do (ts.flatMap nodes).forM note; return ts := by
  induction ts with
  | nil => simp
  | cons t ts ih =>
    rw [List.mapM_cons, h t List.mem_cons_self, ih fun u hu ↦ h u (List.mem_cons_of_mem t hu)]
    simp [List.forM_append]

/-- What notes a node and walks on below it notes all nodes in their order, and changes nothing. -/
theorem eq_forM_nodes {same : Ty → Ty → Bool} (hs : IsSound same) {apply : Ty → m Ty}
    (h : ∀ t, apply t = do note t; walk same apply t) (t : Ty) :
    apply t = do t.nodes.forM note; return t := by
  induction t using induction_children with
  | h t ih =>
    rw [h, walk_eq hs, mapM_note ih, nodes_eq]
    simp

end

private theorem forM_append {ε : Type} (ts noted : List Ty) :
    (ts.forM fun t ↦ modify (· ++ [t]) : EStateM ε (List Ty) PUnit) noted =
      .ok ⟨⟩ (noted ++ ts) := by
  induction ts generalizing noted with
  | nil => exact congrArg _ (List.append_nil noted).symm
  | cons t ts ih =>
    refine (ih (noted ++ [t])).trans ?_
    rw [List.append_assoc, List.singleton_append]

private theorem forM_push (ts : List Ty) (noted : Array Ty) :
    (ts.forM fun t ↦ modify (·.push t) : StateM (Array Ty) PUnit).run noted =
      (⟨⟩, noted ++ ts.toArray) := by
  induction ts generalizing noted with
  | nil => exact congrArg _ (Array.append_empty).symm
  | cons t ts ih =>
    refine (ih (noted.push t)).trans ?_
    simp

/-- The nodes that a transformation notes. -/
theorem run_transform_recordStep (t : Ty) :
    (t.transform recordStep).run #[] = (t, t.nodes.toArray) := by
  rw [eq_forM_nodes isSound_beq (transform_eq recordStep) t]
  change ((fun x ↦ (t, x.2)) ((t.nodes.forM fun t ↦ modify (·.push t) : StateM (Array Ty)
    PUnit).run #[])) = _
  rw [forM_push, Array.empty_append]

/-- **A walk rebuilds a node from visits in a row**, whatever sound test decides what is shared. So
what notes each node in a list and walks on below it, in any tree, notes the nodes one for each
position and in their order, and gives the tree back. -/
theorem walk_rebuilds {ε σ : Type} {same : Ty → Ty → Bool} (hs : IsSound same) :
    (∀ (visit : Ty → EStateM ε σ Ty) (t : Ty) (s : σ), ∃ r, Visits visit t.children s r ∧
      match r with
      | .ok us s' => ∃ u, walk same visit t s = .ok u s' ∧ Rebuilt t us u
      | .error e s' => walk same visit t s = .error e s') ∧
    (∀ apply : Ty → EStateM ε (List Ty) Ty,
      (∀ t noted, apply t noted = walk same apply t (noted ++ [t])) →
      ∀ t noted, ∃ ns, t.IsPreorder ns ∧ apply t noted = .ok t (noted ++ ns)) ∧
    ∀ t : Ty, ∃ ns, t.IsPreorder ns ∧ (t.transform recordStep).run #[] = (t, ns.toArray) := by
  refine ⟨exists_visits_walk hs, fun apply happly t noted ↦ ?_, fun t ↦ ?_⟩
  · have hnote (t : Ty) : apply t = (do modify (· ++ [t]); walk same apply t) :=
      funext fun noted ↦ happly t noted
    refine ⟨t.nodes, isPreorder_nodes t, ?_⟩
    rw [eq_forM_nodes hs hnote]
    change EStateM.bind _ (fun _ ↦ pure t) noted = _
    rw [EStateM.bind, forM_append]
    rfl
  · exact ⟨t.nodes, isPreorder_nodes t, run_transform_recordStep t⟩

/-- A lambda with two parameters, where visits count, put the least type in the place of the
greatest one, and fail when they have counted to a limit. -/
theorem walk_rebuilds_lambda :
    let bare := applied (ofText "Int") []
    let t := lambda ⟨⟨3⟩, [.term "X"], [⟨nothing, bare⟩, ⟨bare, any⟩], and bare any⟩
    let t' := lambda ⟨⟨3⟩, [.term "X"], [⟨nothing, bare⟩, ⟨bare, nothing⟩], and bare any⟩
    let visit (limit : Nat) (u : Ty) : EStateM String Nat Ty := fun n ↦
      if n = limit then .error "limit" n else .ok (match u with | any => nothing | _ => u) (n + 1)
    let noteStep : Step (EStateM String (List Ty)) := fun u below ↦ do
      modify (· ++ [u])
      below
    IsSound (· == ·) ∧ Visits (visit 3) t.children 0 (.error "limit" 3) ∧
      (∃ us, Visits (visit 5) t.children 0 (.ok us 5) ∧ Rebuilt t us t') ∧
      (∀ u noted, transform noteStep u noted =
        walk (· == ·) (transform noteStep) u (noted ++ [u])) ∧
      ∃ ns, t.IsPreorder ns ∧ transform noteStep t [] = .ok t ns := by
  intro bare t t' visit noteStep
  have hnote (u : Ty) (noted : List Ty) :
      transform noteStep u noted = walk (· == ·) (transform noteStep) u (noted ++ [u]) := by
    rw [transform_eq]
    rfl
  obtain ⟨hvisits, hnotes, -⟩ := @walk_rebuilds String Nat (· == ·) isSound_beq
  refine ⟨isSound_beq, ?_, ?_, hnote, hnotes _ hnote t []⟩
  · have hwalk : walk (· == ·) (visit 3) t 0 = .error "limit" 3 := rfl
    obtain ⟨r, hr, hmatch⟩ := hvisits (visit 3) t 0
    cases r with
    | ok us s =>
      obtain ⟨u, hu, -⟩ := hmatch
      cases hwalk.symm.trans hu
    | error e s =>
      cases hwalk.symm.trans hmatch
      exact hr
  · have hwalk : walk (· == ·) (visit 5) t 0 = .ok t' 5 := by
      rw [walk_eq isSound_beq]
      rfl
    obtain ⟨r, hr, hmatch⟩ := hvisits (visit 5) t 0
    cases r with
    | ok us s =>
      obtain ⟨u, hu, hrebuilt⟩ := hmatch
      cases hwalk.symm.trans hu
      exact ⟨us, hr, hrebuilt⟩
    | error e s => cases hwalk.symm.trans hmatch

end TreePickle.Ty
