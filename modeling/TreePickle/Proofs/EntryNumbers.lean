import TreePickle.Proofs.NameSection

/-!
# The numbers of the entries

A table is filled by additions, one name after the other, `NameTable.run`. The number of an entry is
the one that is announced in front of its addition, `NameTable.announced`, and to look it up is to
find the entry, then and after every later addition: `NameTable.NumbersEach`. That this is so of
runs of up to `2 ^ 32` additions and of no longer ones is `NameTable.numbers_run`.

## Looking up

There are three ways to look up a number. `NameTable.Resolves` and `NameTable.Refuses` say what they
have in common, and each is a statement on the list of entries: what has the number as its place, or
that there is nothing at that place. All results below are about lists for that reason, and none
opens a table.

## The invariant

An addition leaves all entries where they are and puts one behind them. So the entries after a run
are the names in order, and a number that once stands for a name stands for it ever after. What is
announced depends on the names before only by how many they are.

## Numbers that come again

The announced number is a word, and the place of an entry need not fit into one. A number that is
announced once more stands for the name that had it first, `NameTable.exists_resolves_announced`,
and the entry that it was announced for last has no number of its own. That happens first with the
addition behind `2 ^ 32` others, whatever the names are. Numbers are refused from the size of the
table on, so if there are as many entries as there are numbers, none is refused.
-/

namespace TreePickle

namespace NameTable

variable {t : NameTable} {r : NameRef} {m n : Name} {names : List Name} {i j k : Nat}

/-! ## Looking up -/

/-- Looking `r` up finds the name `n`, in each of the three ways. -/
def Resolves (t : NameTable) (r : NameRef) : Name → Prop
  | .simple name =>
      t.lookup r = .ok (.simple name) ∧
      t.lookupSimple r = .ok name ∧
      t.lookupQualified r = .ok (.single name)
  | .qualified path =>
      t.lookup r = .ok (.qualified path) ∧
      t.lookupSimple r = .error (.notSimple r path) ∧
      t.lookupQualified r = .ok path

/-- Looking `r` up fails in each of the three ways, with the number and the size of the table. -/
structure Refuses (t : NameTable) (r : NameRef) : Prop where
  lookup : t.lookup r = .error (.noEntry r t.size)
  lookupSimple : t.lookupSimple r = .error (.noEntry r t.size)
  lookupQualified : t.lookupQualified r = .error (.noEntry r t.size)

theorem Resolves.lookup_eq (h : t.Resolves r n) : t.lookup r = .ok n := by
  cases n with
  | simple name => exact h.1
  | qualified path => exact h.1

theorem resolves_iff : t.Resolves r n ↔ t.entries[r.index]? = some n := by
  constructor
  · intro h
    exact lookup_eq_ok_iff.mp h.lookup_eq
  · intro h
    have hlookup : t.lookup r = .ok n := lookup_eq_ok_iff.mpr h
    have hqualified : t.lookupQualified r = .ok n.toQualified := by
      rw [lookupQualified_eq_ok_iff, h, Option.map_some]
    cases n with
    | simple name => exact ⟨hlookup, lookupSimple_eq_ok_iff.mpr h, hqualified⟩
    | qualified path => exact ⟨hlookup, by rw [lookupSimple_eq, h], hqualified⟩

theorem refuses_iff : t.Refuses r ↔ t.size ≤ r.index := by
  rw [size, ← Array.getElem?_eq_none_iff]
  constructor
  · intro h
    have hlookup := h.lookup
    rw [lookup] at hlookup
    cases hentry : t.entries[r.index]? with
    | none => rfl
    | some n =>
      rw [hentry] at hlookup
      cases hlookup
  · intro h
    have hlookup : t.lookup r = .error (.noEntry r t.size) := by rw [lookup, h]
    exact ⟨hlookup, by rw [lookupSimple_eq, h], by rw [lookupQualified, hlookup]; rfl⟩

theorem Resolves.unique (hm : t.Resolves r m) (hn : t.Resolves r n) : m = n :=
  Option.some_injective _ ((resolves_iff.mp hm).symm.trans (resolves_iff.mp hn))

/-! ## Runs of additions -/

/-- The empty table after adding names in order. -/
def run (names : List Name) : NameTable := names.foldl add empty

theorem run_append_singleton (names : List Name) (n : Name) :
    run (names ++ [n]) = (run names).add n := by
  rw [run, List.foldl_append, List.foldl_cons, List.foldl_nil, run]

/-- What a run leaves are its names, in order: each addition puts its name behind all others. -/
@[simp] theorem toList_entries_run (names : List Name) : (run names).entries.toList = names := by
  induction names using List.reverseRecOn with
  | nil => rfl
  | append_singleton names n ih => rw [run_append_singleton, toList_entries_add, ih]

@[simp] theorem size_run (names : List Name) : (run names).size = names.length := by
  rw [size, ← Array.length_toList, toList_entries_run]

theorem resolves_run_iff : (run names).Resolves r n ↔ names[r.index]? = some n := by
  rw [resolves_iff, ← Array.getElem?_toList, toList_entries_run]

/-- The number that is announced in front of the addition of the name at place `i`. -/
def announced (names : List Name) (i : Nat) : NameRef := (run (names.take i)).nextRef

theorem announced_eq (h : i ≤ names.length) : announced names i = ⟨UInt32.ofNat i⟩ := by
  rw [announced, nextRef, size_run, List.length_take_of_le h]

theorem announced_index (h : i ≤ names.length) : (announced names i).index = i % 2 ^ 32 := by
  rw [announced_eq h, NameRef.index, UInt32.toNat_ofNat']

/-- The number that is announced for an addition stands, in all tables behind it, for the first name
that the number was announced for. -/
theorem exists_resolves_announced (hik : i < k) (hk : k ≤ names.length) :
    ∃ n, names[i % 2 ^ 32]? = some n ∧ (run (names.take k)).Resolves (announced names i) n := by
  have hmod : i % 2 ^ 32 < k := (Nat.mod_le i _).trans_lt hik
  have hentry := List.getElem?_eq_getElem (hmod.trans_le hk)
  refine ⟨_, hentry, ?_⟩
  rw [resolves_run_iff, announced_index (hik.le.trans hk), List.getElem?_take_of_lt hmod]
  exact hentry

/-- The entries are listed with their announced numbers. -/
theorem toList_run (names : List Name) :
    (run names).toList = names.zipIdx.map fun (n, i) ↦ (announced names i, n) := by
  rw [toList, toList_entries_run]
  refine List.map_congr_left ?_
  rintro ⟨n, i⟩ hmem
  have hi : i < names.length := by simpa using (List.mem_zipIdx hmem).2.1
  exact congrArg (·, n) (announced_eq hi.le).symm

theorem refuses_run (h : names.length ≤ r.index) : (run names).Refuses r :=
  refuses_iff.mpr (by rwa [size_run])

/-! ## Runs that number their entries -/

/-- The numbers announced in a run of additions are the numbers of its entries. -/
structure NumbersEach (names : List Name) : Prop where
  /-- A name is found under its number right behind its addition and behind all later ones. -/
  resolves : ∀ i k (hik : i < k) (hk : k ≤ names.length),
    (run (names.take k)).Resolves (announced names i) names[i]
  ascending : ∀ i j, i < j → j < names.length →
    (announced names i).number < (announced names j).number
  listed : (run names).toList = names.zipIdx.map fun (n, i) ↦ (announced names i, n)
  refused : ∀ r : NameRef, names.length ≤ r.index → (run names).Refuses r

theorem NumbersEach.of_length_le (h : names.length ≤ 2 ^ 32) : NumbersEach names where
  resolves i k hik hk := by
    obtain ⟨n, hn, hresolves⟩ := exists_resolves_announced hik hk
    rw [Nat.mod_eq_of_lt (by omega), List.getElem?_eq_getElem (hik.trans_le hk)] at hn
    cases hn
    exact hresolves
  ascending i j hij hj := by
    have hindex : (announced names i).index < (announced names j).index := by
      rw [announced_index (hij.trans hj).le, announced_index hj.le, Nat.mod_eq_of_lt (by omega),
        Nat.mod_eq_of_lt (by omega)]
      exact hij
    exact UInt32.lt_iff_toNat_lt.mpr hindex
  listed := toList_run names
  refused _ hr := refuses_run hr

/-- In a longer run, the number of the first entry is announced once more. -/
theorem announced_wraps (h : 2 ^ 32 ≤ names.length) :
    announced names (2 ^ 32) = announced names 0 := by
  rw [announced_eq h, announced_eq (Nat.zero_le _)]
  decide

theorem not_numbersEach_of_lt_length (h : 2 ^ 32 < names.length) : ¬NumbersEach names := by
  intro hnumbers
  have hlt := hnumbers.ascending 0 (2 ^ 32) (by decide) h
  rw [announced_wraps h.le] at hlt
  exact UInt32.lt_irrefl _ hlt

/-- **The numbers of a run.** A run of additions numbers its entries if and only if it is one of at
most `2 ^ 32`. In a run of any length, the number announced for an addition stands behind it for the
name that it was first announced for, the entries are listed once each with the announced numbers,
and the numbers that are refused are those from the size of the table on. -/
theorem numbers_run (names : List Name) :
    (NumbersEach names ↔ names.length ≤ 2 ^ 32) ∧
    (∀ i k, i < k → k ≤ names.length →
      ∃ n, names[i % 2 ^ 32]? = some n ∧ (run (names.take k)).Resolves (announced names i) n) ∧
    (run names).toList = names.zipIdx.map (fun (n, i) ↦ (announced names i, n)) ∧
    ∀ r : NameRef, (run names).Refuses r ↔ names.length ≤ r.index := by
  refine ⟨⟨fun h ↦ ?_, NumbersEach.of_length_le⟩, fun _ _ ↦ exists_resolves_announced,
    toList_run names, fun r ↦ refuses_iff.trans (by rw [size_run])⟩
  by_contra hlt
  exact not_numbersEach_of_lt_length (Nat.lt_of_not_ge hlt) h

/-- A simple name, a path, and one more name behind them. -/
theorem numbers_run_path :
    let path : QualifiedName := .select (.single (.term "a")) (.term "b")
    let names : List Name := [.simple (.term "a"), .qualified path, .simple (.term "c")]
    NumbersEach names ∧
    (∃ n, names[1]? = some n ∧ (run names).Resolves (announced names 1) n) ∧
    (run names).lookupSimple ⟨1⟩ = .error (.notSimple ⟨1⟩ path) ∧ (run names).Refuses ⟨3⟩ := by
  intro path names
  obtain ⟨hnumbers, hresolves, -, hrefuses⟩ := numbers_run names
  have hlength : names.length = 3 := rfl
  exact ⟨hnumbers.mpr (by omega), hresolves 1 3 (by decide) hlength.ge, rfl,
    (hrefuses ⟨3⟩).mpr (by decide)⟩

/-- A run of one addition more than there are numbers. The number announced for the last name stands
for another name when it has been added. -/
theorem numbers_run_again : ∃ names : List Name, names[2 ^ 32]? = some (.simple (.term "b")) ∧
    announced names (2 ^ 32) = ⟨0⟩ ∧ (run names).Resolves ⟨0⟩ (.simple (.term "a")) ∧
    ¬(run names).Resolves ⟨0⟩ (.simple (.term "b")) ∧ ¬NumbersEach names := by
  obtain ⟨N, hN⟩ : ∃ N, N + 1 = 2 ^ 32 := ⟨2 ^ 32 - 1, by omega⟩
  let a : Name := .simple (.term "a")
  let b : Name := .simple (.term "b")
  let names : List Name := a :: (List.replicate N a ++ [b])
  have hlength : names.length = 2 ^ 32 + 1 := by simp [names, hN]
  have hlast : names[2 ^ 32]? = some b := by
    rw [← hN, List.getElem?_cons_succ]
    simp
  have hzero : (run names).Resolves ⟨0⟩ a := resolves_run_iff.mpr rfl
  refine ⟨names, hlast, ?_, hzero, fun h ↦ absurd (hzero.unique h) (by decide),
    not_numbersEach_of_lt_length (by omega)⟩
  rw [announced_wraps (by omega), announced_eq (Nat.zero_le _)]
  rfl

end NameTable

end TreePickle
