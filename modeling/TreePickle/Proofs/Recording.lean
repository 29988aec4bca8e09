import TreePickle.Proofs.WrittenSize

/-!
# Recording

A name is stored behind the names that it is made from, since references point backward. So a writer
of names goes on adding records and keeps the numbers of those that it still has to refer to:
`Recording` is the type of such actions.

## The law of an action

What an action does is said by `Recording.Adds`. It depends on what the records before denote and
not on the records themselves, so that an action has one law wherever it stands. An action adds
records in order, as many and as large as there is room for, and its result has a property of all
names that are known then. What is added is `Record.Extends`, which has the names that the records
denote, their number, their size and their validity in one place, and composes as lists do.

## Room

A number for a record is there only if the records before it are not too many. The law asks for the
room that the action may use, and not for what it does use, so that it can be tested before
anything is added. Actions in a row share the room: the second one has what the first one left of
it, `Recording.Adds.bind`. What was known of the first one is kept because names only get added,
which is why the law of the second one is given for all names that begin with those of the first.

## Numbers

The number that is given to a record is the place of its name, `NameRef.IsLast`. It refers to the
last name right behind the addition, and as to an entry of the list it goes on to refer to that name
as the list gets longer.
-/

namespace TreePickle

/-- Adding records behind those that are there. -/
abbrev Recording := StateM (List Record)

/-- Adds a record. Its name will have the number of records in front of it. -/
def Recording.add (r : Record) : Recording NameRef :=
  modifyGet fun records ↦ (⟨.ofNat records.length⟩, records ++ [r])

/-! ## What is recorded -/

namespace Record

/-- Records that denote names behind `known`: no more than `count`, of no more than `size` bytes
apart from tags and single numbers, and with valid parameters. -/
structure Extends (known : List Name) (records : List Record) (known' : List Name)
    (count size : Nat) : Prop where
  denoteAll_eq : denoteAll known records = some known'
  length_le : records.length ≤ count
  openSize_le : (records.map openSize).sum ≤ size
  valid : ∀ r ∈ records, ∀ p ∈ r.params, p.Valid

variable {known known' known'' : List Name} {records records' : List Record}
  {count count' size size' : Nat}

namespace Extends

theorem nil (known : List Name) : Extends known [] known 0 0 where
  denoteAll_eq := rfl
  length_le := Nat.le_refl 0
  openSize_le := Nat.le_refl 0
  valid := by simp

theorem singleton {r : Record} {n : Name} (hr : r.denote known = some n)
    (hvalid : ∀ p ∈ r.params, p.Valid) : Extends known [r] (known ++ [n]) 1 r.openSize where
  denoteAll_eq := by rw [denoteAll, hr]; rfl
  length_le := Nat.le_refl 1
  openSize_le := by simp
  valid := by simpa using hvalid

theorem append (h : Extends known records known' count size)
    (h' : Extends known' records' known'' count' size') :
    Extends known (records ++ records') known'' (count + count') (size + size') where
  denoteAll_eq := by rw [denoteAll_append, h.denoteAll_eq, Option.bind_some, h'.denoteAll_eq]
  length_le := by
    rw [List.length_append]
    exact Nat.add_le_add h.length_le h'.length_le
  openSize_le := by
    rw [List.map_append, List.sum_append]
    exact Nat.add_le_add h.openSize_le h'.openSize_le
  valid := List.forall_mem_append.mpr ⟨h.valid, h'.valid⟩

theorem mono (h : Extends known records known' count size) (hcount : count ≤ count')
    (hsize : size ≤ size') : Extends known records known' count' size' where
  denoteAll_eq := h.denoteAll_eq
  length_le := h.length_le.trans hcount
  openSize_le := h.openSize_le.trans hsize
  valid := h.valid

theorem known_prefix (h : Extends known records known' count size) : known <+: known' :=
  (denoteAll_eq_some h.denoteAll_eq).1

theorem length_known_le (h : Extends known records known' count size) :
    known'.length ≤ known.length + count := by
  rw [(denoteAll_eq_some h.denoteAll_eq).2.1]
  exact Nat.add_le_add_left h.length_le _

end Extends

end Record

/-! ## The law of an action -/

namespace Recording

variable {α β : Type} {known : List Name} {count count' size size' : Nat}

/-- Behind records that denote `known`, `x` adds records within the limits, and its result has the
property `P` of the names that are known then. There have to be numbers of 31 bits left for all
that it may add. -/
def Adds (known : List Name) (count size : Nat) (x : Recording α) (P : List Name → α → Prop) :
    Prop :=
  known.length + count ≤ 2 ^ 31 → ∀ before : List Record, before.length = known.length →
    ∃ v records known', (x.run before).run = (v, before ++ records) ∧
      Record.Extends known records known' count size ∧ P known' v

namespace Adds

variable {x : Recording α} {P : List Name → α → Prop} {Q : List Name → β → Prop}

theorem pure {v : α} (h : known.length ≤ 2 ^ 31 → P known v) :
    Adds known count size (pure v) P := by
  intro hle before _
  have hextends := (Record.Extends.nil known).mono (Nat.zero_le count) (Nat.zero_le size)
  exact ⟨v, [], known, by simp, hextends, h (by omega)⟩

theorem imp {P' : List Name → α → Prop} (h : Adds known count size x P)
    (himp : ∀ known' v, P known' v → P' known' v) : Adds known count size x P' := by
  intro hle before hbefore
  obtain ⟨v, records, known', hrun, hextends, hv⟩ := h hle before hbefore
  exact ⟨v, records, known', hrun, hextends, himp known' v hv⟩

/-- One action behind another, within what the first one has left of the limits. The names known in
between stay known. -/
theorem bind {f : α → Recording β} (h : Adds known count' size' x P) (hcount : count' ≤ count)
    (hsize : size' ≤ size) (hf : ∀ known' v, known <+: known' → P known' v →
      Adds known' (count - count') (size - size') (f v) Q) :
    Adds known count size (x >>= f) Q := by
  intro hle before hbefore
  obtain ⟨v, records, known', hrun, hextends, hv⟩ := h (by omega) before hbefore
  -- the second action finds a name known for each record, and as much room as was promised to it
  have hlength := (Record.denoteAll_eq_some hextends.denoteAll_eq).2.1
  have hknown := hextends.length_known_le
  obtain ⟨w, records', known'', hrun', hextends', hw⟩ :=
    hf known' v hextends.known_prefix hv (by omega) (before ++ records)
      (by rw [List.length_append]; omega)
  refine ⟨w, records ++ records', known'', ?_, ?_, hw⟩
  · rw [StateT.run_bind, Id.run_bind, hrun, hrun', List.append_assoc]
  · exact (hextends.append hextends').mono (Nat.add_sub_of_le hcount).le
      (Nat.add_sub_of_le hsize).le

end Adds

end Recording

/-! ## Adding a record -/

namespace NameRef

variable {known : List Name} {r : NameRef} {n : Name}

/-- The last of the known names is `n`, and it has the number `r`. -/
structure IsLast (known : List Name) (r : NameRef) (n : Name) : Prop where
  getLast?_eq : known.getLast? = some n
  index_add_one : r.index + 1 = known.length

theorem IsLast.getElem?_eq (h : r.IsLast known n) : known[r.index]? = some n := by
  rw [← h.getLast?_eq, List.getLast?_eq_getElem?, ← h.index_add_one, Nat.add_sub_cancel]

theorem IsLast.path?_eq (h : r.IsLast known n) : r.path? known = some n.toQualified := by
  rw [path?, h.getElem?_eq, Option.map_some]

theorem simple?_eq {n : SimpleName} (h : known[r.index]? = some (.simple n)) :
    r.simple? known = some n := by
  rw [simple?, h]
  rfl

end NameRef

namespace Recording

variable {known : List Name} {count size : Nat}

/-- What a record denotes is the last of the names behind it. -/
theorem Adds.add {r : Record} {n : Name} (hr : r.denote known = some n)
    (hvalid : ∀ p ∈ r.params, p.Valid) (hcount : 1 ≤ count) (hsize : r.openSize ≤ size) :
    Adds known count size (add r) fun known' s ↦ s.IsLast known' n := by
  intro hle before hbefore
  refine ⟨⟨.ofNat before.length⟩, [r], known ++ [n], rfl,
    (Record.Extends.singleton hr hvalid).mono hcount hsize, ?_, ?_⟩
  · rw [List.getLast?_concat]
  · rw [NameRef.index, UInt32.toNat_ofNat_of_lt' (by rw [UInt32.size]; omega), hbefore,
      List.length_append, List.length_singleton]

end Recording

end TreePickle
