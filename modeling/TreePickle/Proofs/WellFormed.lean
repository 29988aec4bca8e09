import TreePickle.Proofs.FileForm

/-!
# The shape of names that are read

Not every value of the types of names can be read from a file. The tag of a derived name fits its
constructor, a path has at least two names, and the namespace of types is entered in one place only:
at the last name of a type in a signature.

## The invariant

`SimpleName.WellFormed` is the invariant for a name outside of that namespace and
`QualifiedName.WellFormedType` the one for a type in a signature; they need each other, because a
signature belongs to a name, and its types are named by names. Both follow the constructors. In
terms of lists, a path is well-formed if its names are, and the path of a type if its names but the
last one are and the last one is in the namespace of types, once.

## Records keep the invariant

Names are only taken from the table, `NameRef.wellFormed_simple?` and `NameRef.wellFormed_path?`.
The two operations that rewrite a name they took, `toTypeName` and `withObjectSuffix`, find one
outside of the namespace of types: so the former enters it and does not find it entered before, and
the latter has nothing to look through. The number of type parameters is between 1 and `2 ^ 31`
because it is read as the negative of a number of 32 bits.

`Record.wellFormed_denote` has one case for each kind of record. From it the tables have the
invariant, by induction on the records, and so has every name of every file:
`Pickle.wellFormed_of_decode`.
-/

namespace TreePickle

/-! ## The invariant -/

mutual

/-- A name that is not in the namespace of types, and neither is any part of it, signatures
apart. -/
def SimpleName.WellFormed : SimpleName → Prop
  | .term _ => True
  | .expanded tag outer name =>
      (tag = .expanded ∨ tag = .expandPrefix) ∧ outer.WellFormed ∧ name.WellFormed
  | .unique _ underlying _ => underlying.WellFormed
  | .defaultGetter underlying _ => underlying.WellFormed
  | .signed underlying signature target =>
      underlying.WellFormed ∧ signature.WellFormed ∧ target.WellFormed
  | .prefixed tag underlying =>
      (tag = .superAccessor ∨ tag = .inlineAccessor) ∧ underlying.WellFormed
  | .suffixed tag underlying => tag = .bodyRetainer ∧ underlying.WellFormed
  | .objectClass underlying => underlying.WellFormed
  | .type _ => False

/-- A name in the namespace of types, once. -/
def SimpleName.WellFormedType : SimpleName → Prop
  | .type underlying => underlying.WellFormed
  | _ => False

/-- A path of names outside of the namespace of types. -/
def QualifiedName.WellFormed : QualifiedName → Prop
  | .single name => name.WellFormed
  | .select qualifier name => qualifier.WellFormed ∧ name.WellFormed

/-- A path whose last name is in the namespace of types, and no other. -/
def QualifiedName.WellFormedType : QualifiedName → Prop
  | .single name => name.WellFormedType
  | .select qualifier name => qualifier.WellFormed ∧ name.WellFormedType

def Signature.WellFormed : Signature → Prop
  | .result type => type.WellFormedType
  | .param type rest => type.WellFormedType ∧ rest.WellFormed
  | .typeParams count rest => (1 ≤ count.toNat ∧ count.toNat ≤ 2 ^ 31) ∧ rest.WellFormed

end

def ParamSig.WellFormed : ParamSig → Prop
  | .term type => type.WellFormedType
  | .typeLen count => 1 ≤ count.toNat ∧ count.toNat ≤ 2 ^ 31

/-- An entry that can be read from a file. -/
def Name.WellFormed : Name → Prop
  | .simple name => name.WellFormed
  | .qualified path => 2 ≤ path.path.length ∧ path.WellFormed

/-! ## The invariant on lists

What it says of a path and of a signature, in terms of the names and parameters in them. -/

theorem SimpleName.WellFormed.isTypeName {n : SimpleName} (h : n.WellFormed) :
    n.isTypeName = false := by
  cases n with
  | type n => exact h.elim
  | _ => rfl

theorem SimpleName.WellFormed.toTypeName_eq {n : SimpleName} (h : n.WellFormed) :
    n.toTypeName = .type n := by
  cases n with
  | type n => exact h.elim
  | _ => rfl

theorem SimpleName.wellFormedType_iff {n : SimpleName} :
    n.WellFormedType ↔ ∃ m : SimpleName, n = .type m ∧ m.WellFormed := by
  cases n <;> simp [WellFormedType]

namespace QualifiedName

theorem wellFormed_iff {q : QualifiedName} : q.WellFormed ↔ ∀ n ∈ q.path, n.WellFormed := by
  match q with
  | single n => simp [WellFormed, path]
  | select q n =>
    rw [WellFormed, wellFormed_iff, path]
    simp [or_imp, forall_and]

theorem wellFormedType_iff {q : QualifiedName} :
    q.WellFormedType ↔ (∀ n ∈ q.path.dropLast, n.WellFormed) ∧ q.last.WellFormedType := by
  cases q with
  | single n => simp [WellFormedType, path, last]
  | select q n => rw [WellFormedType, wellFormed_iff, path, List.dropLast_concat, last]

end QualifiedName

theorem Signature.wellFormed_iff : ∀ {s : Signature},
    s.WellFormed ↔ (∀ p ∈ s.params, p.WellFormed) ∧ s.resultType.WellFormedType
  | .result type => by simp [WellFormed, params, resultType]
  | .param type rest => by
    rw [WellFormed, wellFormed_iff, params, resultType, List.forall_mem_cons]
    exact and_assoc.symm
  | .typeParams count rest => by
    rw [WellFormed, wellFormed_iff, params, resultType, List.forall_mem_cons]
    exact and_assoc.symm

/-! ## Rewriting the last name -/

theorem SimpleName.WellFormed.toTypeName {n : SimpleName} (h : n.WellFormed) :
    n.toTypeName.WellFormedType := by
  cases n with
  | type n => exact h.elim
  | _ => exact h

theorem SimpleName.WellFormed.withObjectSuffix {n : SimpleName} (h : n.WellFormed) :
    n.withObjectSuffix.WellFormed := by
  cases n with
  | type n => exact h.elim
  | _ => exact h

namespace QualifiedName

theorem WellFormed.mapLast_toTypeName {q : QualifiedName} (h : q.WellFormed) :
    (q.mapLast SimpleName.toTypeName).WellFormedType := by
  cases q with
  | single n => exact h.toTypeName
  | select q n => exact ⟨h.1, h.2.toTypeName⟩

theorem WellFormed.mapLast_withObjectSuffix {q : QualifiedName} (h : q.WellFormed) :
    (q.mapLast SimpleName.withObjectSuffix).WellFormed := by
  cases q with
  | single n => exact h.withObjectSuffix
  | select q n => exact ⟨h.1, h.2.withObjectSuffix⟩

theorem length_path_mapLast (f : SimpleName → SimpleName) (q : QualifiedName) :
    (q.mapLast f).path.length = q.path.length := by
  cases q <;> simp [mapLast, path]

theorem one_le_length_path (q : QualifiedName) : 1 ≤ q.path.length :=
  List.length_pos_iff.mpr q.path_ne_nil

end QualifiedName

theorem Name.WellFormed.toQualified {n : Name} (h : n.WellFormed) : n.toQualified.WellFormed := by
  cases n with
  | simple n => exact h
  | qualified q => exact h.2

/-! ## Records keep the invariant -/

private theorem forall_mem_of_mapM {α β : Type} {f : α → Option β} {P : β → Prop} {xs : List α}
    {ys : List β} (hP : ∀ x ∈ xs, ∀ y, f x = some y → P y) (h : xs.mapM f = some ys) :
    ∀ y ∈ ys, P y := by
  induction xs generalizing ys with
  | nil =>
    cases h
    simp
  | cons x xs ih =>
    rw [List.forall_mem_cons] at hP
    rw [List.mapM_cons] at h
    obtain ⟨y, hy, hrest⟩ := Option.bind_eq_some_iff.mp h
    obtain ⟨ys, hys, ⟨⟩⟩ := Option.bind_eq_some_iff.mp hrest
    exact List.forall_mem_cons.mpr ⟨hP.1 y hy, ih hP.2 hys⟩

section

variable {known : List Name} (hknown : ∀ n ∈ known, n.WellFormed)

include hknown

theorem NameRef.wellFormed_simple? {r : NameRef} {n : SimpleName} (h : r.simple? known = some n) :
    n.WellFormed := by
  obtain ⟨m, hm, hmn⟩ := Option.bind_eq_some_iff.mp h
  cases m with
  | simple m =>
    obtain rfl : m = n := Option.some_inj.mp hmn
    exact hknown _ (List.mem_of_getElem? hm)
  | qualified q => cases hmn

theorem NameRef.wellFormed_path? {r : NameRef} {q : QualifiedName} (h : r.path? known = some q) :
    q.WellFormed := by
  obtain ⟨n, hn, rfl⟩ := Option.map_eq_some_iff.mp h
  exact (hknown n (List.mem_of_getElem? hn)).toQualified

theorem RecordParam.wellFormed_denote {p : RecordParam} (hp : p.Valid) {s : ParamSig}
    (h : p.denote known = some s) : s.WellFormed := by
  cases p with
  | term type =>
    obtain ⟨q, hq, ⟨⟩⟩ := Option.bind_eq_some_iff.mp h
    exact (NameRef.wellFormed_path? hknown hq).mapLast_toTypeName
  | typeParams count =>
    cases h
    obtain ⟨hpos, hle⟩ : 1 ≤ count ∧ count ≤ 2 ^ 31 := hp
    have hcount : (UInt64.ofNat count).toNat = count :=
      UInt64.toNat_ofNat_of_lt' (Nat.lt_of_le_of_lt hle (by decide))
    rw [ParamSig.WellFormed, hcount]
    exact ⟨hpos, hle⟩

/-- The signature of a record, from its parameters and the path of its result. -/
theorem RecordParam.wellFormed_ofParams {params : List RecordParam} (hp : ∀ p ∈ params, p.Valid)
    {ps : List ParamSig} (h : params.mapM (denote known) = some ps) {q : QualifiedName}
    (hq : q.WellFormed) :
    (Signature.ofParams ps (q.mapLast SimpleName.toTypeName)).WellFormed := by
  rw [Signature.wellFormed_iff, Signature.params_ofParams, Signature.resultType_ofParams]
  refine ⟨forall_mem_of_mapM (fun p hmem s hs ↦ ?_) h, hq.mapLast_toTypeName⟩
  exact wellFormed_denote hknown (hp p hmem) hs

/-- A record denotes a well-formed name, if the names before it are well-formed. -/
theorem Record.wellFormed_denote {r : Record} (hp : ∀ p ∈ r.params, p.Valid) {n : Name}
    (h : r.denote known = some n) : n.WellFormed := by
  have hsimple {r : NameRef} {n : SimpleName} (h : r.simple? known = some n) : n.WellFormed :=
    NameRef.wellFormed_simple? hknown h
  have hpath {r : NameRef} {q : QualifiedName} (h : r.path? known = some q) : q.WellFormed :=
    NameRef.wellFormed_path? hknown h
  cases r with
  | utf8 text =>
    cases h
    trivial
  | qualified q n =>
    obtain ⟨q, hq, h⟩ := Option.bind_eq_some_iff.mp h
    obtain ⟨n, hn, ⟨⟩⟩ := Option.bind_eq_some_iff.mp h
    -- the name is selected from a path, so there are at least two
    refine ⟨?_, hpath hq, hsimple hn⟩
    rw [QualifiedName.path, List.length_append]
    exact Nat.add_le_add_right q.one_le_length_path 1
  | expanded o n =>
    obtain ⟨o, ho, h⟩ := Option.bind_eq_some_iff.mp h
    obtain ⟨n, hn, ⟨⟩⟩ := Option.bind_eq_some_iff.mp h
    exact ⟨.inl rfl, hsimple ho, hsimple hn⟩
  | expandPrefix o n =>
    obtain ⟨o, ho, h⟩ := Option.bind_eq_some_iff.mp h
    obtain ⟨n, hn, ⟨⟩⟩ := Option.bind_eq_some_iff.mp h
    exact ⟨.inr rfl, hsimple ho, hsimple hn⟩
  | unique s number bases =>
    obtain ⟨s, hs, h⟩ := Option.bind_eq_some_iff.mp h
    obtain ⟨ns, hns, ⟨⟩⟩ := Option.bind_eq_some_iff.mp h
    have hall := forall_mem_of_mapM (fun r _ n hn ↦ hsimple (r := r) hn) hns
    -- without a name behind the number the record is made from the empty name
    cases ns with
    | nil => trivial
    | cons n ns => exact hall n List.mem_cons_self
  | defaultGetter u index =>
    obtain ⟨u, hu, ⟨⟩⟩ := Option.bind_eq_some_iff.mp h
    have hu := hsimple hu
    exact hu
  | superAccessor u =>
    obtain ⟨u, hu, ⟨⟩⟩ := Option.bind_eq_some_iff.mp h
    exact ⟨.inl rfl, hsimple hu⟩
  | inlineAccessor u =>
    obtain ⟨u, hu, ⟨⟩⟩ := Option.bind_eq_some_iff.mp h
    exact ⟨.inr rfl, hsimple hu⟩
  | bodyRetainer u =>
    obtain ⟨u, hu, ⟨⟩⟩ := Option.bind_eq_some_iff.mp h
    exact ⟨rfl, hsimple hu⟩
  | objectClass u =>
    -- an entry is not in the namespace of types, so its suffix does not go inside of it
    obtain ⟨m, hm, rfl⟩ := Option.map_eq_some_iff.mp h
    have hm := hknown m (List.mem_of_getElem? hm)
    cases m with
    | simple n => exact SimpleName.WellFormed.withObjectSuffix hm
    | qualified q =>
      refine ⟨?_, hm.2.mapLast_withObjectSuffix⟩
      rw [QualifiedName.length_path_mapLast]
      exact hm.1
  | targetSigned u t result params =>
    obtain ⟨u, hu, h⟩ := Option.bind_eq_some_iff.mp h
    obtain ⟨t, ht, h⟩ := Option.bind_eq_some_iff.mp h
    obtain ⟨q, hq, h⟩ := Option.bind_eq_some_iff.mp h
    obtain ⟨ps, hps, ⟨⟩⟩ := Option.bind_eq_some_iff.mp h
    exact ⟨hsimple hu, RecordParam.wellFormed_ofParams hknown hp hps (hpath hq), hsimple ht⟩
  | signed u result params =>
    obtain ⟨u, hu, h⟩ := Option.bind_eq_some_iff.mp h
    obtain ⟨q, hq, h⟩ := Option.bind_eq_some_iff.mp h
    obtain ⟨ps, hps, ⟨⟩⟩ := Option.bind_eq_some_iff.mp h
    exact ⟨hsimple hu, RecordParam.wellFormed_ofParams hknown hp hps (hpath hq), hsimple hu⟩

end

/-! ## Tables -/

theorem NameTable.wellFormed_extend {t t' : NameTable} {records : List Record}
    (hrecords : ∀ r ∈ records, ∀ p ∈ r.params, p.Valid)
    (ht : ∀ n ∈ t.entries.toList, n.WellFormed) (h : t.extend records = some t') :
    ∀ n ∈ t'.entries.toList, n.WellFormed := by
  induction records generalizing t with
  | nil =>
    cases h
    exact ht
  | cons r records ih =>
    obtain ⟨hr, hrecords⟩ := List.forall_mem_cons.mp hrecords
    obtain ⟨n, hn, hrest⟩ := Option.bind_eq_some_iff.mp h
    have hknown : ∀ n ∈ t.known, n.WellFormed := fun n hn ↦ ht n (List.mem_of_mem_take hn)
    have hn := Record.wellFormed_denote hknown hr hn
    refine ih hrecords ?_ hrest
    rw [toList_entries_add, List.forall_mem_append]
    exact ⟨ht, List.forall_mem_singleton.mpr hn⟩

namespace Pickle

open Decode

/-- The names of a file come from its name section. -/
theorem exists_nameSection_eq_ok {reader : Version} {bytes : List UInt8} {p : Pickle}
    (h : decode reader bytes = .ok p) : ∃ c c', nameSection c = .ok p.names c' := by
  obtain ⟨-, -, c, hc⟩ := decode_eq_ok_iff_contents.mp h
  obtain ⟨_, c₁, -, hrest⟩ := bind_eq_ok_iff.mp hc
  obtain ⟨table, c₂, hnames, hrest⟩ := bind_eq_ok_iff.mp hrest
  obtain ⟨_, _, -, hparts⟩ := bind_eq_ok_iff.mp hrest
  injection hparts with hparts
  injection hparts with _ hparts
  injection hparts with htable
  exact ⟨c₁, c₂, htable ▸ hnames⟩

/-- **The names of every file are well-formed.** -/
theorem wellFormed_of_decode {reader : Version} {bytes : List UInt8} {p : Pickle}
    (h : decode reader bytes = .ok p) : ∀ n ∈ p.names.entries, n.WellFormed := by
  obtain ⟨c, c', hnames⟩ := exists_nameSection_eq_ok h
  obtain ⟨_, ⟨⟨records, ⟨payload, hpayload, -⟩, hextend⟩, -⟩, -⟩ :=
    (reads_nameSection c c' p.names rfl).mp hnames
  have hvalid (r : Record) (hr : r ∈ records) : ∀ p ∈ r.params, p.Valid :=
    (Record.exists_mem_spelling hpayload r hr).elim fun _ ↦ Record.valid_of_mem_spelling
  intro n hn
  have hempty : ∀ n ∈ NameTable.empty.entries.toList, n.WellFormed := by simp [NameTable.empty]
  exact NameTable.wellFormed_extend hvalid hempty hextend n (Array.mem_toList_iff.mpr hn)

/-- A path in a signature, where its last name alone is in the namespace of types. -/
theorem wellFormed_of_decode_signed :
    let bytes := magic ++ [156, 131, 128, 128] ++ List.replicate 16 0 ++
      [141, 1, 129, 97, 2, 130, 128, 128, 63, 132, 128, 129, 129, 253]
    let a := SimpleName.term "a"
    let type := QualifiedName.select (.single a) (.type a)
    ∃ p, decode .current bytes = .ok p ∧
      p.names.entries = #[.simple a, .qualified (.select (.single a) a),
        .simple (.signed a (.param type (.typeParams 3 (.result type))) a)] ∧
      ∀ n ∈ p.names.entries, n.WellFormed := by
  intro bytes a type
  have hnames : (decode .current bytes).toOption.map (·.names.entries) =
      some #[.simple a, .qualified (.select (.single a) a),
        .simple (.signed a (.param type (.typeParams 3 (.result type))) a)] := by decide +kernel
  obtain ⟨p, hp, hentries⟩ := Option.map_eq_some_iff.mp hnames
  have hok : decode .current bytes = .ok p := by
    cases hd : decode .current bytes with
    | ok q => rw [hd] at hp; exact congrArg Except.ok (Option.some_inj.mp hp)
    | error e => rw [hd] at hp; cases hp
  exact ⟨p, hok, hentries, wellFormed_of_decode hok⟩

end Pickle

end TreePickle
