import TreePickle.Proofs.RoundTrip
import TreePickle.Proofs.WellFormed

/-!
# The object mark and the namespace of types

Two rewrites change what a name is for. `toTypeName` moves it into the namespace of types, which
leaves no trace in its text, and `withObjectSuffix` makes it the class of an object, which is
written as a dollar sign at the end. `Pickle.marks_are_independent` says that neither gets into the
way of the other, and what follows for the names in a file.

## What is said of the two

The mark goes under the namespace, so that the order of the two does not matter. `IndependentMarks`
is what can be said of them together: what they do to the text and to the namespace, that they
commute, that moving twice is moving once, and that a name can be told from its class. To mark twice
is not to mark once, as the text gets longer each time.

## Single names and paths

The same laws hold of single names and of paths, of which only the last name is rewritten. A path is
its last name and the names before it (`QualifiedName.path_mapLast`), the text of a path ends with
that of its last name, and a rewrite of last names is injective if it is so on names. With these the
laws of paths follow from those of names, without a look at the two rewrites.

## Entries of a file

The records of a file that rewrite an entry are known by their texts: that of the class of an object
is the text of the object and the mark, and that of a selected name is the texts of its parts with a
dot in between. This is `Record.Texts`, and it is said of the records of any form that an accepted
file has.
-/

namespace TreePickle

/-- Two rewrites that do not get into each other's way: `toType` moves into the namespace of types,
which is not written, and `mark` puts a mark at the end of the text. -/
structure IndependentMarks {α : Type} (text : α → String) (isType : α → Bool)
    (toType mark : α → α) : Prop where
  text_toType (x : α) : text (toType x) = text x
  text_mark (x : α) : text (mark x) = text x ++ "$"
  mark_toType (x : α) : mark (toType x) = toType (mark x)
  toType_toType (x : α) : toType (toType x) = toType x
  isType_toType (x : α) : isType (toType x) = true
  isType_mark (x : α) : isType (mark x) = isType x
  mark_injective : Function.Injective mark

/-! ## Simple names -/

namespace SimpleName

theorem text_toTypeName (n : SimpleName) : n.toTypeName.text = n.text := by
  cases n <;> rfl

theorem isTypeName_toTypeName (n : SimpleName) : n.toTypeName.isTypeName = true := by
  cases n <;> rfl

theorem toTypeName_toTypeName (n : SimpleName) : n.toTypeName.toTypeName = n.toTypeName := by
  cases n <;> rfl

theorem isTypeName_withObjectSuffix (n : SimpleName) :
    n.withObjectSuffix.isTypeName = n.isTypeName := by
  cases n <;> rfl

theorem withObjectSuffix_toTypeName (n : SimpleName) :
    n.toTypeName.withObjectSuffix = n.withObjectSuffix.toTypeName := by
  cases n <;> rfl

theorem exists_eq_type {n : SimpleName} (h : n.isTypeName = true) : ∃ m, n = type m := by
  cases n with
  | type m => exact ⟨m, rfl⟩
  | _ => cases h

theorem withObjectSuffix_eq_objectClass {n : SimpleName} (h : n.isTypeName = false) :
    n.withObjectSuffix = objectClass n := by
  cases n with
  | type m => cases h
  | _ => rfl

/-- The mark is written at the end, also if it stands under the namespace of types. -/
theorem text_withObjectSuffix (n : SimpleName) : n.withObjectSuffix.text = n.text ++ "$" := by
  cases h : n.isTypeName with
  | false => rw [withObjectSuffix_eq_objectClass h, text]
  | true =>
    obtain ⟨m, rfl⟩ := exists_eq_type h
    rw [withObjectSuffix, text, text_withObjectSuffix m, text]

/-- A name can be told from the class of its object. -/
theorem eq_of_withObjectSuffix_eq {m n : SimpleName}
    (h : m.withObjectSuffix = n.withObjectSuffix) : m = n := by
  have hkind : m.isTypeName = n.isTypeName := by
    rw [← isTypeName_withObjectSuffix m, h, isTypeName_withObjectSuffix]
  cases hm : m.isTypeName with
  | false =>
    rw [hm] at hkind
    rw [withObjectSuffix_eq_objectClass hm, withObjectSuffix_eq_objectClass hkind.symm] at h
    exact objectClass.inj h
  | true =>
    rw [hm] at hkind
    obtain ⟨m', rfl⟩ := exists_eq_type hm
    obtain ⟨n', rfl⟩ := exists_eq_type hkind.symm
    rw [withObjectSuffix, withObjectSuffix, type.injEq] at h
    rw [eq_of_withObjectSuffix_eq h]

theorem independentMarks : IndependentMarks text isTypeName toTypeName withObjectSuffix where
  text_toType := text_toTypeName
  text_mark := text_withObjectSuffix
  mark_toType := withObjectSuffix_toTypeName
  toType_toType := toTypeName_toTypeName
  isType_toType := isTypeName_toTypeName
  isType_mark := isTypeName_withObjectSuffix
  mark_injective _ _ := eq_of_withObjectSuffix_eq

end SimpleName

/-! ## Paths -/

namespace QualifiedName

variable {f g : SimpleName → SimpleName}

theorem last_mapLast (f : SimpleName → SimpleName) (q : QualifiedName) :
    (q.mapLast f).last = f q.last := by
  cases q <;> rfl

theorem path_mapLast (f : SimpleName → SimpleName) (q : QualifiedName) :
    (q.mapLast f).path = q.path.dropLast ++ [f q.last] := by
  cases q with
  | single n => rfl
  | select q n => rw [mapLast, path, path, List.dropLast_concat, last]

theorem mapLast_mapLast (f g : SimpleName → SimpleName) (q : QualifiedName) :
    (q.mapLast f).mapLast g = q.mapLast (g ∘ f) := by
  cases q <;> rfl

theorem text_mapLast {suffix : String} (hf : ∀ n, (f n).text = n.text ++ suffix)
    (q : QualifiedName) : (q.mapLast f).text = q.text ++ suffix := by
  cases q with
  | single n => rw [mapLast, text, text, hf]
  | select q n => rw [mapLast, text, text, hf, ← String.append_assoc]

theorem mapLast_injective (hf : Function.Injective f) : Function.Injective (mapLast f) := by
  intro p q h
  cases p with
  | single m =>
    cases q with
    | single n => rw [hf (single.inj h)]
    | select q n => cases h
  | select p m =>
    cases q with
    | single n => cases h
    | select q n =>
      obtain ⟨rfl, hlast⟩ := select.inj h
      rw [hf hlast]

/-- What holds of single names holds of the last names of paths. -/
theorem independentMarks : IndependentMarks text (fun q ↦ q.last.isTypeName)
    (mapLast SimpleName.toTypeName) (mapLast SimpleName.withObjectSuffix) where
  text_toType q := by
    have hsame (n : SimpleName) : n.toTypeName.text = n.text ++ "" := by
      rw [n.text_toTypeName, String.append_empty]
    rw [text_mapLast hsame, String.append_empty]
  text_mark := text_mapLast SimpleName.text_withObjectSuffix
  mark_toType q := by
    rw [mapLast_mapLast, mapLast_mapLast]
    exact congrArg (mapLast · q) (funext SimpleName.withObjectSuffix_toTypeName)
  toType_toType q := by
    rw [mapLast_mapLast]
    exact congrArg (mapLast · q) (funext SimpleName.toTypeName_toTypeName)
  isType_toType q := by rw [last_mapLast, SimpleName.isTypeName_toTypeName]
  isType_mark q := by rw [last_mapLast, SimpleName.isTypeName_withObjectSuffix]
  mark_injective := mapLast_injective SimpleName.independentMarks.mark_injective

end QualifiedName

/-! ## Entries of a file -/

namespace Record

variable {known : List Name}

theorem text_of_denote_objectClass {u : NameRef} {n : Name}
    (h : (objectClass u).denote known = some n) :
    ∃ m, known[u.index]? = some m ∧ n.text = m.text ++ "$" := by
  obtain ⟨m, hm, rfl⟩ := Option.map_eq_some_iff.mp h
  refine ⟨m, hm, ?_⟩
  cases m with
  | simple m => exact m.text_withObjectSuffix
  | qualified q => exact QualifiedName.independentMarks.text_mark q

theorem text_of_denote_qualified {q s : NameRef} {n : Name}
    (h : (qualified q s).denote known = some n) :
    ∃ l m, known[q.index]? = some l ∧ known[s.index]? = some m ∧
      n.text = l.text ++ "." ++ m.text := by
  obtain ⟨path, hpath, hrest⟩ := Option.bind_eq_some_iff.mp h
  obtain ⟨name, hname, ⟨⟩⟩ := Option.bind_eq_some_iff.mp hrest
  obtain ⟨l, hl, rfl⟩ := Option.map_eq_some_iff.mp hpath
  obtain ⟨m, hm, hsimple⟩ := Option.bind_eq_some_iff.mp hname
  refine ⟨l, m, hl, hm, ?_⟩
  cases m with
  | simple m =>
    obtain rfl : m = name := Option.some_inj.mp hsimple
    cases l <;> rfl
  | qualified path => cases hsimple

/-- What the names of records are written as, in terms of the entries that they refer to. -/
structure Texts (records : List Record) (names : List Name) : Prop where
  /-- The class of an object has the text of the object, with the mark behind it. -/
  objectClass {i : Nat} {u : NameRef} (h : records[i]? = some (.objectClass u)) :
    ∃ m n, names[u.index]? = some m ∧ names[i]? = some n ∧ n.text = m.text ++ "$"
  /-- A selected name has the texts of its parts, with a dot in between. -/
  qualified {i : Nat} {q s : NameRef} (h : records[i]? = some (.qualified q s)) :
    ∃ l m n, names[q.index]? = some l ∧ names[s.index]? = some m ∧ names[i]? = some n ∧
      n.text = l.text ++ "." ++ m.text

theorem texts_of_denoteAll {records : List Record} {names : List Name}
    (h : denoteAll [] records = some names) : Texts records names where
  objectClass {i u} hr := by
    obtain ⟨n, hn, hdenote⟩ := exists_denote_of_denoteAll h hr
    obtain ⟨m, hm, htext⟩ := text_of_denote_objectClass hdenote
    exact ⟨m, n, NameRef.getElem?_mono (List.take_prefix i names) hm, hn, htext⟩
  qualified {i q s} hr := by
    obtain ⟨n, hn, hdenote⟩ := exists_denote_of_denoteAll h hr
    obtain ⟨l, m, hl, hm, htext⟩ := text_of_denote_qualified hdenote
    have hprefix := List.take_prefix i names
    exact ⟨l, m, n, NameRef.getElem?_mono hprefix hl, NameRef.getElem?_mono hprefix hm, hn, htext⟩

end Record

namespace Pickle

/-- **The object mark and the namespace of types are independent**, for simple names and for paths,
of which only the last name is rewritten. So in every file the class of an object has the text of
the object with the mark behind it, and a selected name has the texts of its parts with a dot in
between. -/
theorem marks_are_independent :
    IndependentMarks SimpleName.text SimpleName.isTypeName SimpleName.toTypeName
      SimpleName.withObjectSuffix ∧
    IndependentMarks QualifiedName.text (fun q ↦ q.last.isTypeName)
      (QualifiedName.mapLast SimpleName.toTypeName)
      (QualifiedName.mapLast SimpleName.withObjectSuffix) ∧
    (∀ (f : SimpleName → SimpleName) (q : QualifiedName), (q.mapLast f).path ≠ [] ∧
      (q.mapLast f).path.length = q.path.length ∧
      (q.mapLast f).path.dropLast = q.path.dropLast) ∧
    ∀ {reader : Version} {bytes : List UInt8} {p : Pickle}, decode reader bytes = .ok p →
      bytes.length < 2 ^ 33 → (∃ f : FileForm, f.FormOf reader bytes) ∧
        ∀ f : FileForm, f.FormOf reader bytes →
          Record.Texts f.records p.names.entries.toList := by
  refine ⟨SimpleName.independentMarks, QualifiedName.independentMarks, fun f q ↦ ⟨?_, ?_, ?_⟩,
    fun {reader bytes p} hp hlt ↦ ⟨?_, fun f hf ↦ ?_⟩⟩
  · exact (q.mapLast f).path_ne_nil
  · exact QualifiedName.length_path_mapLast f q
  · rw [QualifiedName.path_mapLast, List.dropLast_concat]
  · exact FileForm.exists_formOf hp hlt
  · exact Record.texts_of_denoteAll (hf.denoteAll_eq hlt hp)

/-- The path `a.b` and the class of an object of that path, in a file with a record of each tag. -/
theorem marks_are_independent_eachTag :
    let bytes := (FileForm.eachTag.put .empty).bytes
    ∃ p, decode .current bytes = .ok p ∧ FileForm.eachTag.FormOf .current bytes ∧
      (∃ l m n, p.names.entries[0]? = some l ∧ p.names.entries[1]? = some m ∧
        p.names.entries[2]? = some n ∧ n.text = l.text ++ "." ++ m.text) ∧
      ∃ m n, p.names.entries[2]? = some m ∧ p.names.entries[10]? = some n ∧
        n.text = m.text ++ "$" := by
  intro bytes
  have hlt : bytes.length < 2 ^ 33 := by decide +kernel
  have hform : FileForm.eachTag.FormOf .current bytes :=
    FileForm.formOf_put (by decide) (by decide) (by decide +kernel) (by decide)
  obtain ⟨p, hp, -⟩ := hform.exists_decode_eq_ok (by decide) (hlt.trans (by decide))
  have htexts := (marks_are_independent.2.2.2 hp hlt).2 _ hform
  have hqualified := htexts.qualified (i := 2) (q := ⟨0⟩) (s := ⟨1⟩) rfl
  have hobject := htexts.objectClass (i := 10) (u := ⟨2⟩) rfl
  simp only [Array.getElem?_toList] at hqualified hobject
  exact ⟨p, hp, hform, hqualified, hobject⟩

end Pickle

end TreePickle
