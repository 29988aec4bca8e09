import TreePickle.Name

/-!
# Paths and dotted texts

A path is written with dots in between, and a text is taken apart at its dots. Any text is joined
again from its pieces, and a path is found again in its text exactly if its names can be found in
theirs: `QualifiedName.ofDotted_joins_and_splits`.

## Splitting and joining

The pieces are those of the library's `List.splitOn` (`dottedPieces_eq_splitOn`) and the text of a
path is an `intercalate` of the texts of its names. So the two are inverse as far as splitting and
joining are, by what the library has about them: to join what was split gives the text back, and to
split what was joined gives the list back if no entry has a dot in it.

A text is never without pieces. The empty text has one, which is empty, and a dot at the beginning
or at the end of a text has an empty piece beside it. The paths that come out have names with an
empty text in these places and are written as before.

## Names and their texts

A path with the right text need not be the right path. It takes more than names without a dot: a
derived name is written like a plain one, and a piece of a text is always read as a plain one. The
condition of `QualifiedName.ofDotted_text_iff` is therefore that all names of the path are plain
ones without dots. It is necessary, because the names of a path that comes out of a text are such,
and no kind of name has to be looked at for that.
-/

namespace TreePickle

/-! ## Pieces -/

theorem dottedPieces_dot (cs : List Char) :
    dottedPieces ('.' :: cs) = ([], (dottedPieces cs).1 :: (dottedPieces cs).2) := rfl

theorem dottedPieces_of_ne {c : Char} (hc : c ≠ '.') (cs : List Char) :
    dottedPieces (c :: cs) = (c :: (dottedPieces cs).1, (dottedPieces cs).2) := by
  simp [dottedPieces, hc]

theorem dottedPieces_eq_splitOn (cs : List Char) :
    (dottedPieces cs).1 :: (dottedPieces cs).2 = cs.splitOn '.' := by
  induction cs with
  | nil => rfl
  | cons c cs ih =>
    rw [List.splitOn, List.splitOnP_cons_eq_if_modifyHead, ← List.splitOn, ← ih]
    by_cases hc : c = '.'
    · rw [hc, dottedPieces_dot]
      rfl
    · rw [dottedPieces_of_ne hc]
      simp [hc]

theorem dot_notMem_of_mem_splitOn {cs p : List Char} (h : p ∈ cs.splitOn '.') : '.' ∉ p := by
  rw [← dottedPieces_eq_splitOn] at h
  induction cs generalizing p with
  | nil =>
    obtain rfl : p = [] := List.mem_singleton.mp h
    exact List.not_mem_nil
  | cons c cs ih =>
    by_cases hc : c = '.'
    · -- a dot begins a new piece, and the pieces behind it are the old ones
      rw [hc, dottedPieces_dot, List.mem_cons] at h
      obtain rfl | h := h
      · exact List.not_mem_nil
      · exact ih h
    · rw [dottedPieces_of_ne hc, List.mem_cons] at h
      obtain rfl | h := h
      · rw [List.mem_cons, not_or]
        exact ⟨Ne.symm hc, ih List.mem_cons_self⟩
      · exact ih (List.mem_cons_of_mem _ h)

namespace QualifiedName

/-! ## Splitting and joining -/

theorem path_ofDotted (s : String) :
    (ofDotted s).path = (s.toList.splitOn '.').map fun p ↦ .term (String.ofList p) := by
  rw [← dottedPieces_eq_splitOn, ofDotted, path_selectAll]
  rfl

theorem text_eq_intercalate : ∀ q : QualifiedName,
    q.text = ".".intercalate (q.path.map SimpleName.text)
  | single n => by rw [text, path, List.map_singleton, String.intercalate_singleton]
  | select q n => by
    have hne : q.path.map SimpleName.text ≠ [] := by simpa using q.path_ne_nil
    rw [text, text_eq_intercalate q, path, List.map_append, List.map_singleton,
      String.intercalate_append_of_ne_nil hne (List.cons_ne_nil _ _), String.intercalate_singleton]

theorem toList_text (q : QualifiedName) :
    q.text.toList = ['.'].intercalate (q.path.map fun n ↦ n.text.toList) := by
  rw [text_eq_intercalate, String.toList_intercalate, List.map_map]
  rfl

/-- A text is joined again from its pieces. -/
theorem text_ofDotted (s : String) : (ofDotted s).text = s := by
  have hpieces : (ofDotted s).path.map (fun n ↦ n.text.toList) = s.toList.splitOn '.' := by
    rw [path_ofDotted, List.map_map]
    exact List.map_id'' (fun p ↦ by simp [SimpleName.text]) _
  apply String.toList_injective
  rw [toList_text, hpieces, List.intercalate_splitOn]

/-- The names of a dotted text are plain ones, and the dots are all between them. -/
theorem plain_of_mem_ofDotted {s : String} {n : SimpleName} (h : n ∈ (ofDotted s).path) :
    ∃ t : String, n = .term t ∧ '.' ∉ t.toList := by
  rw [path_ofDotted, List.mem_map] at h
  obtain ⟨p, hp, rfl⟩ := h
  refine ⟨String.ofList p, rfl, ?_⟩
  rw [String.toList_ofList]
  exact dot_notMem_of_mem_splitOn hp

/-- A path is found again in its text exactly if its names are plain ones without dots. -/
theorem ofDotted_text_iff {q : QualifiedName} :
    ofDotted q.text = q ↔ ∀ n ∈ q.path, ∃ t : String, n = .term t ∧ '.' ∉ t.toList := by
  constructor
  · intro h n hn
    rw [← h] at hn
    exact plain_of_mem_ofDotted hn
  · intro hplain
    have hdots : ∀ l ∈ q.path.map (fun n ↦ n.text.toList), '.' ∉ l := by
      rw [List.forall_mem_map]
      intro n hn
      obtain ⟨t, rfl, ht⟩ := hplain n hn
      exact ht
    have hne : q.path.map (fun n ↦ n.text.toList) ≠ [] := by simpa using q.path_ne_nil
    have hread : ∀ n ∈ q.path, SimpleName.term (String.ofList n.text.toList) = n := by
      intro n hn
      obtain ⟨t, rfl, -⟩ := hplain n hn
      rw [SimpleName.text, String.ofList_toList]
    have hpath : (ofDotted q.text).path = q.path := by
      rw [path_ofDotted, toList_text, List.splitOn_intercalate '.' hdots hne, List.map_map]
      exact (List.map_congr_left hread).trans (List.map_id' _)
    rw [← Option.some_inj, ← ofPath?_path, hpath, ofPath?_path]

/-- **Dotted texts and paths.** Every text is the text of the path that it is taken apart into,
which has a name at least. A path is the one that its text is taken apart into exactly if its names
are plain ones without dots. -/
theorem ofDotted_joins_and_splits :
    (∀ s : String, (ofDotted s).path ≠ [] ∧ (ofDotted s).text = s) ∧
    ∀ q : QualifiedName, ofDotted q.text = q ↔
      ∀ n ∈ q.path, ∃ t : String, n = .term t ∧ '.' ∉ t.toList :=
  ⟨fun s ↦ ⟨(ofDotted s).path_ne_nil, text_ofDotted s⟩, fun _ ↦ ofDotted_text_iff⟩

end QualifiedName

end TreePickle
