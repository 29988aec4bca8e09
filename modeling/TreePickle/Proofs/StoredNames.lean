import TreePickle.Proofs.Compatibility
import TreePickle.Proofs.RoundTrip
import TreePickle.Proofs.Markers
import TreePickle.Proofs.Recording

/-!
# Every well-formed name can be stored

A name is recorded by recording its parts first, and then the record that puts them together:
`SimpleName.record`. The file that is written of its records is read, and the last of the names in
it is the name, `Name.decode_file`.

## The records for a name

There is a record for each kind of name but one. The namespace of types needs no record, because the
signature that refers to a name enters it. A path in a signature is recorded as the same path of
terms, and moved when it is read. Nothing is shared between records: a name that occurs twice is
recorded twice, which costs room and saves an argument.

## The induction

That the records denote a well-formed name is proved by induction on the name, and paths and
signatures are part of it. The statements are mutual and differ in what a reference finds afterwards
(`NameRef.IsLast`, `NameRef.IsType`, `Signature.IsRecorded`), with a case for each kind of name.
Names that refer to one other name have one lemma in common, `Recording.Adds.bind_add`, and so have
paths, be they recorded for themselves or for a signature.

## Counting

The induction also counts. There is a record for each name, and another one for each selection and
each separator, which makes fewer than two records for a name; and a record has no more bytes than
its texts, its parameters and some numbers take. So the references of a name of fewer than `2 ^ 29`
nodes fit into 31 bits, and with a limit on the texts its file has an address for each byte. Both
limits are on the name and not on its file, since a writer has to know them beforehand.
-/

namespace TreePickle

/-! ## Records for a name -/

open Recording in
mutual

/-- Adds records for a name and what it is made from, and gives the number of the name. The
namespace of types is left to the record that refers to the name. -/
def SimpleName.record : SimpleName → Recording NameRef
  | .term text => add (.utf8 text)
  | .expanded tag outer name => do
      let o ← outer.record
      let n ← name.record
      add (match tag with
        | .expandPrefix => .expandPrefix o n
        | _ => .expanded o n)
  | .unique separator underlying number => do
      let s ← add (.utf8 separator)
      let u ← underlying.record
      add (.unique s number [u])
  | .defaultGetter underlying index => do
      let u ← underlying.record
      add (.defaultGetter u index)
  | .signed underlying signature target => do
      let u ← underlying.record
      let t ← target.record
      let s ← signature.record
      add (.targetSigned u t s.2 s.1)
  | .prefixed tag underlying => do
      let u ← underlying.record
      add (match tag with
        | .inlineAccessor => .inlineAccessor u
        | _ => .superAccessor u)
  | .suffixed _ underlying => do
      let u ← underlying.record
      add (.bodyRetainer u)
  | .objectClass underlying => do
      let u ← underlying.record
      add (.objectClass u)
  | .type underlying => underlying.record

/-- Adds records for a path and its names. -/
def QualifiedName.record : QualifiedName → Recording NameRef
  | .single name => name.record
  | .select qualifier name => do
      let q ← qualifier.record
      let n ← name.record
      add (.qualified q n)

/-- Adds records for the types in a signature, which has no record of its own, and gives its
parameters and the number of its result. -/
def Signature.record : Signature → Recording (List RecordParam × NameRef)
  | .result type => do
      let t ← type.record
      return ([], t)
  | .param type rest => do
      let t ← type.record
      let s ← rest.record
      return (.term t :: s.1, s.2)
  | .typeParams count rest => do
      let s ← rest.record
      return (.typeParams count.toNat :: s.1, s.2)

end

/-! ## How large a name is -/

mutual

/-- The number of names in a name, itself included, and of the parameters of its signatures. A name
that is moved into the namespace of types does not count a second time. -/
def SimpleName.nodes : SimpleName → Nat
  | .term _ => 1
  | .expanded _ outer name => outer.nodes + name.nodes + 1
  | .unique _ underlying _ => underlying.nodes + 1
  | .defaultGetter underlying _ => underlying.nodes + 1
  | .signed underlying signature target =>
      underlying.nodes + target.nodes + signature.nodes + 1
  | .prefixed _ underlying => underlying.nodes + 1
  | .suffixed _ underlying => underlying.nodes + 1
  | .objectClass underlying => underlying.nodes + 1
  | .type underlying => underlying.nodes

def QualifiedName.nodes : QualifiedName → Nat
  | .single name => name.nodes
  | .select qualifier name => qualifier.nodes + name.nodes

def Signature.nodes : Signature → Nat
  | .result type => type.nodes
  | .param type rest => type.nodes + rest.nodes + 1
  | .typeParams _ rest => rest.nodes + 1

end

mutual

/-- The number of bytes of the texts in a name, separators included. -/
def SimpleName.textSize : SimpleName → Nat
  | .term text => (Text.utf8 text).length
  | .expanded _ outer name => outer.textSize + name.textSize
  | .unique separator underlying _ => (Text.utf8 separator).length + underlying.textSize
  | .defaultGetter underlying _ => underlying.textSize
  | .signed underlying signature target =>
      underlying.textSize + target.textSize + signature.textSize
  | .prefixed _ underlying => underlying.textSize
  | .suffixed _ underlying => underlying.textSize
  | .objectClass underlying => underlying.textSize
  | .type underlying => underlying.textSize

def QualifiedName.textSize : QualifiedName → Nat
  | .single name => name.textSize
  | .select qualifier name => qualifier.textSize + name.textSize

def Signature.textSize : Signature → Nat
  | .result type => type.textSize
  | .param type rest => type.textSize + rest.textSize
  | .typeParams _ rest => rest.textSize

end

theorem SimpleName.one_le_nodes : ∀ n : SimpleName, 1 ≤ n.nodes
  | .type n => n.one_le_nodes
  | .term _ => Nat.le_refl 1
  | .expanded .. | .unique .. | .defaultGetter .. | .signed .. | .prefixed .. | .suffixed ..
  | .objectClass .. => Nat.le_add_left 1 _

theorem QualifiedName.one_le_nodes : ∀ q : QualifiedName, 1 ≤ q.nodes
  | .single n => n.one_le_nodes
  | .select q _ => q.one_le_nodes.trans (Nat.le_add_right _ _)

theorem Signature.length_params_lt_nodes : ∀ s : Signature, s.params.length < s.nodes
  | .result type => type.one_le_nodes
  | .param _ rest => by
    have hrest := rest.length_params_lt_nodes
    rw [params, nodes, List.length_cons]
    omega
  | .typeParams _ rest => Nat.succ_lt_succ rest.length_params_lt_nodes

/-! ## References to what was recorded -/

/-- A path as an entry. -/
def QualifiedName.toName : QualifiedName → Name
  | .single n => .simple n
  | .select q n => .qualified (q.select n)

theorem QualifiedName.toQualified_toName (q : QualifiedName) : q.toName.toQualified = q := by
  cases q <;> rfl

namespace NameRef

variable {known : List Name} {r : NameRef} {n : Name}

/-- The name of `r`, in the namespace of types, is the path `q`. -/
def IsType (known : List Name) (r : NameRef) (q : QualifiedName) : Prop :=
  ∃ path, r.path? known = some path ∧ path.mapLast SimpleName.toTypeName = q

theorem IsLast.isType {q : QualifiedName} (h : r.IsLast known n)
    (hq : n.toQualified.mapLast SimpleName.toTypeName = q) : r.IsType known q :=
  ⟨n.toQualified, h.path?_eq, hq⟩

theorem IsType.mono {known' : List Name} {q : QualifiedName} (h : r.IsType known q)
    (hknown : known <+: known') : r.IsType known' q :=
  h.imp fun _ ↦ And.imp_left (path?_mono hknown)

theorem IsType.denote_eq {q : QualifiedName} (h : r.IsType known q) :
    (RecordParam.term r).denote known = some (.term q) := by
  obtain ⟨path, hpath, rfl⟩ := h
  rw [RecordParam.denote, hpath]
  rfl

theorem IsType.index_lt {q : QualifiedName} (h : r.IsType known q) : r.index < known.length :=
  isSome_path?_iff.mp (Option.isSome_of_eq_some h.choose_spec.1)

end NameRef

namespace Signature

/-- The parameters `params` and the result `result` of a record make up the signature `s`. -/
structure IsRecorded (known : List Name) (s : Signature) (params : List RecordParam)
    (result : NameRef) : Prop where
  denote_eq : params.mapM (RecordParam.denote known) = some s.params
  length_eq : params.length = s.params.length
  valid : ∀ p ∈ params, p.Valid
  isType : result.IsType known s.resultType

namespace IsRecorded

variable {known : List Name} {s : Signature} {params : List RecordParam} {result : NameRef}

theorem nil {q : QualifiedName} (h : result.IsType known q) :
    IsRecorded known (.result q) [] result where
  denote_eq := rfl
  length_eq := rfl
  valid := by simp
  isType := h

theorem cons {p : RecordParam} {p' : ParamSig} (hp : p.denote known = some p') (hvalid : p.Valid)
    (h : IsRecorded known s params result) :
    IsRecorded known (s.withParam p') (p :: params) result where
  denote_eq := by
    rw [params_withParam, List.mapM_cons, hp, h.denote_eq]
    rfl
  length_eq := by rw [params_withParam, List.length_cons, List.length_cons, h.length_eq]
  valid := List.forall_mem_cons.mpr ⟨hvalid, h.valid⟩
  isType := by cases p' <;> exact h.isType

end IsRecorded

end Signature

/-! ## Records that refer to names -/

namespace Recording

variable {known : List Name} {count count' size size' : Nat} {x : Recording NameRef}
  {u : SimpleName}

/-- A record that refers to one name and says nothing else of unlimited size. -/
theorem Adds.bind_add {n : SimpleName} {f : NameRef → Record}
    (hx : Adds known count' size' x fun k r ↦ r.IsLast k (.simple u))
    (hf : ∀ k r, k[r.index]? = some (.simple u) → (f r).denote k = some (.simple n))
    (hparams : ∀ r, (f r).params = []) (hopen : ∀ r, (f r).openSize = 0)
    (hcount : count' + 1 ≤ count) (hsize : size' ≤ size) :
    Adds known count size (do let r ← x; Recording.add (f r)) fun k r ↦ r.IsLast k (.simple n) :=
  hx.bind (by omega) hsize fun k r _ hr ↦
    .add (hf k r hr.getElem?_eq) (by simp [hparams]) (by omega) (by simp [hopen])

/-- A record that selects a name from a path. -/
theorem Adds.bind_select {y : Recording NameRef} {q : QualifiedName} {m n : Nat}
    (hx : Adds known count' size' x fun k r ↦ r.IsLast k q.toName)
    (hy : ∀ k, Adds k m n y fun k r ↦ r.IsLast k (.simple u))
    (hcount : count' + m + 1 ≤ count) (hsize : size' + n ≤ size) :
    Adds known count size (do let r ← x; let s ← y; Recording.add (.qualified r s))
      fun k r ↦ r.IsLast k (.qualified (q.select u)) := by
  refine hx.bind (by omega) (by omega) fun k₁ r _ hr ↦ (hy k₁).bind (by omega) (by omega)
    fun k₂ s hk hs ↦ .add ?_ (by simp [Record.params]) (by omega) (Nat.zero_le _)
  have hpath := NameRef.path?_mono hk hr.path?_eq
  rw [QualifiedName.toQualified_toName] at hpath
  simp [Record.denote, hpath, NameRef.simple?_eq hs.getElem?_eq]

end Recording

/-! ## Recording a name

A node counts for two records, of which a name as a whole leaves one to the record that selects it,
and for ten bytes, which are those of a parameter or of the number behind a separator. -/

open Recording

mutual

theorem SimpleName.adds_record : ∀ (n : SimpleName), n.WellFormed → ∀ known,
    Adds known (2 * n.nodes - 1) (10 * n.nodes + n.textSize) n.record
      fun k r ↦ r.IsLast k (.simple n)
  | .term text, _, known =>
    .add rfl (by simp [Record.params]) (Nat.le_refl 1) (Nat.le_add_left _ _)
  | .expanded tag outer name, ⟨htag, houter, hname⟩, known => by
    have hpos := outer.one_le_nodes
    have hpos' := name.one_le_nodes
    rw [SimpleName.nodes, SimpleName.textSize]
    refine (outer.adds_record houter known).bind (by omega) (by omega) fun k₁ r _ hr ↦
      (name.adds_record hname k₁).bind (by omega) (by omega) fun k₂ s hk hs ↦ ?_
    have hr := NameRef.simple?_eq (NameRef.getElem?_mono hk hr.getElem?_eq)
    have hs := NameRef.simple?_eq hs.getElem?_eq
    rcases htag with rfl | rfl
    · exact .add (by simp [Record.denote, hr, hs]) (by simp [Record.params]) (by omega)
        (Nat.zero_le _)
    · exact .add (by simp [Record.denote, hr, hs]) (by simp [Record.params]) (by omega)
        (Nat.zero_le _)
  | .unique separator underlying number, h, known => by
    have hpos := underlying.one_le_nodes
    have hseparator : Adds known 1 (Text.utf8 separator).length (add (.utf8 separator)) _ :=
      .add rfl (by simp [Record.params]) (Nat.le_refl 1) (Nat.le_refl _)
    rw [SimpleName.nodes, SimpleName.textSize]
    refine hseparator.bind (by omega) (by omega) fun k₁ r _ hr ↦
      (underlying.adds_record h k₁).bind (by omega) (by omega) fun k₂ s hk hs ↦ ?_
    have hr := NameRef.simple?_eq (NameRef.getElem?_mono hk hr.getElem?_eq)
    have hs := NameRef.simple?_eq hs.getElem?_eq
    refine .add ?_ (by simp [Record.params]) (by omega) ?_
    · simp [Record.denote, hr, hs, SimpleName.text]
    · rw [Record.openSize, List.length_singleton]
      omega
  | .defaultGetter underlying index, h, known => by
    have hpos := underlying.one_le_nodes
    rw [SimpleName.nodes, SimpleName.textSize]
    refine (underlying.adds_record h known).bind_add (fun k r hr ↦ ?_) (fun _ ↦ rfl) (fun _ ↦ rfl)
      (by omega) (by omega)
    simp [Record.denote, NameRef.simple?_eq hr]
  | .signed underlying signature target, ⟨hunderlying, hsignature, htarget⟩, known => by
    have hpos := underlying.one_le_nodes
    have hpos' := target.one_le_nodes
    have hparams := signature.length_params_lt_nodes
    rw [SimpleName.nodes, SimpleName.textSize]
    refine (underlying.adds_record hunderlying known).bind (by omega) (by omega) fun k₁ u _ hu ↦
      (target.adds_record htarget k₁).bind (by omega) (by omega) fun k₂ t hk ht ↦
      (signature.adds_record hsignature k₂).bind (by omega) (by omega) fun k₃ s hk' hs ↦ ?_
    have hu := NameRef.simple?_eq (NameRef.getElem?_mono (hk.trans hk') hu.getElem?_eq)
    have ht := NameRef.simple?_eq (NameRef.getElem?_mono hk' ht.getElem?_eq)
    obtain ⟨type, htype, hresult⟩ := hs.isType
    refine .add ?_ hs.valid (by omega) ?_
    · simp [Record.denote, hu, ht, htype, hresult, hs.denote_eq]
    · rw [Record.openSize, hs.length_eq]
      omega
  | .prefixed tag underlying, ⟨htag, h⟩, known => by
    have hpos := underlying.one_le_nodes
    have hunderlying := underlying.adds_record h known
    rw [SimpleName.nodes, SimpleName.textSize]
    rcases htag with rfl | rfl
    · refine hunderlying.bind_add (fun k r hr ↦ ?_) (fun _ ↦ rfl) (fun _ ↦ rfl) (by omega)
        (by omega)
      simp [Record.denote, NameRef.simple?_eq hr]
    · refine hunderlying.bind_add (fun k r hr ↦ ?_) (fun _ ↦ rfl) (fun _ ↦ rfl) (by omega)
        (by omega)
      simp [Record.denote, NameRef.simple?_eq hr]
  | .suffixed tag underlying, ⟨htag, h⟩, known => by
    have hpos := underlying.one_le_nodes
    rw [SimpleName.nodes, SimpleName.textSize, htag]
    refine (underlying.adds_record h known).bind_add (fun k r hr ↦ ?_) (fun _ ↦ rfl) (fun _ ↦ rfl)
      (by omega) (by omega)
    simp [Record.denote, NameRef.simple?_eq hr]
  | .objectClass underlying, h, known => by
    have hpos := underlying.one_le_nodes
    rw [SimpleName.nodes, SimpleName.textSize]
    refine (underlying.adds_record h known).bind_add (fun k r hr ↦ ?_) (fun _ ↦ rfl) (fun _ ↦ rfl)
      (by omega) (by omega)
    -- the mark would go under the namespace of types, but the name is not in there
    have hobject : underlying.withObjectSuffix = .objectClass underlying :=
      SimpleName.withObjectSuffix_eq_objectClass (SimpleName.WellFormed.isTypeName h)
    simp [Record.denote, hr, hobject]
  | .type _, h, _ => h.elim

theorem QualifiedName.adds_record : ∀ (q : QualifiedName), q.WellFormed → ∀ known,
    Adds known (2 * q.nodes - 1) (10 * q.nodes + q.textSize) q.record fun k r ↦ r.IsLast k q.toName
  | .single n, h, known => n.adds_record h known
  | .select q n, ⟨hq, hn⟩, known => by
    have hpos := q.one_le_nodes
    have hpos' := n.one_le_nodes
    rw [QualifiedName.nodes, QualifiedName.textSize]
    exact (q.adds_record hq known).bind_select (n.adds_record hn) (by omega) (by omega)

/-- The records for a type in a signature are those for the same path of terms. -/
theorem QualifiedName.adds_record_type : ∀ (q : QualifiedName), q.WellFormedType → ∀ known,
    Adds known (2 * q.nodes - 1) (10 * q.nodes + q.textSize) q.record fun k r ↦ r.IsType k q
  | .single (.type n), h, known =>
    (n.adds_record h known).imp fun _ _ hr ↦
      hr.isType (congrArg QualifiedName.single (SimpleName.WellFormed.toTypeName_eq h))
  | .select q (.type n), ⟨hq, hn⟩, known => by
    have hpos := q.one_le_nodes
    have hpos' := n.one_le_nodes
    rw [QualifiedName.nodes, QualifiedName.textSize, SimpleName.nodes, SimpleName.textSize]
    refine Adds.imp (P := fun k r ↦ r.IsLast k (.qualified (q.select n))) ?_ fun _ _ hr ↦
      hr.isType (congrArg q.select (SimpleName.WellFormed.toTypeName_eq hn))
    exact (q.adds_record hq known).bind_select (n.adds_record hn) (by omega) (by omega)

/-- A signature has no record, so the bytes of its parameters are left to the record of its name. -/
theorem Signature.adds_record : ∀ (s : Signature), s.WellFormed → ∀ known,
    Adds known (2 * s.nodes - 1) (10 * (s.nodes - s.params.length) + s.textSize) s.record
      fun k v ↦ s.IsRecorded k v.1 v.2
  | .result type, h, known => by
    refine (type.adds_record_type h known).bind (Nat.le_refl _) ?_ fun k t _ ht ↦ ?_
    · rw [Signature.nodes, Signature.textSize, Signature.params, List.length_nil, Nat.sub_zero]
    · exact .pure fun _ ↦ .nil ht
  | .param type rest, ⟨htype, hrest⟩, known => by
    have hpos := type.one_le_nodes
    have hparams := rest.length_params_lt_nodes
    rw [Signature.nodes, Signature.textSize, Signature.params, List.length_cons]
    refine (type.adds_record_type htype known).bind (by omega) (by omega) fun k₁ t _ ht ↦
      (rest.adds_record hrest k₁).bind (by omega) (by omega) fun k₂ s hk hs ↦ .pure fun hle ↦ ?_
    -- the reference is as old as the parameter, and only read behind the other parameters
    have ht := ht.mono hk
    exact hs.cons ht.denote_eq (ht.index_lt.trans_le hle)
  | .typeParams count rest, ⟨hcount, hrest⟩, known => by
    have hparams := rest.length_params_lt_nodes
    rw [Signature.nodes, Signature.textSize, Signature.params, List.length_cons]
    refine (rest.adds_record hrest known).bind (by omega) (by omega) fun k s _ hs ↦ .pure fun _ ↦ ?_
    have hdenote : (RecordParam.typeParams count.toNat).denote k = some (.typeLen count) := by
      rw [RecordParam.denote, UInt64.ofNat_toNat]
    exact hs.cons hdenote hcount

end

namespace Name

def record : Name → Recording NameRef
  | simple n => n.record
  | qualified q => q.record

def nodes : Name → Nat
  | simple n => n.nodes
  | qualified q => q.nodes

def textSize : Name → Nat
  | simple n => n.textSize
  | qualified q => q.textSize

theorem adds_record {n : Name} (h : n.WellFormed) (known : List Name) :
    Adds known (2 * n.nodes - 1) (10 * n.nodes + n.textSize) n.record fun k r ↦ r.IsLast k n := by
  cases n with
  | simple n => exact n.adds_record h known
  | qualified q =>
    obtain ⟨hlength, hq⟩ := h
    cases q with
    | single n => exact absurd hlength (by simp [QualifiedName.path])
    | select q n => exact (q.select n).adds_record hq known

/-! ## A file with a name -/

/-- The records for a name. -/
def records (n : Name) : List Record := (n.record.run []).run.2

def fileHeader : Header := ⟨.current, "", Vector.replicate uuidSize 0⟩

/-- A file with the records for a name and nothing else. -/
def file (n : Name) : FileForm where
  header := fileHeader
  records := n.records
  sections := []

variable {n : Name}

/-- The records for a name denote names of which it is the last. -/
theorem exists_extends_records (h : n.WellFormed) (hnodes : n.nodes < 2 ^ 29) :
    ∃ names, Record.Extends [] n.records names (2 * n.nodes - 1) (10 * n.nodes + n.textSize) ∧
      names.getLast? = some n := by
  obtain ⟨r, records, names, hrun, hextends, hlast⟩ :=
    adds_record h [] (by rw [List.length_nil]; omega) [] rfl
  have hrecords : n.records = records := by rw [Name.records, hrun, List.nil_append]
  exact ⟨names, hrecords ▸ hextends, hlast.getLast?_eq⟩

/-- The path `a.b$`, where the class of the object `b` is recorded in front of the path. -/
example : (qualified (.select (.single (.term "a")) (.objectClass (.term "b")))).records =
    [.utf8 "a", .utf8 "b", .objectClass ⟨1⟩, .qualified ⟨0⟩ ⟨2⟩] := by
  decide

theorem size_putHeader_fileHeader : (Writer.empty.putHeader fileHeader).size = 24 := by
  decide +kernel

theorem size_put_file_lt {count size : Nat} {names : List Name}
    (h : Record.Extends [] n.records names count size) (hcount : count < 2 ^ 30)
    (hsize : size < 2 ^ 41) : (n.file.put .empty).size < Address.bound := by
  have hheader : (Writer.empty.putHeader n.file.header).size = 24 := size_putHeader_fileHeader
  have hbound : Address.bound = 2 ^ 64 := rfl
  have hlength : n.file.records.length ≤ count := h.length_le
  have hput : (n.file.put .empty).size ≤ _ :=
    FileForm.size_putNames_le (f := n.file) h.openSize_le (by omega)
  omega

/-- **Every well-formed name can be stored.** The file that is written of its records is read, and
the last of the names in it is the name. -/
theorem decode_file (h : n.WellFormed) (hnodes : n.nodes < 2 ^ 29) (htext : n.textSize < 2 ^ 40) :
    ∃ p, Pickle.decode .current (n.file.put .empty).bytes = .ok p ∧
      p.names.entries.back? = some n := by
  obtain ⟨names, hextends, hlast⟩ := exists_extends_records h hnodes
  have hsize := size_put_file_lt hextends (by omega) (by omega)
  have hrecords : Record.AllScoped [] n.file.records :=
    Record.isSome_denoteAll_iff.mp (Option.isSome_of_eq_some hextends.denoteAll_eq)
  have hscoped : n.file.Scoped := ⟨hrecords, by simp [file]⟩
  have hform : n.file.FormOf .current (n.file.put .empty).bytes :=
    FileForm.formOf_put hscoped hextends.valid hsize (Version.accepts_refl .current)
  have hcount : n.file.records.length < 2 ^ 32 := hextends.length_le.trans_lt (by omega)
  obtain ⟨p, hp, hnames⟩ := hform.exists_decode_eq_ok hcount (by rwa [Writer.length_bytes])
  refine ⟨p, hp, ?_⟩
  have hentries : names = p.names.entries.toList :=
    Option.some_inj.mp (hextends.denoteAll_eq.symm.trans hnames)
  rw [← Array.getLast?_toList, ← hentries, hlast]

/-- A path with a method behind it, whose signature has a path of its own and whose name has a
separator with a dot. -/
theorem decode_file_signed :
    let a : SimpleName := .term "a"
    let type : QualifiedName := .select (.single a) (.type (.objectClass a))
    let signature : Signature := .param type (.typeParams 0x80000000 (.result (.single (.type a))))
    let method : SimpleName :=
      .signed (.unique "." a 0xFFFFFFFFFFFFFFFF) signature (.prefixed .superAccessor a)
    let n : Name := .qualified (.select (.select (.single a) a) method)
    n.WellFormed ∧ n.nodes < 2 ^ 29 ∧ n.textSize < 2 ^ 40 ∧
      ∃ p, Pickle.decode .current (n.file.put .empty).bytes = .ok p ∧
        p.names.entries.back? = some n := by
  intro a type signature method n
  have hmethod : method.WellFormed :=
    ⟨trivial, ⟨⟨trivial, trivial⟩, by decide, trivial⟩, .inl rfl, trivial⟩
  have hwellFormed : n.WellFormed := ⟨by decide, ⟨trivial, trivial⟩, hmethod⟩
  have hnodes : n.nodes < 2 ^ 29 := by decide
  have htext : n.textSize < 2 ^ 40 := by decide
  exact ⟨hwellFormed, hnodes, htext, decode_file hwellFormed hnodes htext⟩

end Name

end TreePickle
