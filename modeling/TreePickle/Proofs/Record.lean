import TreePickle.Name
import TreePickle.NameTable
import TreePickle.Proofs.Writing

/-!
# Name records as data

A `Record` is what a writer of files decides on: a kind of name, and references to the names that
were recorded before it. Three things can be said about it without reading or writing anything: the
strings that it is written as, the name that it denotes once the names before it are known, and
whether its references are in order.

## Denotations

`Record.denote known` gives the name by the constructors of names, with the references followed in
the list `known`. It is partial for one reason only, a reference that leads nowhere or to a path
where a simple name is needed. `Record.denoteAll` goes through a list of records and lets each of
them see the names in front of it; entry by entry that is `Record.denoteAll_eq_some`.

Parameters of a signature are numbers of 32 bits: a reference, or the negative of a count. The two
can be told apart because no clause is empty, `RecordParam.ofCode_ofInt_code`.

## References in order

References are in order if they point backward, and to a simple name where the record needs one.
Only the kinds of the names before it matter for that, and not the names themselves; and the kind
of a name can be told from its record and the kinds before it, `Record.isSimple_of_denote`. So
`Record.AllScoped` can be checked on a list of records alone, and it holds exactly if all records
denote names, `Record.isSome_denoteAll_iff`.

## Spellings

A record is a tag with the frame of its payload, and a payload is the product of its parts in the
order in which they stand. What `Record.put` writes is a spelling, `Record.appends_put`, and a
spelling takes at least two bytes, which bounds the number of records in a file.
-/

namespace TreePickle

open Base128

/-! ## References -/

/-- Whether an entry is a simple name. -/
def Name.isSimple : Name → Bool
  | simple _ => true
  | qualified _ => false

/-- The name of an entry that is simple. -/
def Name.toSimple? : Name → Option SimpleName
  | simple n => some n
  | qualified _ => none

namespace NameRef

def spelling (r : NameRef) : Language UInt8 := natural r.index

/-- The simple name that is referred to. -/
def simple? (known : List Name) (r : NameRef) : Option SimpleName :=
  known[r.index]?.bind Name.toSimple?

/-- The name that is referred to, as a path. -/
def path? (known : List Name) (r : NameRef) : Option QualifiedName :=
  known[r.index]?.map Name.toQualified

theorem nil_notMem_spelling (r : NameRef) : [] ∉ r.spelling := nil_notMem_numeral _ _

theorem isSome_simple?_iff {known : List Name} {r : NameRef} :
    (r.simple? known).isSome ↔ (known.map Name.isSimple)[r.index]? = some true := by
  rw [simple?, List.getElem?_map]
  rcases known[r.index]? with _ | _ | _ <;> simp [Name.isSimple, Name.toSimple?]

theorem isSome_path?_iff {known : List Name} {r : NameRef} :
    (r.path? known).isSome ↔ r.index < known.length := by
  rw [path?, Option.isSome_map, isSome_getElem?]

/-! A reference keeps its meaning when more names get known. -/

section

variable {known known' : List Name} (h : known <+: known') {r : NameRef}

include h

theorem getElem?_mono {n : Name} (hn : known[r.index]? = some n) :
    known'[r.index]? = some n := by
  obtain ⟨hlt, rfl⟩ := List.getElem?_eq_some_iff.mp hn
  exact List.prefix_iff_getElem?.mp h r.index hlt

theorem path?_mono {q : QualifiedName} (hq : r.path? known = some q) :
    r.path? known' = some q := by
  obtain ⟨n, hn, rfl⟩ := Option.map_eq_some_iff.mp hq
  exact Option.map_eq_some_iff.mpr ⟨n, getElem?_mono h hn, rfl⟩

end

end NameRef

/-! ## Parameters -/

/-- A parameter as it stands in the record of a signature. -/
inductive RecordParam where
  /-- A term parameter, by a reference to the name of its type. -/
  | term (type : NameRef)
  /-- A clause of so many type parameters. -/
  | typeParams (count : Nat)
  deriving DecidableEq

namespace RecordParam

/-- The number that a parameter is written as. -/
def code : RecordParam → Int
  | term type => type.index
  | typeParams count => -count

/-- The number has 32 bits, and no clause is empty. -/
def Valid : RecordParam → Prop
  | term type => type.index < 2 ^ 31
  | typeParams count => 1 ≤ count ∧ count ≤ 2 ^ 31

instance : DecidablePred Valid
  | term type => inferInstanceAs (Decidable (type.index < 2 ^ 31))
  | typeParams count => inferInstanceAs (Decidable (1 ≤ count ∧ count ≤ 2 ^ 31))

/-- The parameter that a number stands for. -/
def ofCode (v : Int32) : RecordParam :=
  if v.toInt < 0 then typeParams v.toInt.natAbs else term ⟨.ofNat v.toInt.toNat⟩

theorem Valid.code_mem {p : RecordParam} (h : p.Valid) : -2 ^ 31 ≤ p.code ∧ p.code < 2 ^ 31 := by
  cases p with
  | term type =>
    have hlt : type.index < 2 ^ 31 := h
    rw [code]
    omega
  | typeParams count =>
    obtain ⟨hpos, hle⟩ : 1 ≤ count ∧ count ≤ 2 ^ 31 := h
    rw [code]
    omega

/-- A valid parameter survives as a number of 32 bits. -/
theorem Valid.toInt_ofInt_code {p : RecordParam} (h : p.Valid) :
    (Int32.ofInt p.code).toInt = p.code :=
  Int32.toInt_ofInt_of_le h.code_mem.1 h.code_mem.2

theorem code_ofCode (v : Int32) : (ofCode v).code = v.toInt := by
  by_cases hneg : v.toInt < 0
  · rw [ofCode, if_pos hneg, code]
    omega
  · have hlt := v.toInt_lt
    rw [ofCode, if_neg hneg, code, NameRef.index,
      UInt32.toNat_ofNat_of_lt' (by rw [UInt32.size]; omega)]
    omega

theorem valid_ofCode (v : Int32) : (ofCode v).Valid := by
  have hle := v.le_toInt
  have hlt := v.toInt_lt
  have hcode := code_ofCode v
  by_cases hneg : v.toInt < 0
  · rw [ofCode, if_pos hneg, Valid]
    omega
  · rw [ofCode, if_neg hneg, code] at hcode
    rw [ofCode, if_neg hneg, Valid]
    omega

/-- The sign tells the two kinds of valid parameters apart, because no clause is empty. -/
theorem ofCode_ofInt_code {p : RecordParam} (h : p.Valid) : ofCode (Int32.ofInt p.code) = p := by
  rw [ofCode, h.toInt_ofInt_code]
  cases p with
  | term type =>
    rw [code, if_neg (Int.not_lt.mpr (Int.natCast_nonneg _)), Int.toNat_natCast, NameRef.index,
      UInt32.ofNat_toNat]
  | typeParams count =>
    have hpos : 1 ≤ count := h.1
    rw [code, if_pos (by omega), Int.natAbs_neg, Int.natAbs_natCast]

def spelling (p : RecordParam) : Language UInt8 := {bs | p.Valid ∧ bs ∈ integer p.code}

/-- The parameter of a signature. Types are named in the namespace of types. -/
def denote (known : List Name) : RecordParam → Option ParamSig
  | term type => do return .term ((← type.path? known).mapLast SimpleName.toTypeName)
  | typeParams count => some (.typeLen (UInt64.ofNat count))

/-- The reference in a parameter. -/
def type? : RecordParam → Option NameRef
  | term type => some type
  | typeParams _ => none

theorem nil_notMem_spelling (p : RecordParam) : [] ∉ p.spelling :=
  fun h ↦ nil_notMem_numeral _ _ h.2

theorem isSome_denote_iff {known : List Name} {p : RecordParam} :
    (p.denote known).isSome ↔ ∀ r ∈ p.type?, r.index < known.length := by
  cases p with
  | term type =>
    rw [denote, Option.bind_eq_bind, Option.isSome_bind]
    simpa [type?] using NameRef.isSome_path?_iff
  | typeParams count => simp [denote, type?]

end RecordParam

/-! ## Records -/

/-- A record of the name table, its references not followed. -/
inductive Record where
  | utf8 (text : String)
  | qualified (qualifier name : NameRef)
  | expanded (outer name : NameRef)
  | expandPrefix (outer name : NameRef)
  /-- Of the names behind the number only the first one counts. -/
  | unique (separator : NameRef) (number : UInt64) (bases : List NameRef)
  | defaultGetter (underlying : NameRef) (index : UInt64)
  | superAccessor (underlying : NameRef)
  | inlineAccessor (underlying : NameRef)
  | bodyRetainer (underlying : NameRef)
  | objectClass (underlying : NameRef)
  | targetSigned (underlying target result : NameRef) (params : List RecordParam)
  | signed (underlying result : NameRef) (params : List RecordParam)
  deriving DecidableEq

namespace Record

def tag : Record → NameTag
  | utf8 .. => .utf8
  | qualified .. => .qualified
  | expanded .. => .expanded
  | expandPrefix .. => .expandPrefix
  | unique .. => .unique
  | defaultGetter .. => .defaultGetter
  | superAccessor .. => .superAccessor
  | inlineAccessor .. => .inlineAccessor
  | bodyRetainer .. => .bodyRetainer
  | objectClass .. => .objectClass
  | targetSigned .. => .targetSigned
  | signed .. => .signed

/-! ## What a record is written as -/

/-- The strings behind the length of a record. -/
def payload : Record → Language UInt8
  | utf8 text => {Text.utf8 text}
  | qualified q n => q.spelling * n.spelling
  | expanded o n => o.spelling * n.spelling
  | expandPrefix o n => o.spelling * n.spelling
  | unique s number bases =>
      s.spelling * (natural number.toNat * (bases.map NameRef.spelling).prod)
  | defaultGetter u index => u.spelling * natural index.toNat
  | superAccessor u => u.spelling
  | inlineAccessor u => u.spelling
  | bodyRetainer u => u.spelling
  | objectClass u => u.spelling
  | targetSigned u t result params =>
      u.spelling * (t.spelling * (result.spelling * (params.map RecordParam.spelling).prod))
  | signed u result params =>
      u.spelling * (result.spelling * (params.map RecordParam.spelling).prod)

/-- The strings of a record: its tag, its length and its payload. -/
def spelling (r : Record) : Language UInt8 := {[r.tag.toByte]} * framed r.payload

/-- Tag and length take at least two bytes. -/
theorem two_le_length {r : Record} {bs : List UInt8} (h : bs ∈ r.spelling) : 2 ≤ bs.length := by
  obtain ⟨_, rfl, _, ⟨payload, -, size, hsize, rfl⟩, rfl⟩ := Language.mem_mul.mp h
  have hne : 0 < size.length := List.length_pos_iff.mpr hsize.1.ne_nil
  simp only [List.length_append, List.length_singleton]
  omega

theorem nil_notMem_spelling (r : Record) : [] ∉ r.spelling := fun h ↦ by simpa using two_le_length h

theorem two_mul_length_le {records : List Record} {bs : List UInt8}
    (h : bs ∈ (records.map spelling).prod) : 2 * records.length ≤ bs.length := by
  induction records generalizing bs with
  | nil => simp
  | cons r records ih =>
    obtain ⟨b, hb, cs, hcs, rfl⟩ := Language.mem_mul.mp h
    have hb := two_le_length hb
    have hcs := ih hcs
    rw [List.length_cons, List.length_append]
    omega

/-- The parameters that are written as numbers of 32 bits. -/
def params : Record → List RecordParam
  | targetSigned _ _ _ params => params
  | signed _ _ params => params
  | _ => []

private theorem exists_mem_of_mem_prod {α : Type} {L : α → Language UInt8} {xs : List α}
    {bs : List UInt8} (h : bs ∈ (xs.map L).prod) : ∀ x ∈ xs, ∃ cs, cs ∈ L x := by
  induction xs generalizing bs with
  | nil => simp
  | cons x xs ih =>
    obtain ⟨b, hb, cs, hcs, -⟩ := Language.mem_mul.mp h
    exact List.forall_mem_cons.mpr ⟨⟨b, hb⟩, ih hcs⟩

theorem exists_mem_spelling {records : List Record} {bs : List UInt8}
    (h : bs ∈ (records.map spelling).prod) : ∀ r ∈ records, ∃ cs, cs ∈ r.spelling :=
  exists_mem_of_mem_prod h

/-- Only valid parameters are spelled at all. -/
theorem valid_of_mem_spelling {r : Record} {bs : List UInt8} (h : bs ∈ r.spelling) :
    ∀ p ∈ r.params, p.Valid := by
  have hvalid {params : List RecordParam} {bs : List UInt8}
      (h : bs ∈ (params.map RecordParam.spelling).prod) : ∀ p ∈ params, p.Valid :=
    fun p hp ↦ (exists_mem_of_mem_prod h p hp).elim fun _ ↦ And.left
  obtain ⟨_, -, _, ⟨bs, hbs, -⟩, -⟩ := Language.mem_mul.mp h
  cases r with
  | targetSigned u t result params =>
    obtain ⟨_, -, _, hbs, -⟩ := Language.mem_mul.mp hbs
    obtain ⟨_, -, _, hbs, -⟩ := Language.mem_mul.mp hbs
    obtain ⟨_, -, _, hbs, -⟩ := Language.mem_mul.mp hbs
    exact hvalid hbs
  | signed u result params =>
    obtain ⟨_, -, _, hbs, -⟩ := Language.mem_mul.mp hbs
    obtain ⟨_, -, _, hbs, -⟩ := Language.mem_mul.mp hbs
    exact hvalid hbs
  | _ => simp [params]

/-- A parameter as it is handed to a writer. -/
def putParam (w : Writer) (p : RecordParam) : Writer := w.putInt (Int32.ofInt p.code)

def putRef (w : Writer) (r : NameRef) : Writer := w.putNat r.number

def putPayload : Record → Writer → Writer
  | utf8 text, w => w.putBytes (Text.utf8 text)
  | qualified q n, w => putRef (putRef w q) n
  | expanded o n, w => putRef (putRef w o) n
  | expandPrefix o n, w => putRef (putRef w o) n
  | unique s number bases, w => bases.foldl putRef ((putRef w s).putLongNat number)
  | defaultGetter u index, w => (putRef w u).putLongNat index
  | superAccessor u, w => putRef w u
  | inlineAccessor u, w => putRef w u
  | bodyRetainer u, w => putRef w u
  | objectClass u, w => putRef w u
  | targetSigned u t result params, w =>
      params.foldl putParam (putRef (putRef (putRef w u) t) result)
  | signed u result params, w => params.foldl putParam (putRef (putRef w u) result)

/-- Writes a record. A text has an operation of its own. -/
def put : Record → Writer → Writer
  | utf8 text, w => w.putName text
  | r, w => w.putNameRecord r.tag r.putPayload

end Record

open Writer in
theorem RecordParam.appends_putParam {p : RecordParam} (h : p.Valid) :
    Appends (Record.putParam · p) p.spelling := by
  have hput := Appends.putInt (Int32.ofInt p.code)
  rw [h.toInt_ofInt_code] at hput
  exact fun w ↦ (hput w).imp fun bs ↦ And.imp_right fun hL hlt ↦ ⟨h, hL hlt⟩

namespace Record

open Writer

theorem appends_putRef (r : NameRef) : Appends (putRef · r) r.spelling := .putNat r.number

theorem appends_putPayload {r : Record} (h : ∀ p ∈ r.params, p.Valid) :
    Appends r.putPayload r.payload := by
  have href := appends_putRef
  cases r with
  | utf8 text => exact .putBytes (Text.utf8 text)
  | qualified q n => exact (href n).comp (href q)
  | expanded o n => exact (href n).comp (href o)
  | expandPrefix o n => exact (href n).comp (href o)
  | unique s number bases =>
    have hbases : Appends (fun w ↦ bases.foldl putRef w) _ := .foldl fun r _ ↦ href r
    exact (hbases.comp (.putLongNat number)).comp (href s)
  | defaultGetter u index => exact (Appends.putLongNat index).comp (href u)
  | superAccessor u => exact href u
  | inlineAccessor u => exact href u
  | bodyRetainer u => exact href u
  | objectClass u => exact href u
  | targetSigned u t result params =>
    have hparams := Appends.foldl fun p hp ↦ RecordParam.appends_putParam (h p hp)
    exact ((hparams.comp (href result)).comp (href t)).comp (href u)
  | signed u result params =>
    have hparams := Appends.foldl fun p hp ↦ RecordParam.appends_putParam (h p hp)
    exact (hparams.comp (href result)).comp (href u)

theorem appends_put {r : Record} (h : ∀ p ∈ r.params, p.Valid) : Appends r.put r.spelling := by
  have hrecord : Appends (fun w ↦ w.putNameRecord r.tag r.putPayload) r.spelling :=
    Appends.comp (.putFramed (appends_putPayload h)) (.putByte r.tag.toByte)
  cases r <;> exact hrecord

/-! ## What a record denotes -/

/-- The name of a record, given the names before it. -/
def denote (known : List Name) : Record → Option Name
  | utf8 text => some (.simple (.term text))
  | qualified q n => do
      let qualifier ← q.path? known
      return .qualified (qualifier.select (← n.simple? known))
  | expanded o n => do
      let outer ← o.simple? known
      return .simple (.expanded .expanded outer (← n.simple? known))
  | expandPrefix o n => do
      let outer ← o.simple? known
      return .simple (.expanded .expandPrefix outer (← n.simple? known))
  | unique s number bases => do
      let separator ← s.simple? known
      let bases ← bases.mapM (NameRef.simple? known)
      return .simple (.unique separator.text (bases.headD .empty) number)
  | defaultGetter u index => do return .simple (.defaultGetter (← u.simple? known) index)
  | superAccessor u => do return .simple (.prefixed .superAccessor (← u.simple? known))
  | inlineAccessor u => do return .simple (.prefixed .inlineAccessor (← u.simple? known))
  | bodyRetainer u => do return .simple (.suffixed .bodyRetainer (← u.simple? known))
  | objectClass u =>
      known[u.index]?.map fun
        | .simple n => .simple n.withObjectSuffix
        | .qualified path => .qualified (path.mapLast SimpleName.withObjectSuffix)
  | targetSigned u t result params => do
      let underlying ← u.simple? known
      let target ← t.simple? known
      let type ← result.path? known
      let params ← params.mapM (RecordParam.denote known)
      let signature := Signature.ofParams params (type.mapLast SimpleName.toTypeName)
      return .simple (.signed underlying signature target)
  | signed u result params => do
      let underlying ← u.simple? known
      let type ← result.path? known
      let params ← params.mapM (RecordParam.denote known)
      let signature := Signature.ofParams params (type.mapLast SimpleName.toTypeName)
      return .simple (.signed underlying signature underlying)

/-- The names of a list of records, behind those known before. -/
def denoteAll (known : List Name) : List Record → Option (List Name)
  | [] => some known
  | r :: records => do denoteAll (known ++ [← r.denote known]) records

theorem denoteAll_append {known : List Name} {records records' : List Record} :
    denoteAll known (records ++ records') =
      (denoteAll known records).bind (denoteAll · records') := by
  induction records generalizing known with
  | nil => rfl
  | cons r records ih =>
    rw [List.cons_append, denoteAll, denoteAll]
    cases r.denote known with
    | none => rfl
    | some n => exact ih

/-! ## References in order -/

/-- The references that have to be to simple names. -/
def simpleRefs : Record → List NameRef
  | utf8 _ => []
  | qualified _ n => [n]
  | expanded o n => [o, n]
  | expandPrefix o n => [o, n]
  | unique s _ bases => s :: bases
  | defaultGetter u _ => [u]
  | superAccessor u => [u]
  | inlineAccessor u => [u]
  | bodyRetainer u => [u]
  | objectClass _ => []
  | targetSigned u t _ _ => [u, t]
  | signed u _ _ => [u]

/-- The references that may be to any names. -/
def anyRefs : Record → List NameRef
  | qualified q _ => [q]
  | objectClass u => [u]
  | targetSigned _ _ result params => result :: params.filterMap RecordParam.type?
  | signed _ result params => result :: params.filterMap RecordParam.type?
  | _ => []

/-- The references are to records before this one, and to simple names where that is needed.
`kinds` tells of each record before this one whether its name is simple. -/
def Scoped (kinds : List Bool) (r : Record) : Prop :=
  (∀ s ∈ r.simpleRefs, kinds[s.index]? = some true) ∧ ∀ s ∈ r.anyRefs, s.index < kinds.length

/-- Whether the name of the record is simple. -/
def isSimple (kinds : List Bool) : Record → Bool
  | qualified .. => false
  | objectClass u => kinds.getD u.index true
  | _ => true

/-- The references of all records of a list are in order. -/
def AllScoped (kinds : List Bool) : List Record → Prop
  | [] => True
  | r :: records => r.Scoped kinds ∧ AllScoped (kinds ++ [r.isSimple kinds]) records

instance (kinds : List Bool) (r : Record) : Decidable (r.Scoped kinds) :=
  inferInstanceAs (Decidable (_ ∧ _))

instance decidableAllScoped : ∀ kinds records, Decidable (AllScoped kinds records)
  | _, [] => isTrue trivial
  | kinds, r :: records =>
    have := decidableAllScoped (kinds ++ [r.isSimple kinds]) records
    inferInstanceAs (Decidable (r.Scoped kinds ∧ AllScoped (kinds ++ [r.isSimple kinds]) records))

variable {known : List Name}

/-- The kind of a name can be told from its record. -/
theorem isSimple_of_denote {r : Record} {n : Name} (h : r.denote known = some n) :
    n.isSimple = r.isSimple (known.map Name.isSimple) := by
  cases r with
  | objectClass u =>
    obtain ⟨m, hm, rfl⟩ := Option.map_eq_some_iff.mp h
    rw [isSimple, List.getD_eq_getElem?_getD, List.getElem?_map, hm]
    cases m <;> rfl
  | _ =>
    simp only [denote, Option.bind_eq_bind, Option.bind_eq_some_iff, pure, Option.some_inj] at h
    grind [Name.isSimple, isSimple]

private theorem any_const {α : Type} (o : Option α) (b : Bool) :
    o.any (fun _ ↦ b) = (o.isSome && b) := by
  cases o <;> simp

private theorem isSome_mapM_iff {α β : Type} {f : α → Option β} {xs : List α} :
    (xs.mapM f).isSome ↔ ∀ x ∈ xs, (f x).isSome := by
  induction xs with
  | nil => simp
  | cons x xs ih => simp [Option.isSome_bind, any_const, ih]

private theorem isSome_mapM_denote_iff {params : List RecordParam} :
    (params.mapM (RecordParam.denote known)).isSome ↔
      ∀ r ∈ params.filterMap RecordParam.type?, r.index < known.length := by
  rw [isSome_mapM_iff]
  simp only [RecordParam.isSome_denote_iff, List.mem_filterMap]
  exact ⟨fun h r ⟨p, hp, hr⟩ ↦ h p hp r hr, fun h p hp r hr ↦ h r ⟨p, hp, hr⟩⟩

/-- A record denotes a name exactly if its references are in order. -/
theorem isSome_denote_iff {r : Record} :
    (r.denote known).isSome ↔ r.Scoped (known.map Name.isSimple) := by
  rw [Scoped, List.length_map]
  -- both sides become conjunctions over the references, in the order in which they are read
  simp only [← NameRef.isSome_simple?_iff]
  cases r with
  | qualified q n =>
    simp [denote, simpleRefs, anyRefs, Option.isSome_bind, any_const, NameRef.isSome_path?_iff,
      and_comm]
  | targetSigned u t result params | signed u result params =>
    rw [anyRefs, List.forall_mem_cons, ← isSome_mapM_denote_iff, ← NameRef.isSome_path?_iff]
    simp [denote, simpleRefs, Option.isSome_bind, any_const, and_assoc]
  | _ => simp [denote, simpleRefs, anyRefs, Option.isSome_bind, any_const, isSome_mapM_iff]

theorem isSome_denoteAll_iff {records : List Record} :
    (denoteAll known records).isSome ↔ AllScoped (known.map Name.isSimple) records := by
  induction records generalizing known with
  | nil => simp [denoteAll, AllScoped]
  | cons r records ih =>
    rw [denoteAll, AllScoped, ← isSome_denote_iff]
    cases h : r.denote known with
    | none => simp
    | some n =>
      have hkinds := @ih (known ++ [n])
      rw [List.map_append, List.map_singleton, isSimple_of_denote h] at hkinds
      simpa using hkinds

/-- Names entry by entry: each is what its record denotes, given the names in front of it. -/
theorem denoteAll_eq_some {records : List Record} {names : List Name}
    (h : denoteAll known records = some names) :
    known <+: names ∧ names.length = known.length + records.length ∧
      ∀ (i : Nat) (hi : i < records.length),
        records[i].denote (names.take (known.length + i)) = names[known.length + i]? := by
  -- the names known before grow with each record, so the place of a record is counted from them
  induction records generalizing known with
  | nil =>
    obtain rfl : known = names := Option.some_inj.mp h
    simp
  | cons r records ih =>
    obtain ⟨n, hn, hrest⟩ := Option.bind_eq_some_iff.mp h
    obtain ⟨hpre, hlen, hentry⟩ := ih hrest
    rw [List.length_append, List.length_singleton] at hlen hentry
    have hknown : known <+: names := (List.prefix_append known [n]).trans hpre
    refine ⟨hknown, by rw [hlen, List.length_cons]; omega, fun i hi ↦ ?_⟩
    cases i with
    | zero =>
      obtain ⟨rest, rfl⟩ := hpre
      simpa using hn
    | succ i =>
      have hi := hentry i (Nat.lt_of_succ_lt_succ hi)
      rwa [show known.length + 1 + i = known.length + (i + 1) by omega] at hi

/-- Each record denotes its entry, by names in front of it. -/
theorem exists_denote_of_denoteAll {records : List Record} {names : List Name}
    (h : denoteAll [] records = some names) {i : Nat} {r : Record} (hr : records[i]? = some r) :
    ∃ n, names[i]? = some n ∧ r.denote (names.take i) = some n := by
  obtain ⟨-, hlen, hentries⟩ := denoteAll_eq_some h
  obtain ⟨hi, rfl⟩ := List.getElem?_eq_some_iff.mp hr
  rw [List.length_nil, Nat.zero_add] at hlen
  have hentry := hentries i hi
  rw [List.length_nil, Nat.zero_add, List.getElem?_eq_getElem (hlen ▸ hi)] at hentry
  exact ⟨_, List.getElem?_eq_getElem (hlen ▸ hi), hentry⟩

/-- Records in order denote as many names as there are records. -/
theorem exists_denoteAll {records : List Record} (h : AllScoped [] records) :
    ∃ names, denoteAll [] records = some names ∧ names.length = records.length := by
  obtain ⟨names, hnames⟩ := Option.isSome_iff_exists.mp ((@isSome_denoteAll_iff [] records).mpr h)
  have hlen := (denoteAll_eq_some hnames).2.1
  rw [List.length_nil, Nat.zero_add] at hlen
  exact ⟨names, hnames, hlen⟩

end Record

end TreePickle
