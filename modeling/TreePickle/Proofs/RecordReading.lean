import TreePickle.Pickle.NameRecord
import TreePickle.Proofs.Record
import TreePickle.Proofs.Repetition

/-!
# What is read as a name record

A payload is read without regard to its length. What it is read from can therefore be described
only where the reading happens to end at the announced place, and it is enough to know that much,
since the place is compared afterwards: `Decode.ReadsUpTo`. Within these limits a payload of a given
tag is read exactly from the strings of the records with that tag.

## References

A number that is read as a reference is compared with the next number that the table will give
out, and that number starts again from zero in a table of `2 ^ 32` entries. `NameTable.known` are
the entries in front of it, which are all of them in a smaller table. Following a reference is then
the same as following it in the list of known names, be it to any name, to a path, or to a simple
name: `Pickle.reads_nameRef_bind` says so once, with the way of looking up as a parameter.

## Payloads

There is a lemma for each way in which a payload is put together, and `Pickle.readsUpTo_payload`
collects them. `Pickle.payload_of_fields` is what they share: a record of a tag is given by its
fields, its spelling is the product of theirs, and it denotes what is computed from what they
denote. Two kinds of payload go on up to the announced end, texts and lists; that is where
`ReadsUpTo` is needed and `Reads` would not do.

## Records

A record is accepted if it is spelled by a record that denotes a name, `Pickle.reads_nameRecord`.
The limits on its end, that of the section and that of all addresses, are in the relation because
they are compared with before the payload is read.
-/

namespace TreePickle

open Base128

namespace Decode

variable {ε α β ι κ : Type} {limit stop : Nat}

/-! ## Up to an address -/

/-- What `x` accepts where it ends at `stop`. -/
def ReadsUpTo (limit stop : Nat) (x : Decode ε α) (T : Nat → α → List UInt8 → Prop) : Prop :=
  ∃ S, Reads limit x S ∧ ∀ a v bs, a + bs.length = stop → (S a v bs ↔ T a v bs)

variable {S T : Nat → α → List UInt8 → Prop} {x : Decode ε α}

theorem Reads.upTo (h : Reads limit x S) : ReadsUpTo limit stop x S := ⟨S, h, fun _ _ _ _ ↦ Iff.rfl⟩

theorem Reads.itemsUpTo {item : Decode ε α} {L : ι → Language UInt8} {d : ι → Option α}
    (h : ∀ limit, Reads limit item (Denoted L d)) (hL : ∀ i, [] ∉ L i) :
    ReadsUpTo limit stop (Decode.itemsUntil stop item)
      (Denoted (fun is : List ι ↦ (is.map L).prod) fun is ↦ is.mapM d) :=
  ⟨_, Reads.itemsUntil h fun _ _ ⟨i, hi, _⟩ ↦ hL i hi, fun _ _ _ hstop ↦ items_denoted_iff hL hstop⟩

/-- One action behind another, with references of their own. -/
theorem Reads.denoted_bind {L : ι → Language UInt8} {M : κ → Language UInt8} {d : ι → Option α}
    {e : α → κ → Option β} {f : α → Decode ε β} (hx : Reads limit x (Denoted L d))
    (hf : ∀ u, ReadsUpTo limit stop (f u) (Denoted M (e u))) :
    ReadsUpTo limit stop (x >>= f)
      (Denoted (fun i : ι × κ ↦ L i.1 * M i.2) fun i ↦ d i.1 >>= fun u ↦ e u i.2) := by
  choose U hU hUT using hf
  refine ⟨_, hx.bind hU, fun a w bs hstop ↦ ?_⟩
  constructor
  · rintro ⟨u, bs₁, bs₂, ⟨i, hi, hu⟩, hw, rfl⟩
    rw [List.length_append, ← Nat.add_assoc] at hstop
    obtain ⟨k, hk, hw⟩ := (hUT u _ w bs₂ hstop).mp hw
    exact ⟨(i, k), Language.append_mem_mul hi hk, Option.bind_eq_some_iff.mpr ⟨u, hu, hw⟩⟩
  · rintro ⟨⟨i, k⟩, hik, hw⟩
    obtain ⟨bs₁, hi, bs₂, hk, rfl⟩ := Language.mem_mul.mp hik
    obtain ⟨u, hu, hw⟩ := Option.bind_eq_some_iff.mp hw
    rw [List.length_append, ← Nat.add_assoc] at hstop
    exact ⟨u, bs₁, bs₂, ⟨i, hi, hu⟩, (hUT u _ w bs₂ hstop).mpr ⟨k, hk, hw⟩, rfl⟩

theorem ReadsUpTo.denoted_bind_pure {L : ι → Language UInt8} {d : ι → Option α}
    (h : ReadsUpTo limit stop x (Denoted L d)) (f : α → β) :
    ReadsUpTo limit stop (do return f (← x)) (Denoted L fun i ↦ do return f (← d i)) := by
  obtain ⟨S, hS, hST⟩ := h
  refine ⟨_, hS.bind_pure f, fun a w bs hstop ↦ ?_⟩
  constructor
  · rintro ⟨v, hv, rfl⟩
    obtain ⟨i, hi, hd⟩ := (hST a v bs hstop).mp hv
    exact ⟨i, hi, Option.bind_eq_some_iff.mpr ⟨v, hd, rfl⟩⟩
  · rintro ⟨i, hi, hd⟩
    obtain ⟨v, hv, ⟨⟩⟩ := Option.bind_eq_some_iff.mp hd
    exact ⟨v, (hST a v bs hstop).mpr ⟨i, hi, hv⟩, rfl⟩

/-- The check behind an action turns what it accepts up to `stop` into what it accepts. -/
theorem ReadsUpTo.endingAt {e : Nat → ε} (h : ReadsUpTo limit stop x T) :
    Reads limit (do
      let v ← x
      let reached ← Decode.position
      if reached ≠ stop then MonadExcept.throw (e reached)
      return v) fun a v bs ↦ T a v bs ∧ a + bs.length = stop := by
  obtain ⟨S, hS, hST⟩ := h
  exact hS.endingAt.congr fun a v bs _ ↦ and_congr_left fun hstop ↦ hST a v bs hstop

end Decode

/-! ## References -/

namespace NameTable

/-- The entries that references can be to. -/
def known (t : NameTable) : List Name := t.entries.toList.take t.nextRef.index

theorem known_getElem?_eq_some_iff {t : NameTable} {r : NameRef} {n : Name} :
    t.known[r.index]? = some n ↔ r.index < t.nextRef.index ∧ t.entries[r.index]? = some n := by
  rw [known, List.getElem?_take, ← Array.getElem?_toList]
  by_cases h : r.index < t.nextRef.index <;> simp [h]

theorem nextRef_index_le (t : NameTable) : t.nextRef.index ≤ t.size := by
  rw [nextRef, NameRef.index, UInt32.toNat_ofNat']
  exact Nat.mod_le _ _

theorem nextRef_index_eq {t : NameTable} (h : t.size < 2 ^ 32) : t.nextRef.index = t.size :=
  UInt32.toNat_ofNat_of_lt' h

theorem known_eq {t : NameTable} (h : t.size < 2 ^ 32) : t.known = t.entries.toList := by
  rw [known, nextRef_index_eq h, size, ← Array.length_toList, List.take_length]

theorem lookup_eq_ok_iff {t : NameTable} {r : NameRef} {n : Name} :
    t.lookup r = .ok n ↔ t.entries[r.index]? = some n := by
  rw [lookup]
  cases t.entries[r.index]? <;> simp

theorem lookupSimple_eq {t : NameTable} {r : NameRef} :
    t.lookupSimple r = match t.entries[r.index]? with
      | some (.simple name) => .ok name
      | some (.qualified path) => .error (.notSimple r path)
      | none => .error (.noEntry r t.size) := by
  rw [lookupSimple, lookup]
  rcases t.entries[r.index]? with _ | _ | _ <;> rfl

theorem lookupSimple_eq_ok_iff {t : NameTable} {r : NameRef} {n : SimpleName} :
    t.lookupSimple r = .ok n ↔ t.entries[r.index]? = some (.simple n) := by
  rw [lookupSimple_eq]
  rcases t.entries[r.index]? with _ | _ | _ <;> simp

theorem lookupQualified_eq_ok_iff {t : NameTable} {r : NameRef} {q : QualifiedName} :
    t.lookupQualified r = .ok q ↔ t.entries[r.index]?.map Name.toQualified = some q := by
  rw [lookupQualified]
  simp only [Option.map_eq_some_iff, ← lookup_eq_ok_iff]
  cases t.lookup r <;> simp [bind, Except.bind, pure, Except.pure]

end NameTable

namespace Pickle

open Decode

variable {limit stop : Nat} {table : NameTable}

theorem reads_lift {α : Type} {x : Decode TreePickle.Fault α} {S : Nat → α → List UInt8 → Prop}
    (h : Reads limit x S) : Reads limit (lift x) S := h.mapError _

theorem reads_liftName {α : Type} (x : Except NameTable.Fault α) :
    Reads limit (liftName x) fun _ v bs ↦ x = .ok v ∧ bs = [] := by
  refine (Reads.ofExcept _).congr fun _ v bs _ ↦ and_congr_left fun _ ↦ ?_
  cases x <;> simp [Except.mapError]

theorem reads_checkRef (start : Nat) (r : NameRef) :
    Reads limit (checkRef table start r) fun _ _ bs ↦ r.index < table.nextRef.index ∧ bs = [] := by
  refine (Reads.ite (fun _ ↦ Reads.pure ()) fun _ ↦ Reads.throw _).congr fun _ _ bs _ ↦ ?_
  have hindex : r.number < table.nextRef.number ↔ r.index < table.nextRef.index :=
    UInt32.lt_iff_toNat_lt
  by_cases h : r.number < table.nextRef.number <;> simp [← hindex, h]

theorem reads_nameRef : Reads limit (nameRef table) fun _ r bs ↦
    bs ∈ r.spelling ∧ r.index < table.nextRef.index := by
  refine (Reads.position_bind fun start ↦ (reads_lift .nat).bind fun n ↦
    (reads_checkRef start ⟨n⟩).bind_pure fun _ ↦ NameRef.mk n).congr fun _ r bs _ ↦ ?_
  constructor
  · rintro ⟨n, bs, _, hn, ⟨-, ⟨hlt, rfl⟩, rfl⟩, rfl⟩
    rw [List.append_nil]
    exact ⟨hn, hlt⟩
  · rintro ⟨hn, hlt⟩
    exact ⟨r.number, bs, [], hn, ⟨(), ⟨hlt, rfl⟩, rfl⟩, (List.append_nil bs).symm⟩

/-- A reference is read and followed. -/
theorem reads_nameRef_bind {α : Type} {look : NameRef → Except NameTable.Fault α}
    {d : NameRef → Option α} {f : Name → Option α} (hd : ∀ r, d r = table.known[r.index]? >>= f)
    (h : ∀ r v, look r = .ok v ↔ ∃ n, table.entries[r.index]? = some n ∧ f n = some v) :
    Reads limit (nameRef table >>= fun r ↦ liftName (look r)) (Denoted NameRef.spelling d) := by
  refine (reads_nameRef.bind fun r ↦ reads_liftName (look r)).congr fun _ v bs _ ↦ ?_
  have hiff (r : NameRef) :
      d r = some v ↔ r.index < table.nextRef.index ∧ look r = .ok v := by
    rw [hd, h, Option.bind_eq_bind, Option.bind_eq_some_iff]
    simp only [NameTable.known_getElem?_eq_some_iff, and_assoc, exists_and_left]
  constructor
  · rintro ⟨r, bs, _, ⟨hr, hlt⟩, ⟨hv, rfl⟩, rfl⟩
    exact ⟨r, by rwa [List.append_nil], (hiff r).mpr ⟨hlt, hv⟩⟩
  · rintro ⟨r, hr, hv⟩
    obtain ⟨hlt, hv⟩ := (hiff r).mp hv
    exact ⟨r, bs, [], ⟨hr, hlt⟩, ⟨hv, rfl⟩, (List.append_nil bs).symm⟩

theorem reads_name : Reads limit (do liftName (table.lookup (← nameRef table)))
    (Denoted NameRef.spelling fun r ↦ table.known[r.index]?) := by
  refine reads_nameRef_bind (f := some) (fun r ↦ ?_) fun r n ↦ ?_
  · cases table.known[r.index]? <;> rfl
  · rw [NameTable.lookup_eq_ok_iff]
    simp

theorem reads_qualifiedName : Reads limit (qualifiedName table)
    (Denoted NameRef.spelling (NameRef.path? table.known)) := by
  refine reads_nameRef_bind (f := fun n ↦ some n.toQualified) (fun r ↦ ?_) fun r q ↦ ?_
  · rw [NameRef.path?, Option.map_eq_bind]
    rfl
  · rw [NameTable.lookupQualified_eq_ok_iff]
    simp

theorem reads_simpleName : Reads limit (simpleName table)
    (Denoted NameRef.spelling (NameRef.simple? table.known)) := by
  refine reads_nameRef_bind (f := Name.toSimple?) (fun r ↦ rfl) fun r n ↦ ?_
  rw [NameTable.lookupSimple_eq_ok_iff]
  rcases table.entries[r.index]? with _ | _ | _ <;> simp [Name.toSimple?]

/-! ## Parameters -/

/-- What follows a number is decided by the parameter that it stands for. -/
private theorem reads_ofCode (start : Nat) (v : Int32) :
    Reads limit (if v.toInt < 0 then return .typeLen (UInt64.ofNat v.toInt.natAbs) else do
      let r := NameRef.mk (UInt32.ofNat v.toInt.toNat)
      checkRef table start r
      let type ← liftName (table.lookupQualified r)
      return .term (type.mapLast SimpleName.toTypeName)) fun _ p bs ↦
        (RecordParam.ofCode v).denote table.known = some p ∧ bs = [] := by
  refine (Reads.ite (fun _ ↦ Reads.pure _) fun _ ↦ (reads_checkRef start _).bind fun _ ↦
    (reads_liftName _).bind_pure _).congr fun _ p bs _ ↦ ?_
  by_cases hneg : v.toInt < 0
  · rw [if_pos hneg, RecordParam.ofCode, if_pos hneg, RecordParam.denote, Option.some_inj, eq_comm]
  · rw [if_neg hneg, RecordParam.ofCode, if_neg hneg, RecordParam.denote]
    constructor
    · rintro ⟨_, _, _, ⟨hlt, rfl⟩, ⟨type, ⟨hlook, rfl⟩, rfl⟩, rfl⟩
      rw [NameTable.lookupQualified_eq_ok_iff] at hlook
      obtain ⟨n, hn, rfl⟩ := Option.map_eq_some_iff.mp hlook
      have hknown := NameTable.known_getElem?_eq_some_iff.mpr ⟨hlt, hn⟩
      refine ⟨?_, rfl⟩
      rw [NameRef.path?, hknown]
      rfl
    · rintro ⟨hd, rfl⟩
      obtain ⟨path, hpath, ⟨⟩⟩ := Option.bind_eq_some_iff.mp hd
      obtain ⟨n, hn, rfl⟩ := Option.map_eq_some_iff.mp hpath
      obtain ⟨hlt, hentry⟩ := NameTable.known_getElem?_eq_some_iff.mp hn
      refine ⟨(), [], [], ⟨hlt, rfl⟩, ⟨n.toQualified, ⟨?_, rfl⟩, rfl⟩, rfl⟩
      rw [NameTable.lookupQualified_eq_ok_iff, hentry, Option.map_some]

theorem reads_paramSig : Reads limit (paramSig table)
    (Denoted RecordParam.spelling (RecordParam.denote table.known)) := by
  refine (Reads.position_bind fun start ↦ (reads_lift .int).bind fun v ↦
    reads_ofCode start v).congr fun _ p bs _ ↦ ?_
  constructor
  · rintro ⟨v, bs, _, hv, ⟨hd, rfl⟩, rfl⟩
    refine ⟨.ofCode v, ⟨RecordParam.valid_ofCode v, ?_⟩, hd⟩
    rwa [RecordParam.code_ofCode, List.append_nil]
  · rintro ⟨q, ⟨hvalid, hbs⟩, hd⟩
    refine ⟨Int32.ofInt q.code, bs, [], ?_, ⟨?_, rfl⟩, (List.append_nil bs).symm⟩
    · rwa [hvalid.toInt_ofInt_code]
    · rwa [RecordParam.ofCode_ofInt_code hvalid]

/-! ## Payloads -/

/-- The strings of the records of a tag, and the names that these denote. -/
def Payload (known : List Name) (tag : NameTag) : Nat → Name → List UInt8 → Prop := fun _ n bs ↦
  ∃ r : Record, r.tag = tag ∧ bs ∈ r.payload ∧ r.denote known = some n

/-- The records of a tag are given by their fields. -/
private theorem payload_of_fields {ι : Type} {x : Decode Fault Name} {L : ι → Language UInt8}
    {d : ι → Option Name} {known : List Name} {tag : NameTag}
    (h : ReadsUpTo limit stop x (Denoted L d)) (fields : ι → Record)
    (hL : ∀ i, (fields i).payload = L i) (hd : ∀ i, (fields i).denote known = d i)
    (hfields : ∀ r, r.tag = tag ↔ ∃ i, r = fields i := by
      intro r
      cases r <;> simp [Record.tag]) :
    ReadsUpTo limit stop x (Payload known tag) := by
  obtain ⟨S, hS, hST⟩ := h
  refine ⟨S, hS, fun a n bs hstop ↦ (hST a n bs hstop).trans ?_⟩
  constructor
  · rintro ⟨i, hi, hn⟩
    exact ⟨fields i, (hfields _).mpr ⟨i, rfl⟩, hL i ▸ hi, (hd i).trans hn⟩
  · rintro ⟨r, hr, hbs, hn⟩
    obtain ⟨i, rfl⟩ := (hfields r).mp hr
    exact ⟨i, hL i ▸ hbs, (hd i).symm.trans hn⟩

section

variable (limit stop : Nat) (table : NameTable)

private theorem readsUpTo_simpleName : ReadsUpTo limit stop (simpleName table)
    (Denoted NameRef.spelling (NameRef.simple? table.known)) := reads_simpleName.upTo

private theorem reads_number :
    Reads limit (lift longNat) (Denoted (fun n : UInt64 ↦ natural n.toNat) some) :=
  (reads_lift .longNat).congr fun _ n bs _ ↦ by simp [Denoted]

private theorem readsUpTo_number :
    ReadsUpTo limit stop (lift longNat) (Denoted (fun n : UInt64 ↦ natural n.toNat) some) :=
  (reads_number limit).upTo

private theorem readsUpTo_bases : ReadsUpTo limit stop (itemsUntil stop (simpleName table))
    (Denoted (fun rs : List NameRef ↦ (rs.map NameRef.spelling).prod)
      fun rs ↦ rs.mapM (NameRef.simple? table.known)) :=
  Reads.itemsUpTo (fun _ ↦ reads_simpleName) NameRef.nil_notMem_spelling

private theorem readsUpTo_params : ReadsUpTo limit stop (itemsUntil stop (paramSig table))
    (Denoted (fun ps : List RecordParam ↦ (ps.map RecordParam.spelling).prod)
      fun ps ↦ ps.mapM (RecordParam.denote table.known)) :=
  Reads.itemsUpTo (fun _ ↦ reads_paramSig) RecordParam.nil_notMem_spelling

/-- A text takes all bytes up to the end. -/
private theorem readsUpTo_utf8 :
    ReadsUpTo limit stop (payload table stop .utf8) (Payload table.known .utf8) := by
  have h : ReadsUpTo limit stop (payload table stop .utf8)
      (Denoted (fun s ↦ {Text.utf8 s}) fun s ↦ some (.simple (.term s))) := by
    refine ⟨_, Reads.position_bind fun p ↦ (reads_lift (.text _)).bind_pure fun s ↦
      Name.simple (.term s), fun a n bs hstop ↦ ?_⟩
    have hsize : bs.length = Address.distance a stop := by
      rw [Address.distance]
      omega
    constructor
    · rintro ⟨s, ⟨hs, -⟩, rfl⟩
      exact ⟨s, hs, rfl⟩
    · rintro ⟨s, hs, ⟨⟩⟩
      exact ⟨s, ⟨hs, hsize⟩, rfl⟩
  exact payload_of_fields h Record.utf8 (fun _ ↦ rfl) fun _ ↦ rfl

private theorem readsUpTo_qualified :
    ReadsUpTo limit stop (payload table stop .qualified) (Payload table.known .qualified) := by
  have hqualifier : Reads limit (qualifiedName table) _ := reads_qualifiedName
  have h := hqualifier.denoted_bind fun q ↦
    (readsUpTo_simpleName limit stop table).denoted_bind_pure fun n ↦ Name.qualified (q.select n)
  exact payload_of_fields h (fun i ↦ .qualified i.1 i.2) (fun _ ↦ rfl) fun _ ↦ rfl

/-- Any number of names may follow, and the first of them is the one that counts. -/
private theorem readsUpTo_unique :
    ReadsUpTo limit stop (payload table stop .unique) (Payload table.known .unique) := by
  have hseparator : Reads limit (simpleName table) _ := reads_simpleName
  have h := hseparator.denoted_bind fun s ↦ (reads_number limit).denoted_bind fun number ↦
    (readsUpTo_bases limit stop table).denoted_bind_pure fun bases ↦
      Name.simple (.unique s.text (bases.headD .empty) number)
  exact payload_of_fields h (fun i ↦ .unique i.1 i.2.1 i.2.2) (fun _ ↦ rfl) fun _ ↦ rfl

private theorem readsUpTo_defaultGetter :
    ReadsUpTo limit stop (payload table stop .defaultGetter)
      (Payload table.known .defaultGetter) := by
  have hunderlying : Reads limit (simpleName table) _ := reads_simpleName
  have h := hunderlying.denoted_bind fun u ↦
    (readsUpTo_number limit stop).denoted_bind_pure fun index ↦ Name.simple (.defaultGetter u index)
  exact payload_of_fields h (fun i ↦ .defaultGetter i.1 i.2) (fun _ ↦ rfl) fun _ ↦ rfl

/-- The class of an object, or of the last name of a path. -/
private theorem payload_objectClass : payload table stop .objectClass =
    (do
      let n ← (do liftName (table.lookup (← nameRef table)) : Decode Fault Name)
      return match n with
        | .simple n => .simple n.withObjectSuffix
        | .qualified path => .qualified (path.mapLast SimpleName.withObjectSuffix)) := by
  rw [payload, bind_assoc]
  refine bind_congr fun r ↦ bind_congr fun n ↦ ?_
  cases n <;> rfl

private theorem readsUpTo_objectClass :
    ReadsUpTo limit stop (payload table stop .objectClass) (Payload table.known .objectClass) := by
  rw [payload_objectClass]
  have hname : ReadsUpTo limit stop (do liftName (table.lookup (← nameRef table))) _ :=
    reads_name.upTo
  refine payload_of_fields (hname.denoted_bind_pure _) Record.objectClass (fun _ ↦ rfl) fun u ↦ ?_
  rw [Record.denote, Option.map_eq_bind]
  rfl

private theorem readsUpTo_targetSigned :
    ReadsUpTo limit stop (payload table stop .targetSigned)
      (Payload table.known .targetSigned) := by
  have hname : Reads limit (simpleName table) _ := reads_simpleName
  have hresult : Reads limit (qualifiedName table) _ := reads_qualifiedName
  have h := hname.denoted_bind fun u ↦ hname.denoted_bind fun t ↦
    hresult.denoted_bind fun type ↦ (readsUpTo_params limit stop table).denoted_bind_pure
      fun params ↦ SimpleName.signed u (.ofParams params (type.mapLast .toTypeName)) t
  refine payload_of_fields (h.denoted_bind_pure Name.simple)
    (fun i ↦ .targetSigned i.1 i.2.1 i.2.2.1 i.2.2.2) (fun _ ↦ rfl) fun _ ↦ ?_
  simp [Record.denote, Option.bind_assoc]

/-- Without a target, a signed name is its own target. -/
private theorem readsUpTo_signed :
    ReadsUpTo limit stop (payload table stop .signed) (Payload table.known .signed) := by
  have hname : Reads limit (simpleName table) _ := reads_simpleName
  have hresult : Reads limit (qualifiedName table) _ := reads_qualifiedName
  have h := hname.denoted_bind fun u ↦ hresult.denoted_bind fun type ↦
    (readsUpTo_params limit stop table).denoted_bind_pure fun params ↦
      SimpleName.signed u (.ofParams params (type.mapLast .toTypeName)) u
  refine payload_of_fields (h.denoted_bind_pure Name.simple) (fun i ↦ .signed i.1 i.2.1 i.2.2)
    (fun _ ↦ rfl) fun _ ↦ ?_
  simp [Record.denote, Option.bind_assoc]

/-- **Payloads.** A payload is read from the records of its tag, if it ends where it should. -/
theorem readsUpTo_payload (tag : NameTag) :
    ReadsUpTo limit stop (payload table stop tag) (Payload table.known tag) := by
  have houter : Reads limit (simpleName table) _ := reads_simpleName
  have hname := readsUpTo_simpleName limit stop table
  -- the payloads of these tags look alike, and the name keeps the tag
  have hexpanded (tag : NameTag) := houter.denoted_bind fun o ↦
    hname.denoted_bind_pure fun n ↦ Name.simple (.expanded tag o n)
  have hprefixed (tag : NameTag) := hname.denoted_bind_pure fun u ↦ Name.simple (.prefixed tag u)
  have hsuffixed (tag : NameTag) := hname.denoted_bind_pure fun u ↦ Name.simple (.suffixed tag u)
  cases tag with
  | utf8 => exact readsUpTo_utf8 limit stop table
  | qualified => exact readsUpTo_qualified limit stop table
  | expanded =>
    exact payload_of_fields (hexpanded .expanded) (fun i ↦ .expanded i.1 i.2) (fun _ ↦ rfl)
      fun _ ↦ rfl
  | expandPrefix =>
    exact payload_of_fields (hexpanded .expandPrefix) (fun i ↦ .expandPrefix i.1 i.2)
      (fun _ ↦ rfl) fun _ ↦ rfl
  | unique => exact readsUpTo_unique limit stop table
  | defaultGetter => exact readsUpTo_defaultGetter limit stop table
  | superAccessor =>
    exact payload_of_fields (hprefixed .superAccessor) .superAccessor (fun _ ↦ rfl) fun _ ↦ rfl
  | inlineAccessor =>
    exact payload_of_fields (hprefixed .inlineAccessor) .inlineAccessor (fun _ ↦ rfl) fun _ ↦ rfl
  | bodyRetainer =>
    exact payload_of_fields (hsuffixed .bodyRetainer) .bodyRetainer (fun _ ↦ rfl) fun _ ↦ rfl
  | objectClass => exact readsUpTo_objectClass limit stop table
  | targetSigned => exact readsUpTo_targetSigned limit stop table
  | signed => exact readsUpTo_signed limit stop table

end

/-! ## Records -/

/-- A record that denotes the name and ends at the address `last` at the latest. -/
def RecordSpells (last : Nat) (known : List Name) : Nat → Name → List UInt8 → Prop := fun a n bs ↦
  (∃ r : Record, bs ∈ r.spelling ∧ r.denote known = some n) ∧ a + bs.length ≤ last ∧
    a + bs.length < Address.bound

/-- The same behind the tag. -/
private def FrameSpells (last : Nat) (known : List Name) (b : UInt8) :
    Nat → Name → List UInt8 → Prop := fun a n bs ↦
  (∃ r : Record, r.tag.toByte = b ∧ bs ∈ framed r.payload ∧ r.denote known = some n) ∧
    a + bs.length ≤ last ∧ a + bs.length < Address.bound

theorem reads_nameRecord (last : Nat) :
    Reads limit (nameRecord last table) (RecordSpells last table.known) := by
  refine (Reads.position_bind fun start ↦ (reads_lift .byte).bind
    (U := FrameSpells last table.known) fun b ↦ ?_).congr fun a n bs _ ↦ ?_
  · cases htag : NameTag.ofByte? b with
    | none =>
      refine (Reads.throw _).congr fun a n bs _ ↦ iff_of_false not_false ?_
      rintro ⟨⟨r, hr, -⟩, -⟩
      simp [NameTag.ofByte?_eq_some_iff.mpr hr] at htag
    | some tag =>
      -- the payload is compared with its announced end, so only that case has to be known
      refine ((reads_lift .frameEnd).bind fun stop ↦ Reads.position_bind fun p ↦
        Reads.guard fun _ ↦ (readsUpTo_payload limit stop table tag).endingAt).congr
          fun a n bs _ ↦ ?_
      obtain rfl := NameTag.ofByte?_eq_some_iff.mp htag
      constructor
      · rintro ⟨stop, size, payload, ⟨count, hsize, rfl, hlt⟩,
          ⟨hframe, ⟨r, hr, hpayload, hn⟩, hstop⟩, rfl⟩
        obtain rfl : payload.length = count := by omega
        rw [not_or, Nat.not_lt, Nat.not_lt] at hframe
        rw [FrameSpells, List.length_append, ← Nat.add_assoc]
        exact ⟨⟨r, hr ▸ rfl, ⟨payload, hpayload, size, hsize, rfl⟩, hn⟩, hframe.2, hlt⟩
      · rintro ⟨⟨r, hr, ⟨payload, hpayload, size, hsize, rfl⟩, hn⟩, hlast, hlt⟩
        rw [List.length_append, ← Nat.add_assoc] at hlast hlt
        have hbounds : ¬(a + size.length + payload.length < a + size.length ∨
            last < a + size.length + payload.length) := by omega
        exact ⟨_, size, payload, ⟨_, hsize, rfl, hlt⟩, ⟨hbounds,
          ⟨r, NameTag.toByte_injective hr, hpayload, hn⟩, rfl⟩, rfl⟩
  · constructor
    · rintro ⟨b, _, bs, rfl, ⟨⟨r, rfl, hbs, hn⟩, hlast, hlt⟩, rfl⟩
      rw [RecordSpells, List.length_append, ← Nat.add_assoc]
      exact ⟨⟨r, Language.append_mem_mul rfl hbs, hn⟩, hlast, hlt⟩
    · rintro ⟨⟨r, hr, hn⟩, hlast, hlt⟩
      obtain ⟨_, rfl, bs, hbs, rfl⟩ := Language.mem_mul.mp hr
      rw [List.length_append, ← Nat.add_assoc] at hlast hlt
      exact ⟨_, _, bs, rfl, ⟨⟨r, rfl, hbs, hn⟩, hlast, hlt⟩, rfl⟩

end Pickle

end TreePickle
