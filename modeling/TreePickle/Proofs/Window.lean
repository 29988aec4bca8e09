import TreePickle.Proofs.Outcome
import TreePickle.Reader.Session

/-!
# Ranges as windows

A reader of a range sees the range and nothing of what follows it. Reading the same operations in
the whole, from the same address on, gives the same answers as long as the reader of the whole stays
inside of the range. The first time that it does not, the reader of the range reports that its bytes
have ended: `Reader.follows_sub`.

## The comparison

It is one of two cursors at the same address, one of which sees more bytes than the other. An
operation can come out in three ways, the cases of `Decode.Mirror`: both give the same value and
stop at the same address, both fail with the same fault and at the same address, or the bytes of the
range have ended and the other cursor has left the range, with whatever outcome. `Decode.Local` says
that an action has only such outcomes.

## Sequencing

`Local` is closed under sequencing, but not for free: behind an action that has left the range, the
one cursor has stopped and the other goes on. It can only go forward from there, and so nothing that
it reads can bring it back into the range. That is why `Local` asks for `Cursor.Reaches` as well.

## Lists of operations

`Follows` compares two lists of answers and ends with the first answer from outside of the range.
One operation preserves what the next one needs, the same address and the same bytes with some more
behind them, and `Reader.follows_of_extend` is the induction on the list. That a range of a range is
a range of the whole is a matter of bytes alone, `Reader.part_part`.
-/

namespace TreePickle

/-- The same place in a range that goes on for some more bytes. -/
def Cursor.extend (c : Cursor) (rest : List UInt8) : Cursor := ⟨c.position, c.ahead ++ rest⟩

namespace Decode

variable {ε α β σ : Type}

/-! ## Outcomes in a range and in the whole -/

/-- An outcome in a range that ends at `stop`, and one in the range followed by `rest`. -/
inductive Mirror (stop : Nat) (rest : List UInt8) :
    EStateM.Result Fault Cursor α → EStateM.Result Fault Cursor α → Prop
  | ok (v : α) (c : Cursor) : Mirror stop rest (.ok v c) (.ok v (c.extend rest))
  | error (e : Fault) (c : Cursor) : Mirror stop rest (.error e c) (.error e (c.extend rest))
  /-- The range was too short, and more than the range was read. -/
  | beyond {a : Nat} {c : Cursor} {r : EStateM.Result Fault Cursor α}
      (h : stop < (reached r).position) : Mirror stop rest (.error (.unexpectedEnd a) c) r

/-- An action that depends on a range only as far as it reads in it. -/
structure Local (x : Decode Fault α) : Prop where
  reaches : ∀ c : Cursor, c.Reaches (reached (x c))
  mirror : ∀ (c : Cursor) (rest : List UInt8), Mirror c.stop rest (x c) (x (c.extend rest))

namespace Local

variable {x : Decode Fault α} {f : α → Decode Fault β}

/-! ### Sequencing -/

theorem pure (v : α) : Local (pure v) := ⟨fun c ↦ .refl c, fun c _ ↦ .ok v c⟩

theorem throw (e : Fault) : Local (throw e : Decode Fault α) :=
  ⟨fun c ↦ .refl c, fun c _ ↦ .error e c⟩

theorem position : Local Decode.position := ⟨fun c ↦ .refl c, fun c _ ↦ .ok c.position c⟩

theorem ite {p : Prop} [Decidable p] {y : Decode Fault α} (hx : Local x) (hy : Local y) :
    Local (if p then x else y) := by
  by_cases hp : p
  · rwa [if_pos hp]
  · rwa [if_neg hp]

theorem bind (hx : Local x) (hf : ∀ v, Local (f v)) : Local (x >>= f) := by
  constructor
  · intro c
    have hxc := hx.reaches c
    change c.Reaches (reached (EStateM.bind x f c))
    unfold EStateM.bind
    generalize x c = r at hxc ⊢
    cases r with
    | ok v c₁ => exact hxc.trans ((hf v).reaches c₁)
    | error e c₁ => exact hxc
  · intro c rest
    have hstop := (hx.reaches c).stop_eq
    have hxc := hx.mirror c rest
    change Mirror c.stop rest (EStateM.bind x f c) (EStateM.bind x f (c.extend rest))
    unfold EStateM.bind
    generalize x c = r at hstop hxc ⊢
    generalize x (c.extend rest) = r' at hxc ⊢
    cases hxc with
    | ok v c₁ =>
      have hfc := (hf v).mirror c₁ rest
      rwa [← hstop]
    | error e c₁ => exact .error e c₁
    | beyond h =>
      -- the second action leaves the cursor where it is or moves it further away
      refine .beyond (h.trans_le ?_)
      cases r' with
      | ok v c₁ => exact ((hf v).reaches c₁).position_le
      | error e c₁ => exact Nat.le_refl _

theorem bind_pure (hx : Local x) (g : α → β) : Local (do return g (← x)) :=
  hx.bind fun v ↦ pure (g v)

theorem map (hx : Local x) (g : α → β) : Local (g <$> x) := by
  rw [map_eq_pure_bind]
  exact hx.bind_pure g

/-! ### Repetition -/

theorem rounds {stop : Nat} {step : σ → Decode Fault σ} (h : ∀ s, Local (step s)) (n : Nat)
    (s : σ) : Local (rounds stop step n s) := by
  induction n generalizing s with
  | zero => exact pure s
  | succ n ih => exact position.bind fun p ↦ ite ((h s).bind ih) (pure s)

theorem itemsUntil (hx : Local x) (stop : Nat) : Local (itemsUntil stop x) := by
  have hloop : Local (iterateUntil stop (fun items ↦ do return (← x) :: items) []) :=
    position.bind fun p ↦ rounds (fun items ↦ hx.bind_pure (· :: items)) _ []
  exact hloop.bind_pure List.reverse

/-! ### Bytes and texts -/

/-- Blocks that are there are read in the whole as well. -/
theorem of_takes {n : Nat} {S : Nat → α → List UInt8 → Prop} (h : Takes n x)
    (hreads : ∀ limit, Reads limit x S) : Local x := by
  refine ⟨h.reaches, fun c rest ↦ ?_⟩
  rcases h c with ⟨hn, v, hv⟩ | ⟨hn, he⟩
  · obtain ⟨bs, hbs, ha, hp⟩ := (hreads _ c _ v rfl).mp hv
    have hwhole : x (c.extend rest) = .ok v ((c.drop n).extend rest) := by
      refine (hreads _ _ _ v rfl).mpr ⟨bs, hbs, ?_, hp⟩
      rw [Cursor.extend, ha, List.append_assoc]
      rfl
    rw [hv, hwhole]
    exact .ok v _
  · rw [he]
    rcases h (c.extend rest) with ⟨-, v, hv⟩ | ⟨-, he'⟩
    · rw [hv]
      refine .beyond ?_
      change c.position + c.ahead.length < c.position + n
      omega
    · rw [he']
      exact .error _ c

theorem byte : Local Decode.byte := of_takes takes_byte fun _ ↦ Reads.byte

theorem bytes (n : Nat) : Local (Decode.bytes n) := of_takes (takes_bytes n) fun _ ↦ Reads.bytes n

theorem uuid : Local Decode.uuid := of_takes takes_uuid fun _ ↦ Reads.uuid

theorem text (n : Nat) : Local (Decode.text n) := by
  refine position.bind fun start ↦ (bytes n).bind fun bs ↦ ?_
  cases Text.ofUtf8? bs with
  | some s => exact pure s
  | none => exact throw _

/-! ### Numbers -/

open Base128

private theorem lt_position_numberFrom (k : Kind) (start p : Nat) (value? : Option Int) (b : UInt8)
    (l : List UInt8) : p < (reached (numberFrom k start p value? (b :: l))).position := by
  rw [numberFrom]
  split
  · exact Nat.lt_succ_self p
  · split
    · exact Nat.lt_succ_self p
    · exact (numberFrom_reaches k start (p + 1) _ l).position_le

private theorem mirror_numberFrom (k : Kind) (start p : Nat) (value? : Option Int)
    (l rest : List UInt8) : Mirror (p + l.length) rest (numberFrom k start p value? l)
      (numberFrom k start p value? (l ++ rest)) := by
  induction l generalizing p value? with
  | nil =>
    -- a number that goes on behind the range takes at least one byte there
    cases rest with
    | nil => exact .error _ ⟨p, []⟩
    | cons b rest => exact .beyond (lt_position_numberFrom k start p value? b rest)
  | cons b l ih =>
    rw [List.cons_append, numberFrom, numberFrom, List.length_cons, ← Nat.succ_add_eq_add_succ]
    split
    · exact .error _ ⟨p + 1, l⟩
    · split
      · exact .ok _ ⟨p + 1, l⟩
      · exact ih (p + 1) _

theorem number (k : Kind) : Local (Decode.number k) :=
  ⟨fun c ↦ numberFrom_reaches k _ _ none c.ahead,
    fun c rest ↦ mirror_numberFrom k _ _ none c.ahead rest⟩

theorem longNat : Local Decode.longNat := by
  rw [longNat_eq]
  exact (number .unsigned).bind_pure _

theorem longInt : Local Decode.longInt := by
  rw [longInt_eq]
  exact (number .signed).bind_pure _

theorem length : Local Decode.length := longNat.bind_pure _

theorem nat : Local Decode.nat :=
  position.bind fun _ ↦ longNat.bind fun _ ↦ ite (pure _) (throw _)

theorem int : Local Decode.int :=
  position.bind fun _ ↦ longInt.bind fun _ ↦ ite (pure _) (throw _)

theorem frameEnd : Local Decode.frameEnd := by
  refine position.bind fun start ↦ length.bind fun n ↦ position.bind fun p ↦ ?_
  cases Address.advance? p n with
  | some stop => exact pure stop
  | none => exact throw _

/-! ### Operations -/

theorem item (kind : ItemKind) : Local kind.decode := by
  cases kind with
  | byte => exact byte.map Item.byte
  | nat => exact nat.map Item.nat
  | int => exact int.map Item.int
  | longNat => exact longNat.map Item.longNat
  | longInt => exact longInt.map Item.longInt
  | length => exact length.map Item.length
  | frameEnd => exact frameEnd.map Item.frameEnd
  | uuid => exact uuid.map Item.uuid

theorem operation (op : Operation) : Local op.decode := by
  cases op with
  | item kind => exact (item kind).map Outcome.item
  | bytes count => exact (bytes count).map Outcome.bytes
  | text count => exact (text count).map Outcome.text
  | itemsUntil stop kind => exact ((item kind).itemsUntil stop).map Outcome.items

end Local

end Decode

/-! ## Answers in a range and in the whole -/

/-- The answers of a reader of a range that ends at `stop`, and those of a reader of the whole. -/
inductive Follows (stop : Nat) :
    List (Except Refusal Reply × Nat) → List (Except Refusal Reply × Nat) → Prop
  | nil : Follows stop [] []
  /-- Both give the same answer and stand at the same address of the range. -/
  | agree {answer : Except Refusal Reply × Nat}
      {answers answers' : List (Except Refusal Reply × Nat)} (h : answer.2 ≤ stop)
      (hr : Follows stop answers answers') :
      Follows stop (answer :: answers) (answer :: answers')
  /-- The bytes of the range have ended, and the reader of the whole has left the range. What
  follows is not compared. -/
  | beyond {a p : Nat} {answer : Except Refusal Reply × Nat}
      {answers answers' : List (Except Refusal Reply × Nat)} (h : stop < answer.2) :
      Follows stop ((.error (.fault (.unexpectedEnd a)), p) :: answers) (answer :: answers')

/-- A reader of the whole that never leaves the range is followed to the end. -/
theorem Follows.eq_of_forall_le {stop : Nat} {answers answers' : List (Except Refusal Reply × Nat)}
    (h : Follows stop answers answers') (hle : ∀ answer ∈ answers', answer.2 ≤ stop) :
    answers = answers' := by
  induction h with
  | nil => rfl
  | agree _ _ ih => rw [ih fun answer hanswer ↦ hle answer (List.mem_cons_of_mem _ hanswer)]
  | beyond hlt => exact absurd (hle _ List.mem_cons_self) (Nat.not_le.mpr hlt)

namespace Reader

variable {r t : Reader} {start stop : Nat}

/-- The answers to a list of operations, each with the address where the reader stands then. -/
def answers (r : Reader) (ops : List Operation) : List (Except Refusal Reply × Nat) :=
  (Session.ofReader r).run (ops.map .read)

theorem answers_cons (r : Reader) (op : Operation) (ops : List Operation) :
    r.answers (op :: ops) = match op.decode r.cursor with
      | .ok v c => (.ok (.outcome v), c.position) :: answers { r with cursor := c } ops
      | .error e c => (.error (.fault e), c.position) :: answers { r with cursor := c } ops := by
  have hanswer : (Session.ofReader r).answer (.read op) =
      (Session.ofReader r).readTop op.decode .fault .outcome := rfl
  rw [answers, List.map_cons, Session.run, hanswer, Session.readTop, Session.ofReader, run]
  cases op.decode r.cursor with
  | ok v c => rfl
  | error e c => rfl

/-- What one operation preserves: as long as the answers agree, the cursors stand at the same
address, and one of them sees the same bytes more than the other. -/
theorem follows_of_extend {rest : List UInt8} (ops : List Operation)
    (h : r.cursor = t.cursor.extend rest) :
    Follows t.cursor.stop (t.answers ops) (r.answers ops) := by
  induction ops generalizing r t with
  | nil => exact .nil
  | cons op ops ih =>
    have hlocal := Decode.Local.operation op
    have hreach := hlocal.reaches t.cursor
    have hmirror := hlocal.mirror t.cursor rest
    rw [answers_cons, answers_cons, h]
    generalize op.decode t.cursor = outcome at hreach hmirror ⊢
    generalize op.decode (t.cursor.extend rest) = outcome' at hmirror ⊢
    cases hmirror with
    | ok v c =>
      have hrest := @ih { r with cursor := c.extend rest } { t with cursor := c } rfl
      exact .agree hreach.position_le_stop (hreach.stop_eq ▸ hrest)
    | error e c =>
      have hrest := @ih { r with cursor := c.extend rest } { t with cursor := c } rfl
      exact .agree hreach.position_le_stop (hreach.stop_eq ▸ hrest)
    | beyond hbeyond =>
      cases outcome' with
      | ok v c' => exact .beyond hbeyond
      | error e c' => exact .beyond hbeyond

/-! ## Ranges of a reader -/

/-- The reader of a range, at its beginning. -/
def part (r : Reader) (start stop : Nat) : Reader :=
  let window := (r.window.drop (start - r.start)).take (stop - start)
  ⟨start, window, ⟨start, window⟩⟩

/-- A range can be cut out if it lies in the range of the reader. -/
theorem sub_eq_ok_iff : r.sub start stop = .ok t ↔
    (r.start ≤ start ∧ start ≤ stop ∧ stop ≤ r.stop) ∧ r.part start stop = t := by
  rw [sub, check, check]
  by_cases hstart : r.start ≤ start ∧ start ≤ r.stop
  · rw [if_pos hstart]
    by_cases hstop : r.start ≤ stop ∧ stop ≤ r.stop
    · rw [if_pos hstop]
      by_cases hle : stop < start
      · rw [if_pos hle]
        refine iff_of_false (fun h ↦ by cases h) fun h ↦ ?_
        omega
      · rw [if_neg hle]
        have hrange : r.start ≤ start ∧ start ≤ stop ∧ stop ≤ r.stop := by omega
        rw [and_iff_right hrange]
        change Except.ok (r.part start stop) = Except.ok t ↔ _
        rw [Except.ok.injEq]
    · rw [if_neg hstop]
      refine iff_of_false (fun h ↦ by cases h) fun h ↦ ?_
      omega
  · rw [if_neg hstart]
    refine iff_of_false (fun h ↦ by cases h) fun h ↦ ?_
    omega

theorem stop_part (hstart : r.start ≤ start) (hle : start ≤ stop) (hstop : stop ≤ r.stop) :
    (r.part start stop).stop = stop := by
  rw [Reader.stop] at hstop
  rw [Reader.stop, part, List.length_take, List.length_drop]
  dsimp only
  omega

/-- The cursor of a range, once it sees what follows the range as well. -/
theorem extend_cursor_part (r : Reader) (start stop : Nat) :
    (r.part start stop).cursor.extend ((r.window.drop (start - r.start)).drop (stop - start)) =
      ⟨start, r.window.drop (start - r.start)⟩ := by
  rw [part, Cursor.extend, List.take_append_drop]

theorem goTo_eq_ok {a : Nat} (hstart : r.start ≤ a) (hstop : a ≤ r.stop) :
    r.goTo a = .ok { r with cursor := ⟨a, r.window.drop (a - r.start)⟩ } := by
  have hcheck : r.check a = .ok () := if_pos ⟨hstart, hstop⟩
  rw [goTo, hcheck]
  rfl

/-- A range of a range is a range of the whole. -/
theorem part_part {start' stop' : Nat} (hr : r.start ≤ start) (hstart : start ≤ start')
    (hstop : stop' ≤ stop) : (r.part start stop).part start' stop' = r.part start' stop' := by
  have hdrop : start - r.start + (start' - start) = start' - r.start := by omega
  have htake : min (stop' - start') (stop - start - (start' - start)) = stop' - start' := by omega
  rw [part, part, part]
  dsimp only
  rw [List.drop_take, List.drop_drop, List.take_take, hdrop, htake]

theorem sub_sub_eq_ok_iff (h : r.sub start stop = .ok t) {start' stop' : Nat} {t' : Reader} :
    t.sub start' stop' = .ok t' ↔
      (start ≤ start' ∧ stop' ≤ stop) ∧ r.sub start' stop' = .ok t' := by
  obtain ⟨⟨hstart, hle, hstop⟩, rfl⟩ := sub_eq_ok_iff.mp h
  rw [sub_eq_ok_iff, sub_eq_ok_iff, stop_part hstart hle hstop]
  change (start ≤ start' ∧ _ ∧ _) ∧ _ ↔ _
  constructor
  · rintro ⟨⟨hstart', hle', hstop'⟩, rfl⟩
    exact ⟨⟨hstart', hstop'⟩, ⟨by omega, hle', by omega⟩, (part_part hstart hstart' hstop').symm⟩
  · rintro ⟨⟨hstart', hstop'⟩, ⟨-, hle', -⟩, rfl⟩
    exact ⟨⟨hstart', hle', hstop'⟩, part_part hstart hstart' hstop'⟩

/-- **A range is a window.** A reader of a range and a reader of the whole that is sent to its
beginning give the same answers, faults and addresses included, until the latter reads beyond the
end of the range, and then the former reports the end of its bytes. Of a range that is cut out of a
range, the same holds with the reader of the whole. -/
theorem follows_sub (h : r.sub start stop = .ok t) :
    ∃ whole, r.goTo start = .ok whole ∧
      (∀ ops, Follows stop (t.answers ops) (whole.answers ops)) ∧
      (∀ ops, (∀ answer ∈ whole.answers ops, answer.2 ≤ stop) → t.answers ops = whole.answers ops) ∧
      ∀ start' stop' t', t.sub start' stop' = .ok t' ↔
        (start ≤ start' ∧ stop' ≤ stop) ∧ r.sub start' stop' = .ok t' := by
  obtain ⟨⟨hstart, hle, hstop⟩, hpart⟩ := sub_eq_ok_iff.mp h
  have hend : t.cursor.stop = stop := hpart ▸ stop_part hstart hle hstop
  have hcursor := extend_cursor_part r start stop
  rw [hpart] at hcursor
  refine ⟨_, goTo_eq_ok hstart (hle.trans hstop), ?_⟩
  have hfollows (ops : List Operation) : Follows stop (t.answers ops)
      (answers { r with cursor := ⟨start, r.window.drop (start - r.start)⟩ } ops) := by
    rw [← hend]
    exact follows_of_extend ops hcursor.symm
  exact ⟨hfollows, fun ops hops ↦ (hfollows ops).eq_of_forall_le hops,
    fun start' stop' t' ↦ sub_sub_eq_ok_iff h⟩

/-- A number that begins in a range of two bytes and ends behind it. -/
theorem follows_sub_number :
    let r := Reader.ofBytes [130, 1, 2, 131, 65, 66]
    let ops : List Operation := [.item .byte, .item .nat, .item .byte]
    ∃ t whole, r.sub 1 3 = .ok t ∧ r.goTo 1 = .ok whole ∧
      Follows 3 (t.answers ops) (whole.answers ops) ∧
      t.answers ops = [(.ok (.outcome (.item (.byte 1))), 2),
        (.error (.fault (.unexpectedEnd 3)), 3), (.error (.fault (.unexpectedEnd 3)), 3)] ∧
      whole.answers ops = [(.ok (.outcome (.item (.byte 1))), 2),
        (.ok (.outcome (.item (.nat 259))), 4), (.ok (.outcome (.item (.byte 65))), 5)] := by
  intro r ops
  have ht : r.sub 1 3 = .ok (r.part 1 3) := rfl
  obtain ⟨whole, hwhole, hfollows, -⟩ := follows_sub ht
  obtain rfl : _ = whole := Except.ok.inj hwhole
  exact ⟨_, _, ht, hwhole, hfollows ops, by decide +kernel, by decide +kernel⟩

end Reader

end TreePickle
