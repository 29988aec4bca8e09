import TreePickle.Proofs.Window

/-!
# Readers stay in their ranges

Whatever is asked of a stack of readers, in whatever order and with whatever addresses and counts,
each of them stands in its range, its range lies in the file and in the range it was cut out of, and
it sees the bytes of the file that stand there: `Session.safe_after`. A request that fails is no
exception, although it may have moved a reader.

## The step

What a request can do to a stack is said once, by `Session.Change`, with a constructor for each kind
of request and for each way in which it is refused. All that is kept is read off from its cases.
Reading moves the reader on top forward by `Cursor.Reaches`, going to an address puts it anywhere in
its range, cutting out a range puts a reader on top, and dropping one takes it away.

## The invariant

`Session.Safe file` says of the readers of a stack that each is `Reader.Within` the file, and of the
ranges that each lies inside of those below it. One request preserves it, `Safe.change`, and so do
all that follow. The ranges are compared in pairs and not only with their neighbours, so that it
says of each reader that it stays inside of every range that it was cut out of.

## Bytes at addresses

A reader holds the bytes of its range, not the file, so it remains to say that it takes the bytes
that stand at its addresses in the file: `Reader.Delivers`. It is stated of all places that reading
can get to from where a reader stands. So it holds in the middle of an operation that takes several
bytes as well, and no byte is ever looked up outside of the range.
-/

namespace TreePickle

/-! ## Forward moves -/

theorem Cursor.Reaches.ahead_eq {c c' : Cursor} (h : c.Reaches c') :
    c'.ahead = c.ahead.drop (c'.position - c.position) := by
  obtain ⟨bs, ha, hp⟩ := h
  have hlen : c'.position - c.position = bs.length := by omega
  rw [ha, hlen, List.drop_left]

namespace Decode

theorem reaches_of_ensures {ε α : Type} {x : Decode ε α} {c : Cursor}
    (h : Ensures c.Reaches x (fun _ ↦ c.Reaches) fun _ ↦ c.Reaches) :
    c.Reaches (reached (x c)) := by
  have hc := h c (.refl c)
  cases hx : x c with
  | ok v c' => rwa [hx] at hc
  | error e c' => rwa [hx] at hc

theorem Forward.mapError_ensures {ε α : Type} {x : Decode Fault α} (h : Forward x) (g : Fault → ε)
    (c : Cursor) :
    Ensures c.Reaches (mapError g x) (fun _ ↦ c.Reaches) fun _ ↦ c.Reaches :=
  .mapError ((h c).imp (fun _ hc ↦ hc) (fun _ _ hc ↦ hc) fun _ _ he ↦ he.1)

end Decode

open Decode in
theorem Header.reaches_decode (reader : Version) (c : Cursor) :
    c.Reaches (reached (Header.decode reader c)) := by
  have hversion : Forward Decode.version := Forward.nat.bind fun major ↦
    Forward.nat.bind fun minor ↦ Forward.nat.bind_pure (Version.mk major minor)
  refine reaches_of_ensures ?_
  refine ((Forward.bytes magic.length).mapError_ensures _ c).bind fun found ↦
    .guard (fun _ _ hc ↦ hc) fun _ ↦ ?_
  refine (hversion.mapError_ensures _ c).bind fun v ↦ .guard (fun _ _ hc ↦ hc) fun _ ↦ ?_
  exact ((Forward.length.bind .text).mapError_ensures _ c).bind fun tooling ↦
    (Forward.uuid.mapError_ensures _ c).bind_pure fun _ _ hc ↦ hc

/-! ## Readers of a file -/

namespace Reader

/-- Where a range begins and where it ends. -/
def range (r : Reader) : Nat × Nat := (r.start, r.stop)

/-- The reader stands in its range, and sees the bytes of the file in a range that the file has. -/
structure Within (file : List UInt8) (r : Reader) : Prop where
  coherent : r.Coherent
  stop_le : r.stop ≤ file.length
  window_eq : r.window = file.extract r.start r.stop

variable {file : List UInt8} {r : Reader}

theorem within_ofBytes (file : List UInt8) : (ofBytes file).Within file := by
  have hstop : (ofBytes file).stop = file.length := Nat.zero_add _
  refine ⟨⟨Nat.le_refl 0, Nat.zero_le _, rfl⟩, hstop.le, ?_⟩
  rw [hstop, List.extract_eq_take_drop]
  exact List.take_length.symm

/-- Reading moves a reader within its range. -/
theorem Within.moved (h : r.Within file) {c : Cursor} (hc : r.cursor.Reaches c) :
    Within file { r with cursor := c } := by
  have hstart := h.coherent.start_le
  have hforward : r.position ≤ c.position := hc.position_le
  have hle := hc.position_le_stop
  rw [h.coherent.stop_cursor] at hle
  refine ⟨⟨hstart.trans hforward, hle, ?_⟩, h.stop_le, h.window_eq⟩
  have hskip : r.position - r.start + (c.position - r.position) = c.position - r.start := by omega
  change c.ahead = r.window.drop (c.position - r.start)
  rw [hc.ahead_eq, h.coherent.ahead_eq, List.drop_drop, ← hskip]
  rfl

/-- A range of a range of the file is a range of the file. -/
theorem Within.part (h : r.Within file) {start stop : Nat} (hstart : r.start ≤ start)
    (hle : start ≤ stop) (hstop : stop ≤ r.stop) : (r.part start stop).Within file := by
  have hend : (r.part start stop).stop = stop := stop_part hstart hle hstop
  have hwindow : (r.part start stop).window = file.extract start stop := by
    have hskip : r.start + (start - r.start) = start := by omega
    have hsize : min (stop - start) (r.stop - r.start - (start - r.start)) = stop - start := by
      omega
    rw [Reader.part, h.window_eq, List.extract_eq_take_drop, List.extract_eq_take_drop,
      List.drop_take, List.drop_drop, List.take_take, hskip, hsize]
  refine ⟨⟨Nat.le_refl _, ?_, ?_⟩, ?_, ?_⟩
  · rw [hend]
    exact hle
  · exact (congrArg (List.drop · _) (Nat.sub_self start)).symm
  · rw [hend]
    exact hstop.trans h.stop_le
  · rw [hend]
    exact hwindow

/-! ### Bytes of the file -/

theorem Within.ahead_eq (h : r.Within file) :
    r.cursor.ahead = file.extract r.position r.stop := by
  have hstart := h.coherent.start_le
  have hskip : r.start + (r.position - r.start) = r.position := by omega
  have hsize : r.stop - r.start - (r.position - r.start) = r.stop - r.position := by omega
  rw [h.coherent.ahead_eq, h.window_eq, List.extract_eq_take_drop, List.extract_eq_take_drop,
    List.drop_take, List.drop_drop, hskip, hsize]

/-- What is read are the bytes of the file at their addresses in the range. -/
structure Delivers (file : List UInt8) (r : Reader) : Prop where
  byte (b : UInt8) (r' : Reader) (h : r.run Decode.byte = (.ok b, r')) :
    r.position < r.stop ∧ file[r.position]? = some b ∧ r'.position = r.position + 1
  bytes (n : Nat) (bs : List UInt8) (r' : Reader) (h : r.run (Decode.bytes n) = (.ok bs, r')) :
    r.position + n ≤ r.stop ∧ bs = file.extract r.position (r.position + n) ∧
      r'.position = r.position + n

/-- What lies ahead of a reader is what stands at its address in the file. -/
theorem Within.extract_eq (h : r.Within file) {bs rest : List UInt8}
    (ha : r.cursor.ahead = bs ++ rest) :
    r.position + bs.length ≤ r.stop ∧ file.extract r.position (r.position + bs.length) = bs := by
  have hle : r.position + bs.length ≤ r.stop := by
    rw [← h.coherent.stop_cursor, Cursor.stop, ha, List.length_append]
    exact Nat.add_le_add_left (Nat.le_add_right _ _) _
  have hsize : min bs.length (r.stop - r.position) = r.position + bs.length - r.position := by omega
  have htake := congrArg (List.take bs.length) (h.ahead_eq.symm.trans ha)
  rw [List.take_left, List.extract_eq_take_drop, List.take_take, hsize] at htake
  exact ⟨hle, List.extract_eq_take_drop ▸ htake⟩

theorem exists_of_run_eq_ok {α : Type} {x : Decode Fault α} {v : α} {r' : Reader}
    (h : r.run x = (.ok v, r')) : ∃ c, x r.cursor = .ok v c ∧ r' = { r with cursor := c } := by
  rw [run] at h
  cases hx : x r.cursor with
  | ok u c =>
    rw [hx] at h
    cases h
    exact ⟨c, rfl, rfl⟩
  | error e c =>
    rw [hx] at h
    cases h

theorem Within.delivers (h : r.Within file) : r.Delivers file := by
  constructor
  · intro b r' hrun
    obtain ⟨c, hx, rfl⟩ := exists_of_run_eq_ok hrun
    obtain ⟨_, rfl, ha, hp⟩ := (Decode.Reads.byte _ _ _ rfl).mp hx
    obtain ⟨hle, hextract⟩ := h.extract_eq ha
    refine ⟨hle, ?_, hp⟩
    have hb : ((file.drop r.position).take 1)[0]? = some b := by
      rw [List.length_singleton, List.extract_eq_take_drop, Nat.add_sub_cancel_left] at hextract
      rw [hextract, List.getElem?_cons_zero]
    rwa [List.getElem?_take_of_lt Nat.zero_lt_one, List.getElem?_drop] at hb
  · intro n bs r' hrun
    obtain ⟨c, hx, rfl⟩ := exists_of_run_eq_ok hrun
    obtain ⟨_, ⟨rfl, rfl⟩, ha, hp⟩ := (Decode.Reads.bytes n _ _ _ rfl).mp hx
    obtain ⟨hle, hextract⟩ := h.extract_eq ha
    exact ⟨hle, hextract.symm, hp⟩

end Reader

/-! ## What a request does -/

namespace Session

/-- The readers of a stack, that on top first. -/
def readers (s : Session) : List Reader := s.top :: s.below

/-- The ranges of the readers of a stack. -/
def ranges (s : Session) : List (Nat × Nat) := s.readers.map Reader.range

/-- The stack behind a list of requests. -/
def after (s : Session) (requests : List Request) : Session :=
  requests.foldl (fun s request ↦ (s.answer request).2) s

/-- What a request can do to a stack, with the answer that it gets. -/
inductive Change (s : Session) : Request → Except Refusal Reply → Session → Prop
  /-- Reading moves the reader on top forward, also if it fails. -/
  | read (op : Operation) {answer : Except Refusal Reply} {c : Cursor}
      (h : s.top.cursor.Reaches c) :
      Change s (.read op) answer ⟨{ s.top with cursor := c }, s.below⟩
  | header (v : Version) {answer : Except Refusal Reply} {c : Cursor}
      (h : s.top.cursor.Reaches c) :
      Change s (.header v) answer ⟨{ s.top with cursor := c }, s.below⟩
  | window (reply : Reply) : Change s .window (.ok reply) s
  | inspect (reply : Reply) : Change s .inspect (.ok reply) s
  | goTo {a : Nat} (hstart : s.top.start ≤ a) (hstop : a ≤ s.top.stop) :
      Change s (.goTo a) (.ok .done)
        ⟨{ s.top with cursor := ⟨a, s.top.window.drop (a - s.top.start)⟩ }, s.below⟩
  | goToRefused (a : Nat) (e : Refusal) : Change s (.goTo a) (.error e) s
  | sub {start stop : Nat} (hstart : s.top.start ≤ start) (hle : start ≤ stop)
      (hstop : stop ≤ s.top.stop) :
      Change s (.sub start stop) (.ok .done) ⟨s.top.part start stop, s.readers⟩
  | subRefused (start stop : Nat) (e : Refusal) : Change s (.sub start stop) (.error e) s
  | drop {r : Reader} {rest : List Reader} (h : s.below = r :: rest) :
      Change s .drop (.ok .done) ⟨r, rest⟩
  | dropLast (h : s.below = []) : Change s .drop (.ok .done) s

theorem readTop_eq {ε α : Type} (s : Session) (x : Decode ε α) (refuse : ε → Refusal)
    (reply : α → Reply) : (s.readTop x refuse reply).2 =
      ⟨{ s.top with cursor := Decode.reached (x s.top.cursor) }, s.below⟩ := by
  rw [readTop, Reader.run]
  cases x s.top.cursor with
  | ok v c => rfl
  | error e c => rfl

theorem change_answer (s : Session) (request : Request) :
    s.Change request (s.answer request).1 (s.answer request).2 := by
  cases request with
  | read op =>
    have hreach := (Decode.Local.operation op).reaches s.top.cursor
    have hs := readTop_eq s op.decode .fault .outcome
    change s.Change _ _ (s.readTop op.decode .fault .outcome).2
    rw [hs]
    exact .read op hreach
  | header v =>
    have hreach := Header.reaches_decode v s.top.cursor
    have hs := readTop_eq s (Header.decode v) .header .header
    change s.Change _ _ (s.readTop (Header.decode v) .header .header).2
    rw [hs]
    exact .header v hreach
  | window => exact .window _
  | inspect => exact .inspect _
  | goTo a =>
    by_cases hin : s.top.start ≤ a ∧ a ≤ s.top.stop
    · have hgo := Reader.goTo_eq_ok hin.1 hin.2
      rw [answer, hgo]
      exact .goTo hin.1 hin.2
    · rw [answer, Reader.goTo, Reader.check, if_neg hin]
      exact .goToRefused a _
  | sub start stop =>
    rw [answer]
    cases hsub : s.top.sub start stop with
    | ok r =>
      obtain ⟨⟨hstart, hle, hstop⟩, rfl⟩ := Reader.sub_eq_ok_iff.mp hsub
      exact .sub hstart hle hstop
    | error e => exact .subRefused start stop _
  | drop =>
    rw [answer]
    cases hbelow : s.below with
    | nil => exact .dropLast hbelow
    | cons r rest => exact .drop hbelow

/-! ## What is kept -/

/-- The ranges of a stack after a request: a range that is cut out comes on top, a reader that is
dropped takes its range with it, and no range ever changes. -/
theorem Change.ranges_eq {s s' : Session} {request : Request} {answer : Except Refusal Reply}
    (h : s.Change request answer s') :
    s'.ranges = s.ranges ∨
      (∃ start stop, request = .sub start stop ∧ s.top.start ≤ start ∧ start ≤ stop ∧
        stop ≤ s.top.stop ∧ s'.ranges = (start, stop) :: s.ranges) ∨
      request = .drop ∧ s'.ranges = s.ranges.tail := by
  cases h with
  | sub hstart hle hstop =>
    refine .inr (.inl ⟨_, _, rfl, hstart, hle, hstop, ?_⟩)
    have hrange : (s.top.part _ _).range = _ :=
      congrArg (Prod.mk _) (Reader.stop_part hstart hle hstop)
    exact congrArg (· :: s.ranges) hrange
  | drop hbelow =>
    refine .inr (.inr ⟨rfl, ?_⟩)
    exact (congrArg (List.map Reader.range) hbelow).symm
  | _ => exact .inl rfl

/-- All readers of a stack stand in ranges of the file, each of them inside of those below. -/
structure Safe (file : List UInt8) (s : Session) : Prop where
  within : ∀ r ∈ s.readers, r.Within file
  nested : s.ranges.Pairwise fun inner outer ↦ outer.1 ≤ inner.1 ∧ inner.2 ≤ outer.2

variable {file : List UInt8} {s s' : Session}

theorem safe_ofReader_ofBytes (file : List UInt8) : (ofReader (Reader.ofBytes file)).Safe file :=
  ⟨List.forall_mem_singleton.mpr (Reader.within_ofBytes file), List.pairwise_singleton _ _⟩

theorem Safe.change_within (hs : s.Safe file) {request : Request} {answer : Except Refusal Reply}
    (h : s.Change request answer s') : ∀ r ∈ s'.readers, r.Within file := by
  have htop : s.top.Within file := hs.within _ List.mem_cons_self
  have hbelow : ∀ r ∈ s.below, r.Within file := fun r hr ↦
    hs.within r (List.mem_cons_of_mem _ hr)
  cases h with
  | read op hc => exact List.forall_mem_cons.mpr ⟨htop.moved hc, hbelow⟩
  | header v hc => exact List.forall_mem_cons.mpr ⟨htop.moved hc, hbelow⟩
  | goTo hstart hstop =>
    exact List.forall_mem_cons.mpr ⟨⟨⟨hstart, hstop, rfl⟩, htop.stop_le, htop.window_eq⟩, hbelow⟩
  | sub hstart hle hstop =>
    exact List.forall_mem_cons.mpr ⟨htop.part hstart hle hstop, hs.within⟩
  | drop hrest =>
    rw [hrest] at hbelow
    exact hbelow
  | _ => exact hs.within

theorem Safe.change_nested (hs : s.Safe file) {request : Request} {answer : Except Refusal Reply}
    (h : s.Change request answer s') :
    s'.ranges.Pairwise fun inner outer ↦ outer.1 ≤ inner.1 ∧ inner.2 ≤ outer.2 := by
  rcases h.ranges_eq with heq | ⟨start, stop, -, hstart, hle, hstop, heq⟩ | ⟨-, heq⟩
  · rw [heq]
    exact hs.nested
  · rw [heq]
    refine List.pairwise_cons.mpr ⟨fun outer houter ↦ ?_, hs.nested⟩
    rcases List.mem_cons.mp houter with rfl | houter
    · exact ⟨hstart, hstop⟩
    · have htop := (List.pairwise_cons.mp hs.nested).1 outer houter
      exact ⟨htop.1.trans hstart, hstop.trans htop.2⟩
  · rw [heq]
    exact hs.nested.tail

/-- What one request preserves. -/
theorem Safe.change (hs : s.Safe file) {request : Request} {answer : Except Refusal Reply}
    (h : s.Change request answer s') : s'.Safe file :=
  ⟨hs.change_within h, hs.change_nested h⟩

/-- What a list of requests preserves. -/
theorem Safe.after (hs : s.Safe file) (requests : List Request) : (s.after requests).Safe file := by
  induction requests generalizing s with
  | nil => exact hs
  | cons request rest ih => exact ih (hs.change (s.change_answer request))

/-- As long as no reader is dropped, the ranges at the bottom of the stack stay. -/
theorem ranges_suffix_after {requests : List Request} (h : .drop ∉ requests) (s : Session) :
    s.ranges <:+ (s.after requests).ranges := by
  induction requests generalizing s with
  | nil => exact List.suffix_rfl
  | cons request rest ih =>
    rw [List.mem_cons, not_or] at h
    refine List.IsSuffix.trans ?_ (ih h.2 (s.answer request).2)
    rcases (s.change_answer request).ranges_eq with heq | ⟨_, _, -, -, -, -, heq⟩ | ⟨hdrop, -⟩
    · exact heq ▸ List.suffix_rfl
    · rw [heq]
      exact List.suffix_cons _ _
    · exact absurd hdrop.symm h.1

end Session

/-! ## Requests that fail where they stand -/

/-- The requests that leave a stack as it is if they fail with `e`. Bytes that are not there leave
it so, but bytes that are no text are passed over. -/
def Request.Unmoved : Request → Refusal → Prop
  | .goTo _, _ | .sub _ _, _ | .read (.bytes _), _ | .read (.item .uuid), _ => True
  | .read (.text _), e => ∃ a, e = .fault (.unexpectedEnd a)
  | _, _ => False

namespace Decode

variable {α β : Type} {n : Nat} {x : Decode Fault α} {c c' : Cursor} {e : Fault}

theorem map_eq_error {g : α → β} (h : (g <$> x) c = .error e c') : x c = .error e c' := by
  rw [map_eq_pure_bind, bind_eq_error_iff] at h
  rcases h with h | ⟨v, c₁, -, h⟩
  · exact h
  · cases h

theorem Takes.eq_of_eq_error (h : Takes n x) (hx : x c = .error e c') : c' = c := by
  rcases h c with ⟨-, v, hv⟩ | ⟨-, he⟩
  · cases hx.symm.trans hv
  · cases hx.symm.trans he
    rfl

theorem eq_of_text_eq_unexpectedEnd {a : Nat} (h : text n c = .error (.unexpectedEnd a) c') :
    c' = c := by
  rcases bind_eq_error_iff.mp (show (Decode.bytes n >>= _) c = _ from h) with hb | ⟨bs, c₁, -, hs⟩
  · exact (takes_bytes n).eq_of_eq_error hb
  · cases htext : Text.ofUtf8? bs with
    | some t =>
      rw [htext] at hs
      cases hs
    | none =>
      rw [htext] at hs
      cases hs

end Decode

namespace Session

variable {file : List UInt8} {s s' : Session}

theorem readTop_eq_error {ε α : Type} {x : Decode ε α} {refuse : ε → Refusal} {reply : α → Reply}
    {e : Refusal} (h : (s.readTop x refuse reply).1 = .error e) :
    ∃ f c, x s.top.cursor = .error f c ∧ refuse f = e := by
  rw [readTop, Reader.run] at h
  cases hx : x s.top.cursor with
  | ok v c =>
    rw [hx] at h
    cases h
  | error f c =>
    rw [hx] at h
    exact ⟨f, c, rfl, Except.error.inj h⟩

/-- What fails without moving the cursor leaves the stack as it is. -/
theorem readTop_eq_self {ε α : Type} {x : Decode ε α} {refuse : ε → Refusal} {reply : α → Reply}
    {f : ε} (h : x s.top.cursor = .error f s.top.cursor) : (s.readTop x refuse reply).2 = s := by
  rw [readTop_eq, h]
  rfl

theorem replace_eq_self {x : Except Fault Session} {e : Refusal}
    (h : (s.replace x).1 = .error e) : (s.replace x).2 = s := by
  cases x with
  | ok t => cases h
  | error f => rfl

theorem answer_eq_self {request : Request} {e : Refusal} (h : (s.answer request).1 = .error e)
    (hstays : request.Unmoved e) : (s.answer request).2 = s := by
  have hread {α : Type} {x : Decode Fault α} {g : α → Outcome}
      (hx : ∀ f c, x s.top.cursor = .error f c → .fault f = e → c = s.top.cursor)
      (h : (s.readTop (g <$> x) .fault .outcome).1 = .error e) :
      (s.readTop (g <$> x) .fault .outcome).2 = s := by
    obtain ⟨f, c, hf, he⟩ := readTop_eq_error h
    obtain rfl := hx f c (Decode.map_eq_error hf) he
    exact readTop_eq_self hf
  cases request with
  | goTo a => exact replace_eq_self h
  | sub start stop => exact replace_eq_self h
  | read op =>
    cases op with
    | bytes n => exact hread (fun _ _ hf _ ↦ (Decode.takes_bytes n).eq_of_eq_error hf) h
    | text n =>
      obtain ⟨a, rfl⟩ := hstays
      refine hread (fun f c hf he ↦ ?_) h
      obtain rfl := Refusal.fault.inj he
      exact Decode.eq_of_text_eq_unexpectedEnd hf
    | item kind =>
      cases kind with
      | uuid =>
        exact hread (fun _ _ hf _ ↦ Decode.takes_uuid.eq_of_eq_error (Decode.map_eq_error hf)) h
      | _ => exact hstays.elim
    | itemsUntil stop kind => exact hstays.elim
  | _ => exact hstays.elim

/-! ## All requests -/

/-- What the next request leaves as it is. -/
structure Steady (s : Session) (request : Request) : Prop where
  /-- No range changes: a range that is cut out comes on top of the others, and a reader that is
  dropped takes its range with it. -/
  ranges_eq : (s.answer request).2.ranges = s.ranges ∨
    (∃ start stop, request = .sub start stop ∧
      (s.answer request).2.ranges = (start, stop) :: s.ranges) ∨
    request = .drop ∧ (s.answer request).2.ranges = s.ranges.tail
  /-- Reading never moves a reader backwards, and never those below. -/
  forward : ((∃ op, request = .read op) ∨ ∃ v, request = .header v) →
    s.top.position ≤ (s.answer request).2.top.position ∧ (s.answer request).2.below = s.below
  /-- What fails before it takes anything leaves all readers as they are. -/
  unmoved (e : Refusal) (h : (s.answer request).1 = .error e) (hstays : request.Unmoved e) :
    (s.answer request).2 = s

theorem steady (s : Session) (request : Request) : s.Steady request where
  ranges_eq := by
    rcases (s.change_answer request).ranges_eq with heq | ⟨a, b, hreq, -, -, -, heq⟩ | heq
    · exact .inl heq
    · exact .inr (.inl ⟨a, b, hreq, heq⟩)
    · exact .inr (.inr heq)
  forward := by
    have hchange := s.change_answer request
    generalize (s.answer request).1 = answer, (s.answer request).2 = s' at hchange ⊢
    rintro (⟨op, rfl⟩ | ⟨v, rfl⟩)
    · cases hchange with
      | read op hc => exact ⟨hc.position_le, rfl⟩
    · cases hchange with
      | header v hc => exact ⟨hc.position_le, rfl⟩
  unmoved _ h hstays := answer_eq_self h hstays

/-- **Readers stay in their ranges.** From a reader of a file on, whatever is requested and whether
it succeeds or fails, the readers of the stack stand in ranges of the file, one inside of the other.
From the place of a reader, and from wherever reading can get from there, the bytes that are taken
are those of the file at their addresses. The next request leaves the ranges as they are, and so do
all that follow. -/
theorem safe_after (file : List UInt8) (requests : List Request) :
    let s := (ofReader (Reader.ofBytes file)).after requests
    s.Safe file ∧
      (∀ r ∈ s.readers, ∀ c, r.cursor.Reaches c → Reader.Delivers file { r with cursor := c }) ∧
      (∀ request, s.Steady request) ∧
      ∀ more : List Request, .drop ∉ more → s.ranges <:+ (s.after more).ranges := by
  intro s
  have hs : s.Safe file := (safe_ofReader_ofBytes file).after requests
  exact ⟨hs, fun r hr c hc ↦ ((hs.within r hr).moved hc).delivers, s.steady,
    fun more hmore ↦ ranges_suffix_after hmore s⟩

/-- After a number that goes on behind a range, an address and a count that are far too large, and a
text that is none. -/
theorem safe_after_refused :
    let s := (ofReader (Reader.ofBytes [0x41, 0x7F, 0x7F, 0xC3, 0x28])).after
      [.read (.item .byte), .sub 1 3, .read (.item .nat), .drop, .goTo (2 ^ 64 - 1),
        .read (.bytes (2 ^ 64 - 1)), .goTo 3, .sub 3 5, .read (.text 2)]
    s.top.position = 5 ∧ s.ranges = [(3, 5), (0, 5)] ∧
      (∀ r ∈ s.readers, r.Within [0x41, 0x7F, 0x7F, 0xC3, 0x28]) ∧
      s.ranges <:+ (s.after [.sub 4 5, .goTo 9]).ranges := by
  intro s
  obtain ⟨hsafe, -, -, hmore⟩ := safe_after [0x41, 0x7F, 0x7F, 0xC3, 0x28]
    [.read (.item .byte), .sub 1 3, .read (.item .nat), .drop, .goTo (2 ^ 64 - 1),
      .read (.bytes (2 ^ 64 - 1)), .goTo 3, .sub 3 5, .read (.text 2)]
  exact ⟨by decide +kernel, by decide +kernel, hsafe.within, hmore _ (by decide)⟩

end Session

end TreePickle
