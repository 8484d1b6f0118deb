import Nabla.Decode

/-! Where a message begins and ends: `decode` reads inside the bytes it is given, and the
bytes it reads determine the message. -/
namespace Nabla
open Bytes Cursors

/-- Readers in which a slice, an index or a failed conversion outside the bytes panics. -/
abbrev Indexing (α : Type) := Parser UInt8 (Fault String) α

namespace Indexing

def take (n : Nat) : Indexing (List UInt8) := fun r =>
  if r.data.length < r.pos + n then
    .error (.error s!"truncated pgoutput message: wanted {n} bytes at offset {r.pos}, have {r.data.length}")
  else do
    let out ← slice r.data r.pos (r.pos + n)
    .ok (out, { r with pos := r.pos + n })

/-- `take(1)?[0]`. -/
def u8 : Indexing UInt8 := do
  let bytes ← take 1
  liftM (index bytes 0 : Except (Fault String) UInt8)

/-- `try_into().unwrap()` of a slice. -/
def array (width : Nat) (bytes : List UInt8) : Except (Fault String) (List UInt8) :=
  if bytes.length = width then .ok bytes else .error .outOfBounds

def unsigned (width : Nat) : Indexing Nat := do
  let bytes ← take width
  let bytes ← liftM (array width bytes)
  pure (number bytes)

def signed (width : Nat) : Indexing Int := do
  let bytes ← take width
  let bytes ← liftM (array width bytes)
  pure (Bytes.signed width (number bytes))

def cstring : Indexing String := fun r => do
  let rest ← slice r.data r.pos r.data.length
  match rest.findIdx? (· = 0) with
  | none => .error (.error "unterminated string in pgoutput message")
  | some stop =>
    let s ← slice rest 0 stop
    .ok (fromUtf8Lossy s, { r with pos := r.pos + (stop + 1) })

def column : Indexing ColumnValue := do
  let tag ← u8
  if tag = 110 then pure ColumnValue.null
  else if tag = 117 then pure ColumnValue.unchanged
  else if tag = 116 then
    let len ← signed 4
    let bytes ← take len.toNat
    pure (ColumnValue.text (fromUtf8Lossy bytes))
  else throw (.error s!"unknown tuple column tag {hexByte tag}")

def tuple : Indexing Tuple := do
  let ncols ← signed 2
  times column ncols.toNat

def relationColumn : Indexing RelationColumn := do
  let flags ← u8
  let name ← cstring
  let typid ← unsigned 4
  let typmod ← signed 4
  pure ⟨name, flags &&& 1 = 1, typid, typmod, none⟩

def begin : Indexing Message := do
  let finalLsn ← unsigned 8
  let _commitTs ← unsigned 8
  let xid ← unsigned 4
  pure (.begin finalLsn xid)

def commit : Indexing Message := do
  let _flags ← u8
  let commitLsn ← unsigned 8
  let endLsn ← unsigned 8
  let _ts ← unsigned 8
  pure (.commit commitLsn endLsn)

def relation : Indexing Message := do
  let id ← unsigned 4
  let nspname ← cstring
  let name ← cstring
  let replident ← u8
  let ncols ← signed 2
  let columns ← times relationColumn ncols.toNat
  pure (.relation ⟨id, nspname, name, replident, columns⟩)

def insert : Indexing Message := do
  let relid ← unsigned 4
  let tag ← u8
  if tag ≠ 78 then throw (.error s!"insert message: expected 'N', got {hexByte tag}")
  else
    let new ← tuple
    pure (.insert relid new)

def updated (relid : Nat) (old : Option (UInt8 × Tuple)) (tag : UInt8) : Indexing Message :=
  if tag ≠ 78 then throw (.error s!"update message: expected 'N', got {hexByte tag}")
  else do
    let new ← tuple
    pure (.update relid old new)

def update : Indexing Message := do
  let relid ← unsigned 4
  let tag ← u8
  if tag = keyTuple || tag = fullOldTuple then
    let old ← tuple
    let next ← u8
    updated relid (some (tag, old)) next
  else updated relid none tag

def delete : Indexing Message := do
  let relid ← unsigned 4
  let keyKind ← u8
  if keyKind ≠ keyTuple && keyKind ≠ fullOldTuple then
    throw (.error s!"delete message: expected 'K' or 'O', got {hexByte keyKind}")
  else
    let old ← tuple
    pure (.delete relid keyKind old)

def truncate : Indexing Message := do
  let n ← signed 4
  let _flags ← u8
  let relids ← times (unsigned 4) n.toNat
  pure (.truncate relids)

def message : Indexing Message := do
  let kind ← u8
  if kind = 66 then begin
  else if kind = 67 then commit
  else if kind = 82 then relation
  else if kind = 73 then insert
  else if kind = 85 then update
  else if kind = 68 then delete
  else if kind = 84 then truncate
  else if kind = 79 || kind = 77 || kind = 89 then pure (.ignored kind)
  else throw (.error s!"unknown pgoutput message kind {hexByte kind}")

end Indexing

/-- `decode` with its indexing. -/
def decodeIndexing (data : List UInt8) : Except (Fault String) Message := (Indexing.message ⟨data, 0⟩).map Prod.fst

theorem take_ok {n : Nat} {r r' : Reader} {bytes : List UInt8} (read : Reader.take n r = .ok (bytes, r')) :
    r.pos + n ≤ r.data.length ∧ bytes = (r.data.drop r.pos).take n ∧ r' = { r with pos := r.pos + n } := by
  unfold Reader.take at read
  split at read
  · cases read
  · rename_i enough
    obtain ⟨rfl, rfl⟩ := Prod.mk.inj (Except.ok.inj read)
    exact ⟨Nat.not_lt.mp enough, rfl, rfl⟩

theorem take_length {n : Nat} {r r' : Reader} {bytes : List UInt8} (read : Reader.take n r = .ok (bytes, r')) : bytes.length = n := by
  obtain ⟨enough, rfl, -⟩ := take_ok read
  rw [List.length_take, List.length_drop]
  omega

theorem take_inBounds (n : Nat) : InBounds (Indexing.take n) (Reader.take n) where
  same := by
    intro r inside
    unfold Indexing.take Reader.take
    split
    · rfl
    · rename_i enough
      have range : r.pos ≤ r.pos + n ∧ r.pos + n ≤ r.data.length := ⟨Nat.le_add_right _ _, Nat.not_lt.mp enough⟩
      have width : r.pos + n - r.pos = n := Nat.add_sub_cancel_left _ _
      rw [slice, if_pos range, width]
      rfl
  within := by
    intro r bytes r' inside read
    obtain ⟨enough, -, rfl⟩ := take_ok read
    exact enough

theorem converted_inBounds {α : Type} (n : Nat) {convert : List UInt8 → Indexing α} {value : List UInt8 → α}
    (fits : ∀ bytes, bytes.length = n → convert bytes = pure (value bytes)) :
    InBounds (Indexing.take n >>= convert) (Reader.take n >>= fun bytes => pure (value bytes)) where
  same := by
    intro r inside
    show (Indexing.take n r >>= fun s => convert s.1 s.2) = (Reader.take n r >>= fun s => .ok (value s.1, s.2)).mapError Fault.error
    rw [(take_inBounds n).same r inside]
    cases step : Reader.take n r with
    | error e => rfl
    | ok s =>
        show convert s.1 s.2 = .ok (value s.1, s.2)
        rw [fits s.1 (take_length step)]
        rfl
  within := by
    intro r a r' inside read
    have read : (Reader.take n r >>= fun s => .ok (value s.1, s.2)) = .ok (a, r') := read
    cases step : Reader.take n r with
    | error e =>
        rw [step] at read
        cases read
    | ok s =>
        rw [step] at read
        obtain ⟨-, rfl⟩ := Prod.mk.inj (Except.ok.inj read)
        exact (take_inBounds n).within r s.1 s.2 inside step

theorem u8_inBounds : InBounds Indexing.u8 Reader.u8 := by
  apply converted_inBounds
  intro bytes single
  obtain ⟨b, rfl⟩ := List.length_eq_one_iff.mp single
  rfl

theorem array_of_length {width : Nat} {bytes : List UInt8} (exact : bytes.length = width) : Indexing.array width bytes = .ok bytes :=
  if_pos exact

theorem unsigned_inBounds (width : Nat) : InBounds (Indexing.unsigned width) (Reader.unsigned width) := by
  apply converted_inBounds
  intro bytes exact
  rw [array_of_length exact]
  rfl

theorem signed_inBounds (width : Nat) : InBounds (Indexing.signed width) (Reader.signed width) := by
  apply converted_inBounds
  intro bytes exact
  rw [array_of_length exact]
  rfl

theorem slice_all {data : List UInt8} {start : Nat} (inside : start ≤ data.length) :
    slice data start data.length = (.ok (data.drop start) : Except (Fault String) (List UInt8)) := by
  rw [slice, if_pos ⟨inside, Nat.le_refl _⟩, ← List.length_drop, List.take_length]

theorem cstring_ok {r r' : Reader} {s : String} (read : Reader.cstring r = .ok (s, r')) :
    ∃ bytes after, (0 : UInt8) ∉ bytes ∧ r.data.drop r.pos = bytes ++ 0 :: after ∧ s = fromUtf8Lossy bytes ∧
      r' = { r with pos := r.pos + (bytes.length + 1) } := by
  cases found : (r.data.drop r.pos).findIdx? (· = 0) with
  | none =>
      simp only [Reader.cstring, found] at read
      cases read
  | some stop =>
      simp only [Reader.cstring, found] at read
      obtain ⟨rfl, rfl⟩ := Prod.mk.inj (Except.ok.inj read)
      obtain ⟨within, zero, others⟩ := List.findIdx?_eq_some_iff_getElem.mp found
      have size : ((r.data.drop r.pos).take stop).length = stop := List.length_take_of_le (Nat.le_of_lt within)
      refine ⟨(r.data.drop r.pos).take stop, (r.data.drop r.pos).drop (stop + 1), ?_, ?_, rfl, by rw [size]⟩
      · intro member
        obtain ⟨i, less, is⟩ := List.getElem_of_mem member
        rw [List.getElem_take] at is
        exact others i (size ▸ less) (decide_eq_true is)
      · have split := List.take_append_drop stop (r.data.drop r.pos)
        rw [List.drop_eq_getElem_cons within, of_decide_eq_true zero] at split
        exact split.symm

theorem cstring_inBounds : InBounds Indexing.cstring Reader.cstring where
  same := by
    intro r inside
    cases found : (r.data.drop r.pos).findIdx? (· = 0) with
    | none =>
        simp only [Indexing.cstring, Reader.cstring, slice_all inside, bind, Except.bind, found, Except.mapError]
    | some stop =>
        have less := (List.findIdx?_eq_some_iff_getElem.mp found).1
        have range : 0 ≤ stop ∧ stop ≤ (r.data.drop r.pos).length := ⟨Nat.zero_le _, Nat.le_of_lt less⟩
        have inner : slice (r.data.drop r.pos) 0 stop = (.ok ((r.data.drop r.pos).take stop) : Except (Fault String) (List UInt8)) :=
          if_pos range
        simp only [Indexing.cstring, Reader.cstring, slice_all inside, bind, Except.bind, found, inner, Except.mapError]
  within := by
    intro r s r' inside read
    obtain ⟨bytes, after, -, split, -, rfl⟩ := cstring_ok read
    have size := congrArg List.length split
    rw [List.length_drop, List.length_append, List.length_cons] at size
    show r.pos + (bytes.length + 1) ≤ r.data.length
    omega

theorem column_inBounds : InBounds Indexing.column Reader.column := by
  apply u8_inBounds.bind
  intro tag
  refine .ite (.pure _) (.ite (.pure _) (.ite ?_ (.throw _)))
  exact (signed_inBounds 4).bind fun len => (take_inBounds len.toNat).bind fun bytes => .pure _

theorem tuple_inBounds : InBounds Indexing.tuple Reader.tuple :=
  (signed_inBounds 2).bind fun ncols => column_inBounds.times ncols.toNat

theorem relationColumn_inBounds : InBounds Indexing.relationColumn Reader.relationColumn :=
  u8_inBounds.bind fun _ => cstring_inBounds.bind fun _ => (unsigned_inBounds 4).bind fun _ => (signed_inBounds 4).bind fun _ => .pure _

theorem updated_inBounds (relid : Nat) (old : Option (UInt8 × Tuple)) (tag : UInt8) :
    InBounds (Indexing.updated relid old tag) (Reader.updated relid old tag) :=
  .ite (.throw _) (tuple_inBounds.bind fun _ => .pure _)

theorem message_inBounds : InBounds Indexing.message Reader.message := by
  apply u8_inBounds.bind
  intro kind
  apply InBounds.ite
  · exact (unsigned_inBounds 8).bind fun _ => (unsigned_inBounds 8).bind fun _ => (unsigned_inBounds 4).bind fun _ => .pure _
  apply InBounds.ite
  · exact u8_inBounds.bind fun _ => (unsigned_inBounds 8).bind fun _ => (unsigned_inBounds 8).bind fun _ =>
      (unsigned_inBounds 8).bind fun _ => .pure _
  apply InBounds.ite
  · exact (unsigned_inBounds 4).bind fun _ => cstring_inBounds.bind fun _ => cstring_inBounds.bind fun _ => u8_inBounds.bind fun _ =>
      (signed_inBounds 2).bind fun ncols => (relationColumn_inBounds.times ncols.toNat).bind fun _ => .pure _
  apply InBounds.ite
  · exact (unsigned_inBounds 4).bind fun _ => u8_inBounds.bind fun tag => .ite (.throw _) (tuple_inBounds.bind fun _ => .pure _)
  apply InBounds.ite
  · exact (unsigned_inBounds 4).bind fun relid => u8_inBounds.bind fun tag =>
      .ite (tuple_inBounds.bind fun _ => u8_inBounds.bind fun next => updated_inBounds relid _ next) (updated_inBounds relid none tag)
  apply InBounds.ite
  · exact (unsigned_inBounds 4).bind fun _ => u8_inBounds.bind fun kind => .ite (.throw _) (tuple_inBounds.bind fun _ => .pure _)
  apply InBounds.ite
  · exact (signed_inBounds 4).bind fun n => u8_inBounds.bind fun _ => ((unsigned_inBounds 4).times n.toNat).bind fun _ => .pure _
  exact .ite (.pure _) (.throw _)

theorem decodeIndexing_eq (data : List UInt8) : decodeIndexing data = (decode data).mapError Fault.error := by
  unfold decodeIndexing decode
  rw [message_inBounds.same ⟨data, 0⟩ (Nat.zero_le _)]
  cases Reader.message ⟨data, 0⟩ with
  | error e => rfl
  | ok r => rfl

theorem take_delimited (n : Nat) : Delimited (Reader.take n) := by
  intro before rest bytes r read
  obtain ⟨enough, rfl, rfl⟩ := take_ok read
  have long : n ≤ rest.length := by
    have : before.length + n ≤ (before ++ rest).length := enough
    rw [List.length_append] at this
    omega
  have size : (rest.take n).length = n := List.length_take_of_le long
  have part : ((before ++ rest).drop before.length).take n = rest.take n := by rw [List.drop_left]
  refine ⟨rest.take n, rest.drop n, (List.take_append_drop n rest).symm, ?_, ?_⟩
  · rw [List.length_append, size]
  · show Exact _ _ (((before ++ rest).drop before.length).take n)
    rw [part]
    constructor
    · have consumes := take_consumes (rest.take n)
      rwa [size] at consumes
    · intro short within other front
      have less : short.length < n := by
        rcases Nat.lt_or_ge short.length n with less | all
        · exact less
        · exact absurd (within.eq_of_length_le (size.symm ▸ all : (rest.take n).length ≤ short.length)) other
      have truncated : (front ++ short).length < front.length + n := by
        rw [List.length_append]
        omega
      exact ⟨_, if_pos truncated⟩

theorem u8_delimited : Delimited Reader.u8 := (take_delimited 1).bind fun _ => .pure _

theorem unsigned_delimited (width : Nat) : Delimited (Reader.unsigned width) := (take_delimited width).bind fun _ => .pure _

theorem signed_delimited (width : Nat) : Delimited (Reader.signed width) := (take_delimited width).bind fun _ => .pure _

theorem cstring_delimited : Delimited Reader.cstring := by
  intro before rest s r read
  obtain ⟨bytes, after, free, split, rfl, rfl⟩ := cstring_ok read
  have dropped : (before ++ rest).drop before.length = rest := List.drop_left
  have split : rest = bytes ++ 0 :: after := dropped.symm.trans split
  refine ⟨bytes ++ [0], after, ?_, ?_, terminated_consumes free, ?_⟩
  · rw [split, List.append_assoc, List.singleton_append]
  · rw [List.length_append, List.length_append, List.length_singleton]
  · intro short within other front
    -- without its last byte the part has no terminator
    have within : short <+: bytes := (List.prefix_concat_iff.mp within).resolve_left other
    have unterminated : ((front ++ short).drop front.length).findIdx? (· = 0) = none := by
      rw [List.drop_left, List.findIdx?_eq_none_iff]
      exact fun b member => decide_eq_false fun zero => free (zero ▸ within.subset member)
    exact ⟨"unterminated string in pgoutput message", by simp only [Reader.cstring, unterminated]⟩

theorem column_delimited : Delimited Reader.column := by
  apply u8_delimited.bind
  intro tag
  refine .ite (.pure _) (.ite (.pure _) (.ite ?_ (.throw _)))
  exact (signed_delimited 4).bind fun len => (take_delimited len.toNat).bind fun bytes => .pure _

theorem tuple_delimited : Delimited Reader.tuple := (signed_delimited 2).bind fun ncols => column_delimited.times ncols.toNat

theorem relationColumn_delimited : Delimited Reader.relationColumn :=
  u8_delimited.bind fun _ => cstring_delimited.bind fun _ => (unsigned_delimited 4).bind fun _ => (signed_delimited 4).bind fun _ => .pure _

theorem updated_delimited (relid : Nat) (old : Option (UInt8 × Tuple)) (tag : UInt8) : Delimited (Reader.updated relid old tag) :=
  .ite (.throw _) (tuple_delimited.bind fun _ => .pure _)

theorem message_delimited : Delimited Reader.message := by
  apply u8_delimited.bind
  intro kind
  apply Delimited.ite
  · exact (unsigned_delimited 8).bind fun _ => (unsigned_delimited 8).bind fun _ => (unsigned_delimited 4).bind fun _ => .pure _
  apply Delimited.ite
  · exact u8_delimited.bind fun _ => (unsigned_delimited 8).bind fun _ => (unsigned_delimited 8).bind fun _ =>
      (unsigned_delimited 8).bind fun _ => .pure _
  apply Delimited.ite
  · exact (unsigned_delimited 4).bind fun _ => cstring_delimited.bind fun _ => cstring_delimited.bind fun _ => u8_delimited.bind fun _ =>
      (signed_delimited 2).bind fun ncols => (relationColumn_delimited.times ncols.toNat).bind fun _ => .pure _
  apply Delimited.ite
  · exact (unsigned_delimited 4).bind fun _ => u8_delimited.bind fun tag => .ite (.throw _) (tuple_delimited.bind fun _ => .pure _)
  apply Delimited.ite
  · exact (unsigned_delimited 4).bind fun relid => u8_delimited.bind fun tag =>
      .ite (tuple_delimited.bind fun _ => u8_delimited.bind fun next => updated_delimited relid _ next) (updated_delimited relid none tag)
  apply Delimited.ite
  · exact (unsigned_delimited 4).bind fun _ => u8_delimited.bind fun kind => .ite (.throw _) (tuple_delimited.bind fun _ => .pure _)
  apply Delimited.ite
  · exact (signed_delimited 4).bind fun n => u8_delimited.bind fun _ => ((unsigned_delimited 4).times n.toNat).bind fun _ => .pure _
  exact .ite (.pure _) (.throw _)

theorem decode_ok {data : List UInt8} {m : Message} : decode data = .ok m ↔ ∃ r, Reader.message ⟨data, 0⟩ = .ok (m, r) := by
  unfold decode
  cases Reader.message ⟨data, 0⟩ with
  | error e =>
      constructor
      · intro read
        cases read
      · intro ⟨r, read⟩
        cases read
  | ok s =>
      constructor
      · intro read
        exact ⟨s.2, congrArg (fun m => Except.ok (m, s.2)) (Except.ok.inj read)⟩
      · intro ⟨r, read⟩
        exact congrArg (fun s => Except.ok s.1) (Except.ok.inj read)

/-- A message ends where its bytes say, whatever follows, and never before. -/
theorem decode_delimits (data : List UInt8) :
    decodeIndexing data = (decode data).mapError Fault.error ∧ decodeIndexing data ≠ .error .outOfBounds ∧
      ∀ m, decode data = .ok m → ∃ n, n ≤ data.length ∧ Reader.message ⟨data, 0⟩ = .ok (m, ⟨data, n⟩) ∧
        (∀ trailing, decode (data.take n ++ trailing) = .ok m) ∧ ∀ k, k < n → ∃ e, decode (data.take k) = .error e := by
  refine ⟨decodeIndexing_eq data, ?_, ?_⟩
  · rw [decodeIndexing_eq]
    cases decode data with
    | error e => exact fun trap => nomatch Except.error.inj trap
    | ok m => exact fun trap => nomatch trap
  · intro m read
    obtain ⟨r, read⟩ := decode_ok.mp read
    obtain ⟨n, within, rfl, longer, shorter⟩ := message_delimited.run read
    refine ⟨n, within, read, fun trailing => decode_ok.mpr ⟨_, longer trailing⟩, ?_⟩
    intro k less
    obtain ⟨e, fails⟩ := shorter k less
    exact ⟨e, by rw [decode, fails]; rfl⟩

/-- A Truncate of one relation with a byte behind it. -/
theorem decode_delimits_truncate : ∃ n, n ≤ 11 ∧ Reader.message ⟨[84, 0, 0, 0, 1, 0, 0, 0, 0, 16, 7], 0⟩ =
      .ok (.truncate [16], ⟨[84, 0, 0, 0, 1, 0, 0, 0, 0, 16, 7], n⟩) ∧
    (∀ trailing, decode ([84, 0, 0, 0, 1, 0, 0, 0, 0, 16, 7].take n ++ trailing) = .ok (.truncate [16])) ∧
    ∀ k, k < n → ∃ e, decode ([84, 0, 0, 0, 1, 0, 0, 0, 0, 16, 7].take k) = .error e :=
  (decode_delimits [84, 0, 0, 0, 1, 0, 0, 0, 0, 16, 7]).2.2 (.truncate [16]) rfl

end Nabla
