import Nabla.Lib.Bytes
import Nabla.Lib.Cursor
import Nabla.Pgoutput

/-! `decode`: one pgoutput message, proto_version 1, read from its bytes. -/
namespace Nabla
open Bytes Cursors

abbrev Reader := Cursor UInt8

abbrev Reads (α : Type) := Parser UInt8 String α

/-- `{:#x}`. -/
def hexByte (b : UInt8) : String := "0x" ++ String.ofList (Nat.toDigits 16 b.toNat)

def Reader.take (n : Nat) : Reads (List UInt8) := fun r =>
  if r.data.length < r.pos + n then
    .error s!"truncated pgoutput message: wanted {n} bytes at offset {r.pos}, have {r.data.length}"
  else .ok ((r.data.drop r.pos).take n, { r with pos := r.pos + n })

def Reader.u8 : Reads UInt8 := do
  let bytes ← Reader.take 1
  pure (bytes.headD 0)

/-- `from_be_bytes` of an unsigned type. -/
def Reader.unsigned (width : Nat) : Reads Nat := do
  let bytes ← Reader.take width
  pure (number bytes)

/-- `from_be_bytes` of a signed type. -/
def Reader.signed (width : Nat) : Reads Int := do
  let bytes ← Reader.take width
  pure (Bytes.signed width (number bytes))

def Reader.u32 : Reads Nat := Reader.unsigned 4

def Reader.u64 : Reads Nat := Reader.unsigned 8

def Reader.i16 : Reads Int := Reader.signed 2

def Reader.i32 : Reads Int := Reader.signed 4

def Reader.cstring : Reads String := fun r =>
  let rest := r.data.drop r.pos
  match rest.findIdx? (· = 0) with
  | none => .error "unterminated string in pgoutput message"
  | some stop => .ok (fromUtf8Lossy (rest.take stop), { r with pos := r.pos + (stop + 1) })

def Reader.column : Reads ColumnValue := do
  let tag ← Reader.u8
  -- 'n', 'u' and 't'
  if tag = 110 then pure ColumnValue.null
  else if tag = 117 then pure ColumnValue.unchanged
  else if tag = 116 then
    let len ← Reader.i32
    let bytes ← Reader.take len.toNat
    pure (ColumnValue.text (fromUtf8Lossy bytes))
  else throw s!"unknown tuple column tag {hexByte tag}"

def Reader.tuple : Reads Tuple := do
  let ncols ← Reader.i16
  times Reader.column ncols.toNat

def Reader.relationColumn : Reads RelationColumn := do
  let flags ← Reader.u8
  let name ← Reader.cstring
  let typid ← Reader.u32
  let typmod ← Reader.i32
  pure ⟨name, flags &&& 1 = 1, typid, typmod, none⟩

def Reader.begin : Reads Message := do
  let finalLsn ← Reader.u64
  let _commitTs ← Reader.u64
  let xid ← Reader.u32
  pure (.begin finalLsn xid)

def Reader.commit : Reads Message := do
  let _flags ← Reader.u8
  let commitLsn ← Reader.u64
  let endLsn ← Reader.u64
  let _ts ← Reader.u64
  pure (.commit commitLsn endLsn)

def Reader.relation : Reads Message := do
  let id ← Reader.u32
  let nspname ← Reader.cstring
  let name ← Reader.cstring
  let replident ← Reader.u8
  let ncols ← Reader.i16
  let columns ← times Reader.relationColumn ncols.toNat
  pure (.relation ⟨id, nspname, name, replident, columns⟩)

def Reader.insert : Reads Message := do
  let relid ← Reader.u32
  let tag ← Reader.u8
  if tag ≠ 78 then throw s!"insert message: expected 'N', got {hexByte tag}"
  else
    let new ← Reader.tuple
    pure (.insert relid new)

def Reader.updated (relid : Nat) (old : Option (UInt8 × Tuple)) (tag : UInt8) : Reads Message :=
  if tag ≠ 78 then throw s!"update message: expected 'N', got {hexByte tag}"
  else do
    let new ← Reader.tuple
    pure (.update relid old new)

def Reader.update : Reads Message := do
  let relid ← Reader.u32
  let tag ← Reader.u8
  if tag = keyTuple || tag = fullOldTuple then
    let old ← Reader.tuple
    let next ← Reader.u8
    Reader.updated relid (some (tag, old)) next
  else Reader.updated relid none tag

def Reader.delete : Reads Message := do
  let relid ← Reader.u32
  let keyKind ← Reader.u8
  if keyKind ≠ keyTuple && keyKind ≠ fullOldTuple then
    throw s!"delete message: expected 'K' or 'O', got {hexByte keyKind}"
  else
    let old ← Reader.tuple
    pure (.delete relid keyKind old)

def Reader.truncate : Reads Message := do
  let n ← Reader.i32
  let _flags ← Reader.u8
  let relids ← times Reader.u32 n.toNat
  pure (.truncate relids)

def Reader.message : Reads Message := do
  let kind ← Reader.u8
  if kind = 66 then Reader.begin
  else if kind = 67 then Reader.commit
  else if kind = 82 then Reader.relation
  else if kind = 73 then Reader.insert
  else if kind = 85 then Reader.update
  else if kind = 68 then Reader.delete
  else if kind = 84 then Reader.truncate
  else if kind = 79 || kind = 77 || kind = 89 then pure (.ignored kind)
  else throw s!"unknown pgoutput message kind {hexByte kind}"

def decode (data : List UInt8) : Except String Message := (Reader.message ⟨data, 0⟩).map Prod.fst

/-- A column description with the flags byte, of which the lowest bit marks a key column. -/
structure WireColumn where
  flags : UInt8
  name : String
  typid : Nat
  typmod : Int

inductive OldKind where
  | key
  | full

def OldKind.tag : OldKind → UInt8
  | .key => keyTuple
  | .full => fullOldTuple

/-- A message as the server sends it, with the fields `Message` drops. -/
inductive WireMessage where
  | begin (finalLsn commitTs xid : Nat)
  | commit (flags : UInt8) (commitLsn endLsn ts : Nat)
  | relation (id : Nat) (nspname name : String) (replident : UInt8) (columns : List WireColumn)
  | insert (relid : Nat) (new : Tuple)
  | update (relid : Nat) (old : Option (OldKind × Tuple)) (new : Tuple)
  | delete (relid : Nat) (kind : OldKind) (old : Tuple)
  | truncate (flags : UInt8) (relids : List Nat)

def encodeCString (s : String) : List UInt8 := utf8 s ++ [0]

def encodeSigned (width : Nat) (i : Int) : List UInt8 := bigEndian width (complement width i)

def encodeColumn : ColumnValue → List UInt8
  | .null => [110]
  | .unchanged => [117]
  | .text s => [116] ++ (encodeSigned 4 (utf8 s).length ++ utf8 s)

def encodeTuple (tuple : Tuple) : List UInt8 := encodeSigned 2 tuple.length ++ tuple.flatMap encodeColumn

def WireColumn.encode (c : WireColumn) : List UInt8 :=
  [c.flags] ++ (encodeCString c.name ++ (bigEndian 4 c.typid ++ encodeSigned 4 c.typmod))

def WireMessage.encode : WireMessage → List UInt8
  | .begin finalLsn commitTs xid => [66] ++ (bigEndian 8 finalLsn ++ (bigEndian 8 commitTs ++ bigEndian 4 xid))
  | .commit flags commitLsn endLsn ts => [67] ++ ([flags] ++ (bigEndian 8 commitLsn ++ (bigEndian 8 endLsn ++ bigEndian 8 ts)))
  | .relation id nspname name replident columns =>
    [82] ++ (bigEndian 4 id ++ (encodeCString nspname ++ (encodeCString name ++ ([replident] ++
      (encodeSigned 2 columns.length ++ columns.flatMap WireColumn.encode)))))
  | .insert relid new => [73] ++ (bigEndian 4 relid ++ ([78] ++ encodeTuple new))
  | .update relid none new => [85] ++ (bigEndian 4 relid ++ ([78] ++ encodeTuple new))
  | .update relid (some (kind, old)) new =>
    [85] ++ (bigEndian 4 relid ++ ([kind.tag] ++ (encodeTuple old ++ ([78] ++ encodeTuple new))))
  | .delete relid kind old => [68] ++ (bigEndian 4 relid ++ ([kind.tag] ++ encodeTuple old))
  | .truncate flags relids => [84] ++ (encodeSigned 4 relids.length ++ ([flags] ++ relids.flatMap (bigEndian 4)))

def WireColumn.column (c : WireColumn) : RelationColumn := ⟨c.name, c.flags &&& 1 = 1, c.typid, c.typmod, none⟩

def WireMessage.message : WireMessage → Message
  | .begin finalLsn _ xid => .begin finalLsn xid
  | .commit _ commitLsn endLsn _ => .commit commitLsn endLsn
  | .relation id nspname name replident columns => .relation ⟨id, nspname, name, replident, columns.map WireColumn.column⟩
  | .insert relid new => .insert relid new
  | .update relid old new => .update relid (old.map fun o => (o.1.tag, o.2)) new
  | .delete relid kind old => .delete relid kind.tag old
  | .truncate _ relids => .truncate relids

def ColumnFits : ColumnValue → Prop
  | .text s => (utf8 s).length < 2 ^ 31
  | _ => True

structure TupleFits (tuple : Tuple) : Prop where
  count : tuple.length < 2 ^ 15
  columns : ∀ v ∈ tuple, ColumnFits v

def NulFree (s : String) : Prop := Char.ofNat 0 ∉ s.toList

structure WireColumn.Fits (c : WireColumn) : Prop where
  name : NulFree c.name
  typid : c.typid < 2 ^ 32
  typmod : InRange 4 c.typmod

def WireMessage.Fits : WireMessage → Prop
  | .begin finalLsn commitTs xid => finalLsn < 2 ^ 64 ∧ commitTs < 2 ^ 64 ∧ xid < 2 ^ 32
  | .commit _ commitLsn endLsn ts => commitLsn < 2 ^ 64 ∧ endLsn < 2 ^ 64 ∧ ts < 2 ^ 64
  | .relation id nspname name _ columns =>
    id < 2 ^ 32 ∧ NulFree nspname ∧ NulFree name ∧ columns.length < 2 ^ 15 ∧ ∀ c ∈ columns, c.Fits
  | .insert relid new => relid < 2 ^ 32 ∧ TupleFits new
  | .update relid old new => relid < 2 ^ 32 ∧ (∀ o ∈ old, TupleFits o.2) ∧ TupleFits new
  | .delete relid _ old => relid < 2 ^ 32 ∧ TupleFits old
  | .truncate _ relids => relids.length < 2 ^ 31 ∧ ∀ relid ∈ relids, relid < 2 ^ 32

theorem take_consumes (part : List UInt8) : Consumes (Reader.take part.length) part part := by
  intro before after
  have within : ¬ (before ++ part ++ after).length < before.length + part.length := by
    rw [List.length_append, List.length_append]
    omega
  rw [Reader.take, if_neg within, List.append_assoc, List.drop_left, List.take_left, List.length_append]

theorem u8_consumes (b : UInt8) : Consumes Reader.u8 [b] b := (take_consumes [b]).done (.pure b)

theorem unsigned_consumes {width n : Nat} (fits : n < 256 ^ width) :
    Consumes (Reader.unsigned width) (bigEndian width n) n := by
  have taken := take_consumes (bigEndian width n)
  rw [bigEndian_length] at taken
  refine taken.done ?_
  rw [number_bigEndian fits]
  exact .pure n

theorem signed_consumes {width : Nat} (some : 0 < width) {i : Int} (fits : InRange width i) :
    Consumes (Reader.signed width) (encodeSigned width i) i := by
  have taken := take_consumes (encodeSigned width i)
  rw [encodeSigned, bigEndian_length] at taken
  refine taken.done ?_
  rw [number_bigEndian (complement_lt width i), signed_complement some fits]
  exact .pure i

theorem u32_consumes {n : Nat} (fits : n < 2 ^ 32) : Consumes Reader.u32 (bigEndian 4 n) n := unsigned_consumes fits

theorem u64_consumes {n : Nat} (fits : n < 2 ^ 64) : Consumes Reader.u64 (bigEndian 8 n) n := unsigned_consumes fits

theorem inRange_natCast {width n : Nat} (fits : n < 256 ^ width / 2) : InRange width n := by
  refine ⟨?_, Int.ofNat_lt.mpr fits⟩
  omega

theorem count_consumes {n : Nat} (fits : n < 2 ^ 15) : Consumes Reader.i16 (encodeSigned 2 n) n :=
  signed_consumes (by decide) (inRange_natCast fits)

theorem length_consumes {n : Nat} (fits : n < 2 ^ 31) : Consumes Reader.i32 (encodeSigned 4 n) n :=
  signed_consumes (by decide) (inRange_natCast fits)

theorem findIdx?_terminated {bytes : List UInt8} (free : (0 : UInt8) ∉ bytes) (after : List UInt8) :
    (bytes ++ 0 :: after).findIdx? (· = 0) = some bytes.length := by
  have none : ∀ b ∈ bytes, decide (b = 0) = false := fun b member => decide_eq_false fun zero => free (zero ▸ member)
  rw [List.findIdx?_append, List.findIdx?_eq_none_iff.mpr none, List.findIdx?_cons, if_pos (decide_eq_true rfl), Option.none_or,
    Option.map_some, Nat.zero_add]

theorem terminated_consumes {bytes : List UInt8} (free : (0 : UInt8) ∉ bytes) :
    Consumes Reader.cstring (bytes ++ [0]) (fromUtf8Lossy bytes) := by
  intro before after
  have rest : (before ++ (bytes ++ [0]) ++ after).drop before.length = bytes ++ 0 :: after := by
    rw [List.append_assoc, List.drop_left, List.append_assoc, List.singleton_append]
  simp only [Reader.cstring, rest, findIdx?_terminated free, List.take_left]
  rw [List.length_append, List.length_append, List.length_singleton]

theorem cstring_consumes {s : String} (free : NulFree s) : Consumes Reader.cstring (encodeCString s) s := by
  have consumes := terminated_consumes (zero_notMem_utf8 free)
  rwa [fromUtf8Lossy_utf8] at consumes

theorem column_consumes {v : ColumnValue} (fits : ColumnFits v) : Consumes Reader.column (encodeColumn v) v := by
  cases v with
  | null => exact (u8_consumes 110).done (.pure ColumnValue.null)
  | unchanged => exact (u8_consumes 117).done (.pure ColumnValue.unchanged)
  | text s =>
      refine (u8_consumes 116).bind ((length_consumes fits).bind ?_)
      refine (take_consumes (utf8 s)).done ?_
      rw [fromUtf8Lossy_utf8]
      exact .pure (ColumnValue.text s)

theorem tuple_consumes {tuple : Tuple} (fits : TupleFits tuple) : Consumes Reader.tuple (encodeTuple tuple) tuple := by
  refine (count_consumes fits.count).bind ?_
  have items : Consumes (times Reader.column tuple.length) (tuple.flatMap encodeColumn) (tuple.map id) :=
    Consumes.times fun v member => column_consumes (fits.columns v member)
  rwa [List.map_id] at items

theorem relationColumn_consumes {c : WireColumn} (fits : c.Fits) : Consumes Reader.relationColumn c.encode c.column :=
  (u8_consumes c.flags).bind <| (cstring_consumes fits.name).bind <| (u32_consumes fits.typid).bind <|
    (signed_consumes (by decide) fits.typmod).done (.pure c.column)

theorem updated_consumes {relid : Nat} {old : Option (UInt8 × Tuple)} {new : Tuple} (fits : TupleFits new) :
    Consumes (Reader.updated relid old 78) (encodeTuple new) (.update relid old new) :=
  (tuple_consumes fits).done (.pure _)

theorem message_consumes {m : WireMessage} (fits : m.Fits) : Consumes Reader.message m.encode m.message := by
  cases m with
  | begin finalLsn commitTs xid =>
      obtain ⟨lsn, ts, id⟩ := fits
      exact (u8_consumes 66).bind <| (u64_consumes lsn).bind <| (u64_consumes ts).bind <| (u32_consumes id).done (.pure _)
  | commit flags commitLsn endLsn ts =>
      obtain ⟨commit, ending, time⟩ := fits
      exact (u8_consumes 67).bind <| (u8_consumes flags).bind <| (u64_consumes commit).bind <| (u64_consumes ending).bind <|
        (u64_consumes time).done (.pure _)
  | relation id nspname name replident columns =>
      obtain ⟨inRange, free, free', count, each⟩ := fits
      exact (u8_consumes 82).bind <| (u32_consumes inRange).bind <| (cstring_consumes free).bind <| (cstring_consumes free').bind <|
        (u8_consumes replident).bind <| (count_consumes count).bind <|
        (Consumes.times fun c member => relationColumn_consumes (each c member)).done (.pure _)
  | insert relid new =>
      obtain ⟨inRange, tuple⟩ := fits
      exact (u8_consumes 73).bind <| (u32_consumes inRange).bind <| (u8_consumes 78).bind <| (tuple_consumes tuple).done (.pure _)
  | update relid old new =>
      obtain ⟨inRange, olds, tuple⟩ := fits
      cases old with
      | none => exact (u8_consumes 85).bind <| (u32_consumes inRange).bind <| (u8_consumes 78).bind (updated_consumes tuple)
      | some old =>
          obtain ⟨kind, row⟩ := old
          have rest : Consumes (Reader.tuple >>= fun old => Reader.u8 >>= Reader.updated relid (some (kind.tag, old)))
              (encodeTuple row ++ ([78] ++ encodeTuple new)) (.update relid (some (kind.tag, row)) new) :=
            (tuple_consumes (olds _ rfl)).bind <| (u8_consumes 78).bind (updated_consumes tuple)
          cases kind with
          | key => exact (u8_consumes 85).bind <| (u32_consumes inRange).bind <| (u8_consumes keyTuple).bind rest
          | full => exact (u8_consumes 85).bind <| (u32_consumes inRange).bind <| (u8_consumes fullOldTuple).bind rest
  | delete relid kind old =>
      obtain ⟨inRange, tuple⟩ := fits
      cases kind with
      | key =>
          exact (u8_consumes 68).bind <| (u32_consumes inRange).bind <| (u8_consumes keyTuple).bind <|
            (tuple_consumes tuple).done (.pure _)
      | full =>
          exact (u8_consumes 68).bind <| (u32_consumes inRange).bind <| (u8_consumes fullOldTuple).bind <|
            (tuple_consumes tuple).done (.pure _)
  | truncate flags relids =>
      obtain ⟨count, each⟩ := fits
      have items : Consumes (times Reader.u32 relids.length) (relids.flatMap (bigEndian 4)) (relids.map id) :=
        Consumes.times fun relid member => u32_consumes (each relid member)
      rw [List.map_id] at items
      exact (u8_consumes 84).bind <| (length_consumes count).bind <| (u8_consumes flags).bind <| items.done (.pure _)

/-- Decoding the encoding of a message, whatever follows it, gives the message. -/
theorem decode_encode {m : WireMessage} (fits : m.Fits) (trailing : List UInt8) : decode (m.encode ++ trailing) = .ok m.message := by
  rw [decode, (message_consumes fits).run trailing]
  rfl

theorem decode_insert : decode ((WireMessage.insert 16 [.text "42", .null]).encode ++ [7]) = .ok (.insert 16 [.text "42", .null]) := by
  refine @decode_encode (.insert 16 [.text "42", .null]) ⟨by decide, by decide, fun v member => ?_⟩ [7]
  rcases List.mem_cons.mp member with rfl | member
  · show (utf8 "42").length < 2 ^ 31
    decide
  · obtain rfl := List.mem_singleton.mp member
    trivial

/-- `Decoder::feed`. -/
def Decoder.feedData (d : Decoder) (data : List UInt8) : Except String Decoder :=
  match decode data with
  | .error e => .error e
  | .ok m => d.feed m

def Decoder.feedRows (d : Decoder) : List (List UInt8) → Except String Decoder
  | [] => .ok d
  | data :: rows =>
    match d.feedData data with
    | .error e => .error e
    | .ok d' => d'.feedRows rows

theorem Decoder.feedRows_encode (d : Decoder) {messages : List WireMessage} (fits : ∀ m ∈ messages, m.Fits) :
    d.feedRows (messages.map WireMessage.encode) = d.feedAll (messages.map WireMessage.message) := by
  induction messages generalizing d with
  | nil => rfl
  | cons m messages ih =>
      have head := decode_encode (fits m List.mem_cons_self) []
      rw [List.append_nil] at head
      have rest := fun d' : Decoder => ih d' fun other member => fits other (List.mem_cons_of_mem m member)
      cases step : d.feed m.message with
      | error e => simp only [List.map_cons, Decoder.feedRows, Decoder.feedData, head, Decoder.feedAll, step]
      | ok d' => simp only [List.map_cons, Decoder.feedRows, Decoder.feedData, head, Decoder.feedAll, step, rest]

end Nabla
