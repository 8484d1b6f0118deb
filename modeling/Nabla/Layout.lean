import Nabla.Framing
import Nabla.Lib.Format

/-! What the bytes of a message are: every count and length field with what stands behind it,
and which of these messages `decode` accepts. -/
namespace Nabla
open Bytes Cursors

variable {η : Type}

/-- Items behind a signed field that says how many they are. -/
structure Counted (α : Type) where
  count : Int
  items : List α

/-- A value of a tuple; a text stands behind its signed length. -/
inductive LaidValue where
  | null
  | unchanged
  | text (bytes : Counted UInt8)

/-- A column description; the name is the bytes before its terminator. -/
structure LaidColumn where
  flags : UInt8
  name : List UInt8
  typid : Nat
  typmod : Int

/-- A message with all its fields, as the bytes have them. -/
inductive LaidMessage where
  | begin (finalLsn commitTs xid : Nat)
  | commit (flags : UInt8) (commitLsn endLsn ts : Nat)
  | relation (id : Nat) (nspname name : List UInt8) (replident : UInt8) (columns : Counted LaidColumn)
  | insert (relid : Nat) (new : Counted LaidValue)
  | update (relid : Nat) (old : Option (OldKind × Counted LaidValue)) (new : Counted LaidValue)
  | delete (relid : Nat) (kind : OldKind) (old : Counted LaidValue)
  | truncate (flags : UInt8) (relids : Counted Nat)
  | ignored (kind : UInt8)

def LaidValue.tag : LaidValue → UInt8
  | .null => 110
  | .unchanged => 117
  | .text _ => 116

def LaidValue.body : LaidValue → List UInt8
  | .text bytes => encodeSigned 4 bytes.count ++ bytes.items
  | _ => []

def LaidValue.encode (v : LaidValue) : List UInt8 := [v.tag] ++ v.body

def LaidColumn.encode (c : LaidColumn) : List UInt8 :=
  [c.flags] ++ ((c.name ++ [0]) ++ (bigEndian 4 c.typid ++ encodeSigned 4 c.typmod))

def encodeLaidTuple (tuple : Counted LaidValue) : List UInt8 := encodeSigned 2 tuple.count ++ tuple.items.flatMap LaidValue.encode

/-- An update has the new tuple behind its relation, or the old one and then the new. -/
def updateTag : Option (OldKind × Counted LaidValue) → UInt8
  | none => 78
  | some (kind, _) => kind.tag

def updateBody (new : Counted LaidValue) : Option (OldKind × Counted LaidValue) → List UInt8
  | none => encodeLaidTuple new
  | some (_, old) => encodeLaidTuple old ++ ([78] ++ encodeLaidTuple new)

def LaidMessage.kind : LaidMessage → UInt8
  | .begin .. => 66
  | .commit .. => 67
  | .relation .. => 82
  | .insert .. => 73
  | .update .. => 85
  | .delete .. => 68
  | .truncate .. => 84
  | .ignored kind => kind

def LaidMessage.body : LaidMessage → List UInt8
  | .begin finalLsn commitTs xid => bigEndian 8 finalLsn ++ (bigEndian 8 commitTs ++ bigEndian 4 xid)
  | .commit flags commitLsn endLsn ts => [flags] ++ (bigEndian 8 commitLsn ++ (bigEndian 8 endLsn ++ bigEndian 8 ts))
  | .relation id nspname name replident columns =>
    bigEndian 4 id ++ ((nspname ++ [0]) ++ ((name ++ [0]) ++ ([replident] ++
      (encodeSigned 2 columns.count ++ columns.items.flatMap LaidColumn.encode))))
  | .insert relid new => bigEndian 4 relid ++ ([78] ++ encodeLaidTuple new)
  | .update relid old new => bigEndian 4 relid ++ ([updateTag old] ++ updateBody new old)
  | .delete relid kind old => bigEndian 4 relid ++ ([kind.tag] ++ encodeLaidTuple old)
  | .truncate flags relids => encodeSigned 4 relids.count ++ ([flags] ++ relids.items.flatMap (bigEndian 4))
  | .ignored _ => []

def LaidMessage.encode (w : LaidMessage) : List UInt8 := [w.kind] ++ w.body

def LaidValue.value : LaidValue → ColumnValue
  | .null => .null
  | .unchanged => .unchanged
  | .text bytes => .text (fromUtf8Lossy bytes.items)

def LaidColumn.column (c : LaidColumn) : RelationColumn := ⟨fromUtf8Lossy c.name, c.flags &&& 1 = 1, c.typid, c.typmod, none⟩

def laidTuple (tuple : Counted LaidValue) : Tuple := tuple.items.map LaidValue.value

def LaidMessage.message : LaidMessage → Message
  | .begin finalLsn _ xid => .begin finalLsn xid
  | .commit _ commitLsn endLsn _ => .commit commitLsn endLsn
  | .relation id nspname name replident columns =>
    .relation ⟨id, fromUtf8Lossy nspname, fromUtf8Lossy name, replident, columns.items.map LaidColumn.column⟩
  | .insert relid new => .insert relid (laidTuple new)
  | .update relid old new => .update relid (old.map fun o => (o.1.tag, laidTuple o.2)) (laidTuple new)
  | .delete relid kind old => .delete relid kind.tag (laidTuple old)
  | .truncate _ relids => .truncate relids.items
  | .ignored kind => .ignored kind

/-- A size field of `width` bytes with as many items behind it as it says, and none behind a
negative one. -/
structure Counted.Fits {α : Type} (width : Nat) (item : α → Prop) (c : Counted α) : Prop where
  count : InRange width c.count
  length : c.items.length = c.count.toNat
  items : ∀ a ∈ c.items, item a

def LaidValue.Fits : LaidValue → Prop
  | .text bytes => bytes.Fits 4 fun _ => True
  | _ => True

structure LaidColumn.Fits (c : LaidColumn) : Prop where
  name : (0 : UInt8) ∉ c.name
  typid : c.typid < 2 ^ 32
  typmod : InRange 4 c.typmod

def LaidTupleFits (tuple : Counted LaidValue) : Prop := tuple.Fits 2 LaidValue.Fits

def LaidMessage.Fits : LaidMessage → Prop
  | .begin finalLsn commitTs xid => finalLsn < 2 ^ 64 ∧ commitTs < 2 ^ 64 ∧ xid < 2 ^ 32
  | .commit _ commitLsn endLsn ts => commitLsn < 2 ^ 64 ∧ endLsn < 2 ^ 64 ∧ ts < 2 ^ 64
  | .relation id nspname name _ columns =>
    id < 2 ^ 32 ∧ (0 : UInt8) ∉ nspname ∧ (0 : UInt8) ∉ name ∧ columns.Fits 2 LaidColumn.Fits
  | .insert relid new => relid < 2 ^ 32 ∧ LaidTupleFits new
  | .update relid old new => relid < 2 ^ 32 ∧ (∀ o ∈ old, LaidTupleFits o.2) ∧ LaidTupleFits new
  | .delete relid _ old => relid < 2 ^ 32 ∧ LaidTupleFits old
  | .truncate _ relids => relids.Fits 4 (· < 2 ^ 32)
  | .ignored kind => kind = 79 ∨ kind = 77 ∨ kind = 89

/-- What a size field says, and how much stands behind it. -/
structure Size where
  declared : Int
  actual : Nat

def Counted.size {α : Type} (c : Counted α) : Size := ⟨c.count, c.items.length⟩

def LaidValue.sizes : LaidValue → List Size
  | .text bytes => [bytes.size]
  | _ => []

def laidTupleSizes (tuple : Counted LaidValue) : List Size := tuple.size :: tuple.items.flatMap LaidValue.sizes

def LaidMessage.sizes : LaidMessage → List Size
  | .relation _ _ _ _ columns => [columns.size]
  | .insert _ new => laidTupleSizes new
  | .update _ old new => (old.toList.flatMap fun o => laidTupleSizes o.2) ++ laidTupleSizes new
  | .delete _ _ old => laidTupleSizes old
  | .truncate _ relids => [relids.size]
  | _ => []

theorem take_format (n : Nat) : Format (Reader.take n) (fun bytes : List UInt8 => bytes.length = n) id id where
  delimited := take_delimited n
  consumes := by
    intro bytes length
    subst length
    exact take_consumes bytes
  written := by
    intro part bytes read
    obtain ⟨_, is, stops⟩ := take_ok (read.run [])
    have is : bytes = ((part ++ []).drop 0).take n := is
    have position : part.length = 0 + n := (Cursor.mk.inj stops).2
    rw [Nat.zero_add] at position
    rw [List.append_nil, List.drop_zero, ← position, List.take_length] at is
    exact ⟨part, position, rfl, is⟩
  unique := fun _ _ _ _ same => same

theorem unsigned_format (width : Nat) : Format (Reader.unsigned width) (· < 256 ^ width) (bigEndian width) id := by
  apply ((take_format width).done number).map number
  · intro n
    constructor
    · exact fun fits => ⟨bigEndian width n, bigEndian_length width n, (number_bigEndian fits).symm⟩
    · rintro ⟨bytes, length, is⟩
      rw [is, ← length]
      exact number_lt bytes
  · intro bytes length
    rw [← length, bigEndian_number]
    rfl
  · exact fun _ _ => rfl

theorem signed_format {width : Nat} (some : 0 < width) : Format (Reader.signed width) (InRange width) (encodeSigned width) id := by
  apply ((take_format width).done fun bytes => Bytes.signed width (number bytes)).map fun bytes => Bytes.signed width (number bytes)
  · intro i
    constructor
    · intro fits
      refine ⟨encodeSigned width i, bigEndian_length width _, ?_⟩
      rw [encodeSigned, number_bigEndian (complement_lt width i), signed_complement some fits]
    · rintro ⟨bytes, length, is⟩
      rw [is]
      exact signed_inRange some (length ▸ number_lt bytes)
  · intro bytes length
    have fits : number bytes < 256 ^ width := length ▸ number_lt bytes
    rw [encodeSigned, complement_signed fits, ← length, bigEndian_number]
    rfl
  · exact fun _ _ => rfl

theorem u8_format : Format Reader.u8 (fun _ : UInt8 => True) (fun b => [b]) id := by
  apply ((take_format 1).done fun bytes => bytes.headD 0).map fun bytes => bytes.headD 0
  · exact fun b => ⟨fun _ => ⟨[b], rfl, rfl⟩, fun _ => trivial⟩
  · intro bytes length
    obtain ⟨b, rfl⟩ := List.length_eq_one_iff.mp length
    rfl
  · exact fun _ _ => rfl

theorem cstring_format : Format Reader.cstring (fun bytes => (0 : UInt8) ∉ bytes) (fun bytes => bytes ++ [0]) fromUtf8Lossy where
  delimited := cstring_delimited
  consumes := fun _ free => terminated_consumes free
  written := by
    intro part s read
    obtain ⟨bytes, after, free, is, value, stops⟩ := cstring_ok (read.run [])
    have is : (part ++ []).drop 0 = bytes ++ 0 :: after := is
    have position : part.length = 0 + (bytes.length + 1) := (Cursor.mk.inj stops).2
    rw [List.append_nil, List.drop_zero] at is
    have length := congrArg List.length is
    rw [List.length_append, List.length_cons] at length
    have nothing : after = [] := List.length_eq_zero_iff.mp (by omega)
    exact ⟨bytes, free, by rw [is, nothing], value⟩
  unique := fun _ _ _ _ same => List.append_cancel_right same

theorem counted_format {α : Type} {width : Nat} (some : 0 < width) {p : Int → Reads α} {good : η → Prop} {encode : η → List UInt8}
    {value : List η → α}
    (each : ∀ n, Format (p n) (fun items => items.length = n.toNat ∧ ∀ item ∈ items, good item) (fun items => items.flatMap encode) value) :
    Format (Reader.signed width >>= p) (Counted.Fits width good) (fun c => encodeSigned width c.count ++ c.items.flatMap encode)
      (fun c => value c.items) := by
  refine ((signed_format some).bind fun n _ => each n).map (fun i => ⟨i.1, i.2⟩) ?_ (fun _ _ => rfl) fun _ _ => rfl
  intro c
  constructor
  · intro fits
    exact ⟨(c.count, c.items), ⟨fits.count, fits.length, fits.items⟩, rfl⟩
  · intro ⟨i, ⟨count, length, items⟩, is⟩
    subst is
    exact ⟨count, length, items⟩

theorem text_format : Format (Reader.i32 >>= fun len => Reader.take len.toNat >>= fun bytes => pure (ColumnValue.text (fromUtf8Lossy bytes)))
    (fun v : LaidValue => v.Fits ∧ v.tag = 116) LaidValue.body LaidValue.value := by
  refine ((signed_format (by decide)).bind fun len _ => (take_format len.toNat).done fun bytes => ColumnValue.text (fromUtf8Lossy bytes)).map
    (fun i => LaidValue.text ⟨i.1, i.2⟩) ?_ (fun _ _ => rfl) fun _ _ => rfl
  intro v
  constructor
  · intro ⟨fits, tag⟩
    cases v with
    | null => exact absurd tag (by decide)
    | unchanged => exact absurd tag (by decide)
    | text bytes => exact ⟨(bytes.count, bytes.items), ⟨fits.count, fits.length⟩, rfl⟩
  · intro ⟨i, ⟨count, length⟩, is⟩
    subst is
    exact ⟨⟨count, length, fun _ _ => trivial⟩, rfl⟩

theorem column_format : Format Reader.column LaidValue.Fits LaidValue.encode LaidValue.value := by
  apply u8_format.keyed
  · exact fun _ _ => trivial
  · intro tag _
    show Format (if tag = 110 then _ else _) _ _ _
    split
    · rename_i null
      subst null
      refine .single .null (fun v => ?_) rfl rfl
      cases v <;> simp [LaidValue.Fits, LaidValue.tag]
    split
    · rename_i unchanged
      subst unchanged
      refine .single .unchanged (fun v => ?_) rfl rfl
      cases v <;> simp [LaidValue.Fits, LaidValue.tag]
    split
    · rename_i text
      subst text
      exact text_format
    · rename_i null unchanged text
      refine .throw _ fun v ⟨_, is⟩ => ?_
      cases v with
      | null => exact null is.symm
      | unchanged => exact unchanged is.symm
      | text bytes => exact text is.symm

theorem tuple_format : Format Reader.tuple LaidTupleFits encodeLaidTuple laidTuple :=
  counted_format (by decide) fun n => column_format.times n.toNat

theorem relationColumn_format : Format Reader.relationColumn LaidColumn.Fits LaidColumn.encode LaidColumn.column := by
  refine (u8_format.bind fun flags _ => cstring_format.bind fun name _ => (unsigned_format 4).bind fun typid _ =>
    (signed_format (by decide)).done fun typmod => (⟨fromUtf8Lossy name, flags &&& 1 = 1, typid, typmod, none⟩ : RelationColumn)).map
    (fun i => ⟨i.1, i.2.1, i.2.2.1, i.2.2.2⟩) ?_ (fun _ _ => rfl) fun _ _ => rfl
  intro c
  constructor
  · intro fits
    exact ⟨(c.flags, c.name, c.typid, c.typmod), ⟨trivial, fits.name, fits.typid, fits.typmod⟩, rfl⟩
  · intro ⟨i, ⟨_, name, typid, typmod⟩, is⟩
    subst is
    exact ⟨name, typid, typmod⟩

theorem expect_format {α : Type} (tag : UInt8) (error : UInt8 → String) {p : Reads α} {good : η → Prop} {encode : η → List UInt8} {value : η → α}
    (rest : Format p good encode value) :
    Format (Reader.u8 >>= fun next => if next ≠ tag then throw (error next) else p) good (fun i => [tag] ++ encode i) value := by
  have keyed : Format (Reader.u8 >>= fun next => if next ≠ tag then throw (error next) else p) good
      (fun i => [(fun _ => tag) i] ++ encode i) value := by
    apply u8_format.keyed
    · exact fun _ _ => trivial
    · intro next _
      show Format (if next ≠ tag then _ else _) _ _ _
      split
      · rename_i other
        exact .throw _ fun i ⟨_, is⟩ => other is.symm
      · rename_i same
        refine rest.map id (fun i => ?_) (fun _ _ => rfl) fun _ _ => rfl
        constructor
        · exact fun ⟨member, _⟩ => ⟨i, member, rfl⟩
        · intro ⟨j, member, is⟩
          subst is
          exact ⟨member, (not_not.mp same).symm⟩
  exact keyed

def OfKind (kind : UInt8) (w : LaidMessage) : Prop := w.Fits ∧ w.kind = kind

theorem kind_format {kind : UInt8} {p : Reads Message} {good : η → Prop} {encode : η → List UInt8} {value : η → Message}
    (fields : Format p good encode value) (item : η → LaidMessage) (fits : ∀ d, good d ↔ (item d).Fits) (is : ∀ d, (item d).kind = kind)
    (onto : ∀ w : LaidMessage, w.Fits → w.kind = kind → ∃ d, w = item d) (encodes : ∀ d, (item d).body = encode d)
    (values : ∀ d, (item d).message = value d) : Format p (OfKind kind) LaidMessage.body LaidMessage.message := by
  refine fields.map item (fun w => ?_) (fun d _ => encodes d) fun d _ => values d
  constructor
  · intro ⟨inRange, same⟩
    obtain ⟨d, rfl⟩ := onto w inRange same
    exact ⟨d, (fits d).mpr inRange, rfl⟩
  · intro ⟨d, member, same⟩
    subst same
    exact ⟨(fits d).mp member, is d⟩

theorem begin_format : Format Reader.begin (OfKind 66) LaidMessage.body LaidMessage.message := by
  refine kind_format ((unsigned_format 8).bind fun finalLsn _ => (unsigned_format 8).bind fun _ _ =>
    (unsigned_format 4).done fun xid => Message.begin finalLsn xid) (fun i => .begin i.1 i.2.1 i.2.2) (fun _ => Iff.rfl) (fun _ => rfl) ?_
    (fun _ => rfl) fun _ => rfl
  intro w fits kind
  cases w with
  | begin finalLsn commitTs xid => exact ⟨(finalLsn, commitTs, xid), rfl⟩
  | _ => grind [LaidMessage.Fits, LaidMessage.kind]

theorem commit_format : Format Reader.commit (OfKind 67) LaidMessage.body LaidMessage.message := by
  refine kind_format (u8_format.bind fun _ _ => (unsigned_format 8).bind fun commitLsn _ => (unsigned_format 8).bind fun endLsn _ =>
    (unsigned_format 8).done fun _ => Message.commit commitLsn endLsn) (fun i => .commit i.1 i.2.1 i.2.2.1 i.2.2.2)
    (fun _ => iff_of_eq (true_and _)) (fun _ => rfl) ?_ (fun _ => rfl) fun _ => rfl
  intro w fits kind
  cases w with
  | commit flags commitLsn endLsn ts => exact ⟨(flags, commitLsn, endLsn, ts), rfl⟩
  | _ => grind [LaidMessage.Fits, LaidMessage.kind]

theorem relation_format : Format Reader.relation (OfKind 82) LaidMessage.body LaidMessage.message := by
  refine kind_format ((unsigned_format 4).bind fun id _ => cstring_format.bind fun nspname _ => cstring_format.bind fun name _ =>
    u8_format.bind fun replident _ => counted_format (by decide) fun n => (relationColumn_format.times n.toNat).done fun columns =>
      Message.relation ⟨id, fromUtf8Lossy nspname, fromUtf8Lossy name, replident, columns⟩)
    (fun i => .relation i.1 i.2.1 i.2.2.1 i.2.2.2.1 i.2.2.2.2) ?_ (fun _ => rfl) ?_ (fun _ => rfl) fun _ => rfl
  · exact fun i => and_congr_right fun _ => and_congr_right fun _ => and_congr_right fun _ => iff_of_eq (true_and _)
  intro w fits kind
  cases w with
  | relation id nspname name replident columns => exact ⟨(id, nspname, name, replident, columns), rfl⟩
  | _ => grind [LaidMessage.Fits, LaidMessage.kind]

theorem insert_format : Format Reader.insert (OfKind 73) LaidMessage.body LaidMessage.message := by
  refine kind_format ((unsigned_format 4).bind fun relid _ => expect_format 78 _ (tuple_format.done (Message.insert relid)))
    (fun i => .insert i.1 i.2) (fun _ => Iff.rfl) (fun _ => rfl) ?_ (fun _ => rfl) fun _ => rfl
  intro w fits kind
  cases w with
  | insert relid new => exact ⟨(relid, new), rfl⟩
  | _ => grind [LaidMessage.Fits, LaidMessage.kind]

theorem truncate_format : Format Reader.truncate (OfKind 84) LaidMessage.body LaidMessage.message := by
  refine kind_format ((signed_format (by decide)).bind fun n _ => u8_format.bind fun _ _ =>
    ((unsigned_format 4).times n.toNat).done Message.truncate) (fun i => .truncate i.2.1 ⟨i.1, i.2.2⟩) ?_ (fun _ => rfl) ?_ (fun _ => rfl) ?_
  · intro i
    constructor
    · exact fun ⟨count, _, length, items⟩ => ⟨count, length, items⟩
    · exact fun fits => ⟨fits.count, trivial, fits.length, fits.items⟩
  · intro w fits kind
    cases w with
    | truncate flags relids => exact ⟨(relids.count, flags, relids.items), rfl⟩
    | _ => grind [LaidMessage.Fits, LaidMessage.kind]
  · intro i
    show Message.truncate i.2.2 = Message.truncate (i.2.2.map id)
    rw [List.map_id]

theorem OldKind.tag_cases {tag : UInt8} (old : tag = keyTuple ∨ tag = fullOldTuple) : ∃ kind : OldKind, kind.tag = tag := by
  rcases old with rfl | rfl
  · exact ⟨.key, rfl⟩
  · exact ⟨.full, rfl⟩

theorem OldKind.tag_injective : Function.Injective OldKind.tag := by
  intro one other same
  cases one <;> cases other <;> first | rfl | exact absurd same (by decide)

theorem OldKind.tag_old (kind : OldKind) : kind.tag = keyTuple ∨ kind.tag = fullOldTuple := by
  cases kind
  · exact .inl rfl
  · exact .inr rfl

theorem updateTag_some {old : Option (OldKind × Counted LaidValue)} {kind : OldKind} (is : updateTag old = kind.tag) :
    ∃ tuple, old = some (kind, tuple) := by
  cases old with
  | none =>
      have is : (78 : UInt8) = kind.tag := is
      cases kind <;> exact absurd is (by decide)
  | some old =>
      obtain ⟨kind', tuple⟩ := old
      obtain rfl := OldKind.tag_injective is
      exact ⟨tuple, rfl⟩

theorem updateTag_none {old : Option (OldKind × Counted LaidValue)} (other : ¬ (updateTag old = keyTuple ∨ updateTag old = fullOldTuple)) :
    old = none := by
  cases old with
  | none => rfl
  | some old => exact absurd old.1.tag_old other

theorem delete_format : Format Reader.delete (OfKind 68) LaidMessage.body LaidMessage.message := by
  have rest : ∀ relid, Format (Reader.u8 >>= fun keyKind =>
        if keyKind ≠ keyTuple && keyKind ≠ fullOldTuple then throw s!"delete message: expected 'K' or 'O', got {hexByte keyKind}"
        else Reader.tuple >>= fun old => pure (Message.delete relid keyKind old))
      (fun i : OldKind × Counted LaidValue => LaidTupleFits i.2) (fun i => [i.1.tag] ++ encodeLaidTuple i.2)
      fun i => Message.delete relid i.1.tag (laidTuple i.2) := by
    intro relid
    apply u8_format.keyed
    · exact fun _ _ => trivial
    · intro tag _
      show Format (if tag ≠ keyTuple && tag ≠ fullOldTuple then _ else _) _ _ _
      split
      · rename_i neither
        refine .throw _ fun i ⟨_, is⟩ => ?_
        have old := i.1.tag_old
        rw [is] at old
        grind
      · rename_i old
        obtain ⟨kind, rfl⟩ := OldKind.tag_cases (show tag = keyTuple ∨ tag = fullOldTuple by grind)
        refine (tuple_format.done (Message.delete relid kind.tag)).map (fun old => (kind, old)) (fun i => ?_) (fun _ _ => rfl) fun _ _ => rfl
        constructor
        · intro ⟨fits, is⟩
          exact ⟨i.2, fits, Prod.ext (OldKind.tag_injective is) rfl⟩
        · intro ⟨old, fits, is⟩
          subst is
          exact ⟨fits, rfl⟩
  refine kind_format ((unsigned_format 4).bind fun relid _ => rest relid) (fun i => .delete i.1 i.2.1 i.2.2) (fun _ => Iff.rfl)
    (fun _ => rfl) ?_ (fun _ => rfl) fun _ => rfl
  intro w fits kind
  cases w with
  | delete relid oldKind old => exact ⟨(relid, oldKind, old), rfl⟩
  | _ => grind [LaidMessage.Fits, LaidMessage.kind]

theorem updated_format (relid : Nat) (old : Option (UInt8 × Tuple)) :
    Format (Reader.u8 >>= Reader.updated relid old) LaidTupleFits (fun new => [78] ++ encodeLaidTuple new)
      fun new => Message.update relid old (laidTuple new) :=
  expect_format 78 _ (tuple_format.done (Message.update relid old))

theorem update_format : Format Reader.update (OfKind 85) LaidMessage.body LaidMessage.message := by
  have rest : ∀ relid, Format (Reader.u8 >>= fun tag =>
        if tag = keyTuple || tag = fullOldTuple then
          Reader.tuple >>= fun old => Reader.u8 >>= Reader.updated relid (some (tag, old))
        else Reader.updated relid none tag)
      (fun i : Option (OldKind × Counted LaidValue) × Counted LaidValue => (∀ o ∈ i.1, LaidTupleFits o.2) ∧ LaidTupleFits i.2)
      (fun i => [updateTag i.1] ++ updateBody i.2 i.1)
      fun i => Message.update relid (i.1.map fun o => (o.1.tag, laidTuple o.2)) (laidTuple i.2) := by
    intro relid
    apply u8_format.keyed
    · exact fun _ _ => trivial
    · intro tag _
      show Format (if tag = keyTuple || tag = fullOldTuple then _ else _) _ _ _
      split
      · rename_i old
        obtain ⟨kind, rfl⟩ := OldKind.tag_cases (show tag = keyTuple ∨ tag = fullOldTuple by grind)
        refine (tuple_format.bind fun old _ => updated_format relid (some (kind.tag, laidTuple old))).map
          (fun i => (some (kind, i.1), i.2)) (fun i => ?_) (fun _ _ => rfl) fun _ _ => rfl
        constructor
        · intro ⟨⟨olds, fits⟩, is⟩
          obtain ⟨tuple, same⟩ := updateTag_some is
          exact ⟨(tuple, i.2), ⟨olds _ same, fits⟩, Prod.ext same rfl⟩
        · intro ⟨tuples, ⟨fits, fits'⟩, is⟩
          subst is
          exact ⟨⟨fun o member => Option.some.inj member ▸ fits, fits'⟩, rfl⟩
      · rename_i neither
        have alone : ∀ i : Option (OldKind × Counted LaidValue) × Counted LaidValue, updateTag i.1 = tag → i.1 = none ∧ tag = 78 := by
          intro i is
          have none := updateTag_none (show ¬ (updateTag i.1 = keyTuple ∨ updateTag i.1 = fullOldTuple) by grind)
          rw [none] at is
          exact ⟨none, is.symm⟩
        unfold Reader.updated
        split
        · rename_i other
          exact .throw _ fun i ⟨_, is⟩ => other (alone i is).2
        · rename_i new
          refine (tuple_format.done (Message.update relid none)).map (fun tuple => (none, tuple)) (fun i => ?_) ?_ fun _ _ => rfl
          · constructor
            · intro ⟨⟨_, fits⟩, is⟩
              exact ⟨i.2, fits, Prod.ext (alone i is).1 rfl⟩
            · intro ⟨tuple, fits, is⟩
              subst is
              exact ⟨⟨fun o member => absurd member (Option.not_mem_none o), fits⟩, (not_not.mp new).symm⟩
          · exact fun _ _ => rfl
  refine kind_format ((unsigned_format 4).bind fun relid _ => rest relid) (fun i => .update i.1 i.2.1 i.2.2) (fun _ => Iff.rfl)
    (fun _ => rfl) ?_ (fun _ => rfl) fun _ => rfl
  intro w fits kind
  cases w with
  | update relid old new => exact ⟨(relid, old, new), rfl⟩
  | _ => grind [LaidMessage.Fits, LaidMessage.kind]

theorem ignored_format {kind : UInt8} (is : kind = 79 ∨ kind = 77 ∨ kind = 89) :
    Format (pure (Message.ignored kind) : Reads Message) (OfKind kind) LaidMessage.body LaidMessage.message := by
  refine .single (.ignored kind) (fun w => ?_) rfl rfl
  constructor
  · intro ⟨fits, same⟩
    cases w <;> grind [LaidMessage.Fits, LaidMessage.kind]
  · intro same
    subst same
    exact ⟨is, rfl⟩

theorem LaidMessage.Fits.kind_cases {w : LaidMessage} (fits : w.Fits) :
    w.kind = 66 ∨ w.kind = 67 ∨ w.kind = 82 ∨ w.kind = 73 ∨ w.kind = 85 ∨ w.kind = 68 ∨ w.kind = 84 ∨
      w.kind = 79 ∨ w.kind = 77 ∨ w.kind = 89 := by
  cases w with
  | ignored kind =>
      have fits : kind = 79 ∨ kind = 77 ∨ kind = 89 := fits
      simp only [LaidMessage.kind, fits, or_true]
  | _ => simp only [LaidMessage.kind, true_or, or_true]

theorem message_format : Format Reader.message LaidMessage.Fits LaidMessage.encode LaidMessage.message := by
  apply u8_format.keyed
  · exact fun _ _ => trivial
  · intro kind _
    show Format (if kind = 66 then _ else _) (OfKind kind) _ _
    split
    · rename_i is
      obtain rfl : kind = 66 := is
      exact begin_format
    split
    · rename_i is
      obtain rfl : kind = 67 := is
      exact commit_format
    split
    · rename_i is
      obtain rfl : kind = 82 := is
      exact relation_format
    split
    · rename_i is
      obtain rfl : kind = 73 := is
      exact insert_format
    split
    · rename_i is
      obtain rfl : kind = 85 := is
      exact update_format
    split
    · rename_i is
      obtain rfl : kind = 68 := is
      exact delete_format
    split
    · rename_i is
      obtain rfl : kind = 84 := is
      exact truncate_format
    split
    · rename_i is
      exact ignored_format (by grind)
    · refine .throw _ fun w ⟨fits, is⟩ => ?_
      have := fits.kind_cases
      grind

/-- What `decode` accepts: the messages with every field in its range and as many items behind
a size as it says, none behind a negative one. -/
theorem decode_iff {data : List UInt8} {m : Message} :
    decode data = .ok m ↔ ∃ w : LaidMessage, ∃ trailing, w.Fits ∧ data = w.encode ++ trailing ∧ m = w.message :=
  decode_ok.trans message_format.run_iff

/-- The bytes are those of the message, and every count and length in them is the number of
items or bytes that were taken for it. -/
def Honoured (data : List UInt8) (m : Message) : Prop :=
  ∃ w : LaidMessage, ∃ trailing, w.Fits ∧ data = w.encode ++ trailing ∧ m = w.message ∧ ∀ s ∈ w.sizes, s.declared = s.actual

def LaidMessage.Negative (w : LaidMessage) : Prop := ∃ s ∈ w.sizes, s.declared < 0

/-- No message at the front of the bytes has a negative count or length. -/
def NonNegative (data : List UInt8) : Prop := ∀ (w : LaidMessage) (trailing : List UInt8), w.Fits → data = w.encode ++ trailing → ¬ w.Negative

theorem Counted.Fits.size {α : Type} {width : Nat} {item : α → Prop} {c : Counted α} (fits : c.Fits width item) :
    c.size.actual = c.size.declared.toNat := fits.length

theorem laidTupleSizes_actual {tuple : Counted LaidValue} (fits : LaidTupleFits tuple) :
    ∀ s ∈ laidTupleSizes tuple, s.actual = s.declared.toNat := by
  intro s member
  rcases List.mem_cons.mp member with rfl | member
  · exact fits.size
  · obtain ⟨v, here, member⟩ := List.mem_flatMap.mp member
    cases v with
    | null => exact absurd member List.not_mem_nil
    | unchanged => exact absurd member List.not_mem_nil
    | text bytes =>
        obtain rfl := List.mem_singleton.mp member
        exact (show bytes.Fits 4 _ from fits.items _ here).size

theorem LaidMessage.Fits.actual {w : LaidMessage} (fits : w.Fits) : ∀ s ∈ w.sizes, s.actual = s.declared.toNat := by
  intro s member
  cases w with
  | relation id nspname name replident columns =>
      obtain rfl := List.mem_singleton.mp member
      exact fits.2.2.2.size
  | insert relid new => exact laidTupleSizes_actual fits.2 s member
  | update relid old new =>
      rcases List.mem_append.mp member with olds | news
      · obtain ⟨o, here, member⟩ := List.mem_flatMap.mp olds
        exact laidTupleSizes_actual (fits.2.1 o (Option.mem_toList.mp here)) s member
      · exact laidTupleSizes_actual fits.2.2 s news
  | delete relid kind old => exact laidTupleSizes_actual fits.2 s member
  | truncate flags relids =>
      obtain rfl := List.mem_singleton.mp member
      exact Counted.Fits.size fits
  | begin finalLsn commitTs xid => exact absurd member List.not_mem_nil
  | commit flags commitLsn endLsn ts => exact absurd member List.not_mem_nil
  | ignored kind => exact absurd member List.not_mem_nil

theorem LaidMessage.Fits.honoured {w : LaidMessage} (fits : w.Fits) (natural : ¬ w.Negative) (trailing : List UInt8) :
    Honoured (w.encode ++ trailing) w.message := by
  refine ⟨w, trailing, fits, rfl, rfl, ?_⟩
  intro s member
  have positive : 0 ≤ s.declared := Int.not_lt.mp fun negative => natural ⟨s, member, negative⟩
  rw [fits.actual s member, Int.toNat_of_nonneg positive]

/-- The bytes say what is decoded of them in one way, so that a negative size is never honoured. -/
theorem LaidMessage.Fits.not_honoured {w : LaidMessage} (fits : w.Fits) (negative : w.Negative) (trailing : List UInt8) (m : Message) :
    ¬ Honoured (w.encode ++ trailing) m := by
  intro ⟨w', after, fits', same, _, sizes⟩
  obtain rfl := message_format.front_unique fits fits' same
  obtain ⟨s, member, below⟩ := negative
  have := sizes s member
  omega

/-- The sizes of an accepted message are honoured, and a negative one is an error, just where
no size is negative. -/
theorem decode_honours_iff (data : List UInt8) :
    ((∀ m, decode data = .ok m → Honoured data m) ∧
      ∀ (w : LaidMessage) (trailing : List UInt8), w.Fits → data = w.encode ++ trailing → w.Negative → ∃ e, decode data = .error e) ↔
      NonNegative data := by
  constructor
  · intro ⟨honours, _⟩ w trailing fits is negative
    subst is
    exact fits.not_honoured negative trailing w.message (honours _ (decode_iff.mpr ⟨w, trailing, fits, rfl, rfl⟩))
  · intro natural
    constructor
    · intro m accepted
      obtain ⟨w, trailing, fits, rfl, rfl⟩ := decode_iff.mp accepted
      exact fits.honoured (natural w trailing fits rfl) trailing
    · intro w trailing fits is negative
      exact absurd negative (natural w trailing fits is)

/-- An Insert of -1 columns, one with a text of -1 bytes, and a Truncate of -1 relations. -/
theorem decode_negative :
    (decode [73, 0, 0, 0, 16, 78, 255, 255] = .ok (.insert 16 []) ∧ ¬ Honoured [73, 0, 0, 0, 16, 78, 255, 255] (.insert 16 [])) ∧
      (decode [73, 0, 0, 0, 16, 78, 0, 1, 116, 255, 255, 255, 255] = .ok (.insert 16 [.text ""]) ∧
        ¬ Honoured [73, 0, 0, 0, 16, 78, 0, 1, 116, 255, 255, 255, 255] (.insert 16 [.text ""])) ∧
      decode [84, 255, 255, 255, 255, 0] = .ok (.truncate []) ∧ ¬ Honoured [84, 255, 255, 255, 255, 0] (.truncate []) := by
  have negative : InRange 4 (-1) := ⟨by decide, by decide⟩
  refine ⟨⟨rfl, ?_⟩, ⟨rfl, ?_⟩, rfl, ?_⟩
  · have fits : (LaidMessage.insert 16 ⟨-1, []⟩).Fits := ⟨by decide, ⟨by decide, by decide⟩, rfl, fun v member => absurd member List.not_mem_nil⟩
    exact fits.not_honoured ⟨⟨-1, 0⟩, List.mem_cons_self, by decide⟩ [] _
  · have text : (LaidValue.text ⟨-1, []⟩).Fits := ⟨negative, rfl, fun _ _ => trivial⟩
    have fits : (LaidMessage.insert 16 ⟨1, [.text ⟨-1, []⟩]⟩).Fits :=
      ⟨by decide, ⟨by decide, by decide⟩, rfl, fun v member => List.mem_singleton.mp member ▸ text⟩
    exact fits.not_honoured ⟨⟨-1, 0⟩, List.mem_cons_of_mem _ List.mem_cons_self, by decide⟩ [] _
  · have fits : (LaidMessage.truncate 0 ⟨-1, []⟩).Fits := ⟨negative, rfl, fun relid member => absurd member List.not_mem_nil⟩
    exact fits.not_honoured ⟨⟨-1, 0⟩, List.mem_cons_self, by decide⟩ [] _

end Nabla
