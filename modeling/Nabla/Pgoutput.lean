import Nabla.Datum

/-! The decoded pgoutput stream: messages, row changes, and the decoder that groups
them into source transactions and caches relation descriptions. -/
namespace Nabla

structure RelationColumn where
  name : String
  isKey : Bool
  typid : Nat
  typmod : Int
  /-- Filled lazily through `format_type`. -/
  typeName : Option String
deriving DecidableEq

structure Relation where
  id : Nat
  nspname : String
  name : String
  replident : UInt8
  columns : List RelationColumn
deriving DecidableEq

inductive ColumnValue where
  | null
  /-- Unchanged TOASTed value that pgoutput did not send. -/
  | unchanged
  | text (s : String)
deriving DecidableEq

abbrev Tuple := List ColumnValue

/-- Tag of an old tuple that carries only the key (`b'K'`). -/
def keyTuple : UInt8 := 75

/-- Tag of a complete old tuple (`b'O'`). -/
def fullOldTuple : UInt8 := 79

inductive Message where
  | begin (finalLsn xid : Nat)
  | commit (commitLsn endLsn : Nat)
  | relation (rel : Relation)
  | insert (relid : Nat) (new : Tuple)
  | update (relid : Nat) (old : Option (UInt8 × Tuple)) (new : Tuple)
  | delete (relid : Nat) (keyKind : UInt8) (old : Tuple)
  | truncate (relids : List Nat)
  | ignored (kind : UInt8)

/-- One decoded row change inside a source transaction. -/
inductive Change where
  | insert (relid : Nat) (new : Tuple)
  | update (relid : Nat) (old : Option (UInt8 × Tuple)) (new : Tuple)
  | delete (relid : Nat) (keyKind : UInt8) (old : Tuple)
  | truncate (relids : List Nat)
deriving DecidableEq

/-- The relations a change touches (`change_relids`). -/
def Change.relids : Change → List Nat
  | .insert relid _ | .update relid _ _ | .delete relid _ _ => [relid]
  | .truncate relids => relids

def Change.tuples : Change → List Tuple
  | .insert _ new => [new]
  | .update _ old new => (old.map Prod.snd).toList ++ [new]
  | .delete _ _ old => [old]
  | .truncate _ => []

/-- A complete source transaction (Begin .. Commit). -/
structure SourceTransaction where
  xid : Nat
  commitLsn : Nat
  endLsn : Nat
  changes : List Change
deriving DecidableEq

structure Decoder where
  relations : Nat → Option Relation := fun _ => none
  current : Option SourceTransaction := none
  complete : List SourceTransaction := []

/-- Resolved type names survive a repeated description of the same column. -/
def keepTypes : List RelationColumn → List RelationColumn → List RelationColumn
  | col :: cols, old :: olds =>
    (if col.name = old.name ∧ col.typid = old.typid ∧ col.typmod = old.typmod
      then { col with typeName := old.typeName } else col) :: keepTypes cols olds
  | cols, _ => cols

def Decoder.describe (d : Decoder) (rel : Relation) : Decoder :=
  let kept := match d.relations rel.id with
    | some prev => { rel with columns := keepTypes rel.columns prev.columns }
    | none => rel
  { d with relations := fun id => if id = rel.id then some kept else d.relations id }

def Decoder.push (d : Decoder) (change : Change) : Except String Decoder :=
  match d.current with
  | none => .error "row change outside a transaction"
  | some tx => .ok { d with current := some { tx with changes := tx.changes ++ [change] } }

/-- `Decoder::feed` after `decode` has read the message. -/
def Decoder.feed (d : Decoder) : Message → Except String Decoder
  | .begin finalLsn xid =>
    if d.current.isSome then .error "BEGIN while a transaction is already open"
    else .ok { d with current := some ⟨xid, finalLsn, 0, []⟩ }
  | .commit commitLsn endLsn =>
    match d.current with
    | none => .error "COMMIT without BEGIN"
    | some tx =>
      .ok { d with current := none, complete := d.complete ++ [{ tx with commitLsn, endLsn }] }
  | .relation rel => .ok (d.describe rel)
  | .insert relid new => d.push (.insert relid new)
  | .update relid old new => d.push (.update relid old new)
  | .delete relid keyKind old => d.push (.delete relid keyKind old)
  | .truncate relids => d.push (.truncate relids)
  | .ignored _ => .ok d

def Decoder.feedAll (d : Decoder) : List Message → Except String Decoder
  | [] => .ok d
  | m :: ms =>
    match d.feed m with
    | .error e => .error e
    | .ok d' => d'.feedAll ms

/-- True when the last fed message left a transaction open. -/
def Decoder.hasIncomplete (d : Decoder) : Bool := d.current.isSome

def Decoder.discardIncomplete (d : Decoder) : Decoder := { d with current := none }

/-- `take_complete`: the transactions read so far, and the decoder without them. -/
def Decoder.takeComplete (d : Decoder) : List SourceTransaction × Decoder :=
  (d.complete, { d with complete := [] })

end Nabla
