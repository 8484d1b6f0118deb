import Nabla.Definition
import Nabla.Pgoutput
import Nabla.Lib.Keyed
import Mathlib.Data.List.Forall2

/-! The publisher: base tables with primary keys, the row changes of committed
transactions, and the tuples pgoutput sends for them. -/
namespace Nabla
open Bags

def Platform.Holds (pf : Platform) (ty : String) (d : Datum) : Prop := d = .null ∨ pf.HasType ty d

/-- The published tables: each one's description, with resolved types, and primary key. -/
structure Schema (pf : Platform) where
  relation : Nat → Relation
  primaryKey : Nat → List String
  relation_id : ∀ relid, (relation relid).id = relid
  resolved : ∀ relid, ∀ c ∈ (relation relid).columns, c.typeName.isSome
  distinct : ∀ relid, ((relation relid).columns.map RelationColumn.name).Nodup
  key_nonempty : ∀ relid, primaryKey relid ≠ []
  key_columns : ∀ relid, primaryKey relid ⊆ (relation relid).columns.map RelationColumn.name

/-- The contents of the base tables. -/
abbrev Database := Nat → List BaseRow

/-- One row change of a committed transaction. -/
inductive RowChange where
  | insert (relid : Nat) (new : BaseRow)
  | delete (relid : Nat) (old : BaseRow)
  | update (relid : Nat) (old new : BaseRow)
  | truncate (relids : List Nat)

def Database.set (db : Database) (relid : Nat) (rows : List BaseRow) : Database :=
  fun r => if r = relid then rows else db r

variable {pf : Platform}

def Schema.keyOf (S : Schema pf) (relid : Nat) (row : BaseRow) : List Datum :=
  (S.primaryKey relid).map row

def Schema.others (S : Schema pf) (relid : Nat) (old : BaseRow) (rows : List BaseRow) : List BaseRow :=
  rows.filter fun r => !decide (S.keyOf relid r = S.keyOf relid old)

def Schema.step (S : Schema pf) (db : Database) : RowChange → Database
  | .insert relid new => db.set relid (db relid ++ [new])
  | .delete relid old => db.set relid (S.others relid old (db relid))
  | .update relid old new => db.set relid (S.others relid old (db relid) ++ [new])
  | .truncate relids => fun r => if r ∈ relids then [] else db r

def Schema.run (S : Schema pf) (db : Database) (changes : List RowChange) : Database :=
  changes.foldl S.step db

structure Schema.RowOk (S : Schema pf) (relid : Nat) (row : BaseRow) : Prop where
  typed : ∀ c ∈ (S.relation relid).columns, ∀ ty, c.typeName = some ty → pf.Holds ty (row c.name)
  key : ∀ c ∈ S.primaryKey relid, row c ≠ .null

structure Schema.DatabaseOk (S : Schema pf) (db : Database) : Prop where
  keyed : ∀ relid, Keyed (S.keyOf relid) (db relid)
  rows : ∀ relid, ∀ row ∈ db relid, S.RowOk relid row

/-- A change the publisher can make: the old row is there, the new one is well typed
and its key is free. -/
def Schema.Valid (S : Schema pf) (db : Database) : RowChange → Prop
  | .insert relid new => S.RowOk relid new ∧ S.keyOf relid new ∉ (db relid).map (S.keyOf relid)
  | .delete relid old => old ∈ db relid
  | .update relid old new => old ∈ db relid ∧ S.RowOk relid new ∧
      S.keyOf relid new ∉ (S.others relid old (db relid)).map (S.keyOf relid)
  | .truncate _ => True

/-- Every change of the list is valid where it happens. -/
def Schema.ValidRun (S : Schema pf) : Database → List RowChange → Prop
  | _, [] => True
  | db, change :: changes => S.Valid db change ∧ S.ValidRun (S.step db change) changes

theorem Database.set_same (db : Database) (relid : Nat) (rows : List BaseRow) :
    db.set relid rows relid = rows := if_pos rfl

theorem Database.set_other (db : Database) {relid r : Nat} (rows : List BaseRow) (other : r ≠ relid) :
    db.set relid rows r = db r := if_neg other

theorem Schema.DatabaseOk.set {S : Schema pf} {db : Database} (ok : S.DatabaseOk db) {relid : Nat}
    {rows : List BaseRow} (keyed : Keyed (S.keyOf relid) rows) (typed : ∀ row ∈ rows, S.RowOk relid row) :
    S.DatabaseOk (db.set relid rows) where
  keyed := by
    intro r
    by_cases same : r = relid
    · subst same
      rwa [Database.set_same]
    · rw [Database.set_other db rows same]
      exact ok.keyed r
  rows := by
    intro r
    by_cases same : r = relid
    · subst same
      rwa [Database.set_same]
    · rw [Database.set_other db rows same]
      exact ok.rows r

theorem Schema.step_ok (S : Schema pf) {db : Database} {change : RowChange} (ok : S.DatabaseOk db)
    (valid : S.Valid db change) : S.DatabaseOk (S.step db change) := by
  have kept : ∀ {relid old}, ∀ row ∈ S.others relid old (db relid), S.RowOk relid row :=
    fun row member => ok.rows _ row (List.mem_of_mem_filter member)
  cases change with
  | insert relid new =>
      refine ok.set ((ok.keyed relid).concat valid.2) ?_
      intro row member
      rcases List.mem_append.mp member with before | added
      · exact ok.rows relid row before
      · rw [List.mem_singleton.mp added]
        exact valid.1
  | delete relid old => exact ok.set ((ok.keyed relid).filter _) kept
  | update relid old new =>
      refine ok.set (((ok.keyed relid).filter _).concat valid.2.2) ?_
      intro row member
      rcases List.mem_append.mp member with before | added
      · exact kept row before
      · rw [List.mem_singleton.mp added]
        exact valid.2.1
  | truncate relids =>
      constructor
      · intro r
        simp only [Schema.step]
        split
        · exact Keyed.nil _
        · exact ok.keyed r
      · intro r
        simp only [Schema.step]
        split
        · intro row member
          exact absurd member List.not_mem_nil
        · exact ok.rows r

theorem Schema.run_ok (S : Schema pf) {db : Database} {changes : List RowChange} (ok : S.DatabaseOk db)
    (valid : S.ValidRun db changes) : S.DatabaseOk (S.run db changes) := by
  induction changes generalizing db with
  | nil => exact ok
  | cons change changes ih => exact ih (S.step_ok ok valid.1) valid.2

def encodeValue (pf : Platform) : Datum → ColumnValue
  | .null => .null
  | d => .text (pf.output d)

def encodeRow (pf : Platform) (rel : Relation) (row : BaseRow) : Tuple :=
  rel.columns.map fun c => encodeValue pf (row c.name)

def encodeKey (pf : Platform) (rel : Relation) (key : List String) (row : BaseRow) : Tuple :=
  rel.columns.map fun c => if c.name ∈ key then encodeValue pf (row c.name) else .null

/-- The new tuple of an update: each value as text, or the marker for one that did
not change. Without an old tuple the key columns are always sent. -/
def EncodesNew (pf : Platform) (rel : Relation) (sent : List String) (old new : BaseRow) (tuple : Tuple) :
    Prop :=
  List.Forall₂ (fun c v => v = encodeValue pf (new c.name) ∨
    (v = .unchanged ∧ old c.name = new c.name ∧ c.name ∉ sent)) rel.columns tuple

/-- What pgoutput sends for a row change, under REPLICA IDENTITY DEFAULT or FULL. -/
inductive Encodes (S : Schema pf) : RowChange → Change → Prop where
  | insert {relid : Nat} {new : BaseRow} :
      Encodes S (.insert relid new) (.insert relid (encodeRow pf (S.relation relid) new))
  | deleteKey {relid : Nat} {old : BaseRow} : Encodes S (.delete relid old)
      (.delete relid keyTuple (encodeKey pf (S.relation relid) (S.primaryKey relid) old))
  | deleteFull {relid : Nat} {old : BaseRow} : Encodes S (.delete relid old)
      (.delete relid fullOldTuple (encodeRow pf (S.relation relid) old))
  | update {relid : Nat} {old new : BaseRow} {tuple : Tuple} (sameKey : S.keyOf relid old = S.keyOf relid new)
      (encodes : EncodesNew pf (S.relation relid) (S.primaryKey relid) old new tuple) :
      Encodes S (.update relid old new) (.update relid none tuple)
  | updateKey {relid : Nat} {old new : BaseRow} {tuple : Tuple}
      (encodes : EncodesNew pf (S.relation relid) [] old new tuple) :
      Encodes S (.update relid old new)
        (.update relid (some (keyTuple, encodeKey pf (S.relation relid) (S.primaryKey relid) old)) tuple)
  | updateFull {relid : Nat} {old new : BaseRow} {tuple : Tuple}
      (encodes : EncodesNew pf (S.relation relid) [] old new tuple) :
      Encodes S (.update relid old new)
        (.update relid (some (fullOldTuple, encodeRow pf (S.relation relid) old)) tuple)
  | truncate {relids : List Nat} : Encodes S (.truncate relids) (.truncate relids)

/-- A committed transaction of the publisher. -/
structure BaseTransaction where
  endLsn : Nat
  changes : List RowChange

/-- A decoded transaction carries the changes of a committed one. -/
def TransactionEncodes (S : Schema pf) (t : BaseTransaction) (tx : SourceTransaction) : Prop :=
  tx.endLsn = t.endLsn ∧ List.Forall₂ (Encodes S) t.changes tx.changes

end Nabla
