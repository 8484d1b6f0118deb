import Nabla.Worker
import Nabla.Pending

/-! Shadow tables as population leaves them: `create`, `extend`, `ensure` and `rebuild` of
`shadow.rs`. -/
namespace Nabla

/-- A base table as the population transaction sees it: its columns with their
`format_type`, in attribute order, and its rows. -/
structure BaseTable where
  columns : List (String × String)
  rows : List BaseRow

/-- `active_set`: the primary key and the needed columns, as far as the table has them. -/
def activeSet (rel : BaseRelation) (needed : List String) (columns : List (String × String)) : List (String × String) :=
  columns.filter fun c => rel.pkColumns.contains c.1 || needed.contains c.1

/-- `SELECT names FROM base`. -/
def selectColumns (names : List String) (row : BaseRow) : BaseRow := fun name => if names.contains name then row name else .null

/-- `index_join_keys`, as far as the catalog goes: the union is stored. -/
def unionKeys (previous keys : List String) : List String := previous ++ keys.filter fun k => !previous.contains k

/-- `ALTER TABLE ... ADD COLUMN`, or `ALTER COLUMN ... TYPE ... USING NULL` where the type differs. -/
def alterPhysical (physical : List (String × String)) (column : String × String) : List (String × String) :=
  match physical.lookup column.1 with
  | none => physical ++ [column]
  | some _ => physical.map fun c => if c.1 = column.1 then column else c

def createShadow (rel : BaseRelation) (frontier : Nat) (needed keys : List String) (base : BaseTable) : ShadowRow :=
  let active := activeSet rel needed base.columns
  { relid := rel.oid
    frontier := frontier
    refcount := 1
    columns := active.map Prod.fst
    columnTypes := active.map Prod.snd
    pkColumns := rel.pkColumns
    joinKeys := keys
    failed := false
    staleReason := none
    physical := active
    rows := base.rows.map (selectColumns (active.map Prod.fst)) }

/-- `pk_match`: the base row of a shadow row. -/
def pkMatch (pk : List String) (s b : BaseRow) : Bool := pk.all fun c => sqlEq (s c) (b c)

/-- One column of `extend`: physically there, of the base's type, and filled from the base
rows with the same key. -/
def addColumn (rel : BaseRelation) (base : BaseTable) (s : ShadowRow) (column : String × String) : ShadowRow :=
  let cleared := s.physical.lookup column.1 ≠ some column.2
  { s with
    physical := alterPhysical s.physical column
    columns := s.columns ++ [column.1]
    columnTypes := s.columnTypes ++ [column.2]
    rows := s.rows.map fun row =>
      match base.rows.find? (pkMatch rel.pkColumns row) with
      | some b => Function.update row column.1 (b column.1)
      | none => if cleared then Function.update row column.1 .null else row }

/-- The active columns in the base table's attribute order. -/
def attributeOrder (base : BaseTable) (pairs : List (String × String)) : List (String × String) :=
  let position := fun (c : String × String) => (base.columns.map Prod.fst).idxOf c.1
  pairs.mergeSort fun a b => position a ≤ position b

/-- Columns are added by name; one already active stays as it is, whatever its type. -/
def extendShadow (rel : BaseRelation) (needed keys : List String) (base : BaseTable) (current : ShadowRow) : ShadowRow :=
  let missing := base.columns.filter fun c =>
    !current.columns.contains c.1 && (needed.contains c.1 || rel.pkColumns.contains c.1)
  let s := missing.foldl (addColumn rel base) current
  let pairs := attributeOrder base (s.columns.zip s.columnTypes)
  { s with
    columns := pairs.map Prod.fst
    columnTypes := pairs.map Prod.snd
    joinKeys := unionKeys current.joinKeys keys }

/-- `rebuild` of a shadow that exists. -/
def refillShadow (rel : BaseRelation) (frontier : Nat) (needed keys : List String) (base : BaseTable) (current : ShadowRow) :
    ShadowRow :=
  let active := activeSet rel needed base.columns
  { current with
    frontier := frontier
    columns := active.map Prod.fst
    columnTypes := active.map Prod.snd
    pkColumns := rel.pkColumns
    joinKeys := unionKeys current.joinKeys keys
    failed := false
    staleReason := none
    physical := active.foldl alterPhysical current.physical
    rows := base.rows.map (selectColumns (active.map Prod.fst)) }

/-- `rebuild`: from scratch under the caller's snapshot. -/
def rebuildShadow (rel : BaseRelation) (frontier : Nat) (needed keys : List String) (base : BaseTable)
    (shadows : List ShadowRow) : List ShadowRow :=
  match shadows.find? (·.relid = rel.oid) with
  | none => shadows ++ [createShadow rel frontier needed keys base]
  | some _ => updateShadow rel.oid (refillShadow rel frontier needed keys base) shadows

/-- `ensure`: one more reference; create the shadow, extend it, or rebuild one that failed. -/
def ensureShadow (rel : BaseRelation) (frontier : Nat) (needed keys : List String) (base : BaseTable)
    (shadows : List ShadowRow) : List ShadowRow :=
  match shadows.find? (·.relid = rel.oid) with
  | none => shadows ++ [createShadow rel frontier needed keys base]
  | some current =>
    let counted := updateShadow rel.oid (fun s => { s with refcount := s.refcount + 1 }) shadows
    if current.failed then updateShadow rel.oid (refillShadow rel frontier needed keys base) counted
    else updateShadow rel.oid (extendShadow rel needed keys base) counted

end Nabla
