import Nabla.Apply

/-! The catalog tables of `bootstrap.sql`, each row together with the table it
manages: a view with the rows of `nabla_store.v<id>` and its part of
`nabla.deltas`, a shadow with the rows of `nabla_shadow.t<relid>`. -/
namespace Nabla

inductive Status where
  | initializing
  | refreshing
  | live
  | stale
  | failed
deriving DecidableEq

/-- A row of `nabla.deltas`. -/
structure LoggedDelta where
  seq : Nat
  lsn : Nat
  xid : Nat
  op : DeltaOp
  rowJson : Json
deriving DecidableEq

structure ViewRow where
  id : Nat
  name : String
  definition : String
  spec : ViewSpec
  frontier : Nat
  epoch : Nat
  status : Status
  lastSeq : Nat
  /-- Consecutive failed applies of the pending transaction. -/
  applyFailures : Nat
  lastError : Option String
  staleReason : Option String
  /-- `populated_at IS NOT NULL`: the first build committed. -/
  populated : Bool
  storage : List Record
  deltas : List LoggedDelta

structure ShadowRow where
  relid : Nat
  frontier : Nat
  refcount : Int
  /-- The active column set, and `format_type` of each. -/
  columns : List String
  columnTypes : List String
  pkColumns : List String
  joinKeys : List String
  failed : Bool
  staleReason : Option String
  /-- The columns of the table itself, pruned ones included. -/
  physical : List (String × String)
  rows : List BaseRow

def ShadowRow.tableName (s : ShadowRow) : String := s!"nabla_shadow.t{s.relid}"

structure Catalog where
  views : List ViewRow
  /-- `nabla.view_relations`: view id and base table. -/
  viewRelations : List (Nat × Nat)
  shadows : List ShadowRow

def Catalog.shadow (c : Catalog) (relid : Nat) : Option ShadowRow :=
  c.shadows.find? (·.relid = relid)

/-- The contents of `nabla_shadow.t<relid>`, when it exists. -/
def shadowTable (shadows : List ShadowRow) (relid : Nat) : Option (List BaseRow) :=
  (shadows.find? (·.relid = relid)).map ShadowRow.rows

end Nabla
