import Nabla.Datum
import Mathlib.Data.List.Sections
import Mathlib.Data.List.Dedup

/-! The analyzed view definition (`ViewSpec`) and the query it stands for. The
source keeps the deparsed SQL text of each expression; here an expression is what
that text denotes, with the columns it references. -/
namespace Nabla

/-- One row of a base table, of its shadow, or of a one-row VALUES list. -/
abbrev BaseRow := String → Datum

/-- The row bound to each position of the FROM list. -/
abbrev Env := Nat → BaseRow

/-- A deparsed expression: a total pure function of the columns it references.
Each reference carries its position in the FROM list, its name and its type. -/
structure SqlExpr where
  kind : Kind
  vars : List (Nat × String × Kind)
  eval : Env → Datum
  eval_congr : ∀ {ρ σ : Env}, (∀ v ∈ vars, ρ v.1 v.2.1 = σ v.1 v.2.1) → eval ρ = eval σ
  eval_typed : ∀ {ρ : Env}, (∀ v ∈ vars, (ρ v.1 v.2.1).HasKind v.2.2) → (eval ρ).HasKind kind

def SqlExpr.column (index : Nat) (name : String) (kind : Kind) : SqlExpr where
  kind := kind
  vars := [(index, name, kind)]
  eval := fun ρ => ρ index name
  eval_congr := fun same => same (index, name, kind) List.mem_cons_self
  eval_typed := fun typed => typed (index, name, kind) List.mem_cons_self

inductive Shape where
  | projection
  | aggregate
deriving DecidableEq

structure OutputColumn where
  expr : SqlExpr
  aliasName : String

/-- A `sum()` with the hidden column that counts its non-NULL contributions. -/
structure SumSpec where
  expr : SqlExpr
  aliasName : String
  counter : String

/-- One base relation of a view, in range-table order. -/
structure BaseRelation where
  oid : Nat
  rti : Nat
  qualified : String
  pkColumns : List String
  usedColumns : List String
  usedColumnTypes : List String
  joinKeys : List String
deriving DecidableEq

structure ViewSpec where
  shape : Shape
  predicate : Option SqlExpr
  /-- Projection: every visible output column. Aggregate: the group keys. -/
  columns : List OutputColumn
  pkColumns : List String
  pkViewColumns : List String
  countAlias : Option String
  counts : List OutputColumn
  sums : List SumSpec
  relations : List BaseRelation
  /-- Projection: the visible columns, then the hidden key columns. -/
  selectList : List OutputColumn
  hiddenColumns : List String

def ViewSpec.isJoin (spec : ViewSpec) : Bool := spec.relations.length > 1

def ViewSpec.tableColumns (spec : ViewSpec) : List (String × Kind) :=
  match spec.shape with
  | .projection => spec.selectList.map fun o => (o.aliasName, o.expr.kind)
  | .aggregate =>
    spec.columns.map (fun o => (o.aliasName, o.expr.kind)) ++
      (spec.countAlias.getD "", .numeric) :: spec.counts.map (fun c => (c.aliasName, .numeric)) ++
      spec.sums.flatMap (fun su => [(su.aliasName, .numeric), (su.counter, .numeric)])

def envOf (rows : List BaseRow) : Env := fun i => rows.getD i fun _ => .null

/-- A row passes WHERE only when the predicate is true; NULL does not. -/
def ViewSpec.passes (spec : ViewSpec) (ρ : Env) : Bool :=
  match spec.predicate with
  | none => true
  | some p => p.eval ρ == .bool true

/-- FROM and WHERE: the qualifying combinations of one row from each table. -/
def ViewSpec.joined (spec : ViewSpec) (tables : List (List BaseRow)) : List Env :=
  (tables.sections.map envOf).filter spec.passes

def ViewSpec.selectRow (spec : ViewSpec) (ρ : Env) : Record :=
  spec.selectList.map fun o => (o.aliasName, o.expr.eval ρ)

/-- `count(expr)`: the number of non-NULL values. -/
def sqlCount (ds : List Datum) : Datum := .num (.fin (ds.filter (· != .null)).length)

def Datum.numeric? : Datum → Option Numeric
  | .num n => some n
  | _ => none

/-- `sum(expr)`: NULL when every value is NULL. -/
def sqlSum (ds : List Datum) : Datum :=
  match ds.filterMap Datum.numeric? with
  | [] => .null
  | n :: ns => .num (ns.foldl Numeric.add n)

def ViewSpec.groupKeys (spec : ViewSpec) (ρ : Env) : List Datum :=
  spec.columns.map fun o => o.expr.eval ρ

/-- The output row of one group. -/
def ViewSpec.groupRow (spec : ViewSpec) (keys : List Datum) (ρs : List Env) : Record :=
  (spec.columns.map OutputColumn.aliasName).zip keys ++
    (spec.countAlias.getD "", .num (.fin ρs.length)) ::
      spec.counts.map (fun c => (c.aliasName, sqlCount (ρs.map c.expr.eval))) ++
    spec.sums.flatMap (fun su =>
      [(su.aliasName, sqlSum (ρs.map su.expr.eval)), (su.counter, sqlCount (ρs.map su.expr.eval))])

def ViewSpec.groupRows (spec : ViewSpec) (ρs : List Env) : List Record :=
  (ρs.map spec.groupKeys).dedup.map fun keys =>
    spec.groupRow keys (ρs.filter fun ρ => spec.groupKeys ρ = keys)

/-- The select list of the populate query over the qualifying rows. -/
def ViewSpec.output (spec : ViewSpec) (ρs : List Env) : List Record :=
  match spec.shape with
  | .projection => ρs.map spec.selectRow
  | .aggregate => spec.groupRows ρs

/-- The populate query over the given contents of the FROM list. -/
def ViewSpec.evalQuery (spec : ViewSpec) (tables : List (List BaseRow)) : List Record :=
  spec.output (spec.joined tables)

end Nabla
