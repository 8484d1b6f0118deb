import Nabla.Nodes
import Nabla.Flattening

/-! The analyzed `Query` of a definition, with join aliases flattened, the facts of the system
catalog about its tables, and the rows the definition returns. -/
namespace Nabla
open Bags

structure Attribute where
  attnum : Int
  attname : String
  formatType : String
deriving DecidableEq

/-- What `lookup_base`, `qualified_name` and `check_relation_kind` read about a table. -/
structure RelationFacts where
  nspname : String
  relname : String
  replident : String
  /-- It is the parent in a row of `pg_inherits`. -/
  hasChildren : Bool
  /-- The name of a row of `nabla.views` resolves to it, or its `relid` is this table. -/
  namedView : Bool
  storedView : Bool
  /-- The attributes that are not dropped, in order. -/
  attributes : List Attribute
  /-- The columns of the primary key in its order. -/
  primaryKey : List (Int × String)

def RelationFacts.attribute (facts : RelationFacts) (attno : Int) : Option Attribute := facts.attributes.find? (·.attnum = attno)

/-- `get_attname`. -/
def RelationFacts.attname (facts : RelationFacts) (attno : Int) : String := ((facts.attribute attno).map Attribute.attname).getD ""

/-- `get_atttype`, as `format_type` prints it. -/
def RelationFacts.atttype (facts : RelationFacts) (attno : Int) : String := ((facts.attribute attno).map Attribute.formatType).getD ""

def RelationFacts.pkColumns (facts : RelationFacts) : List String := facts.primaryKey.map Prod.snd

structure SystemCatalog where
  relation : Nat → RelationFacts
  /-- The words `quote_identifier` puts in quotes. -/
  reserved : String → Bool

inductive RteKind where
  | relation
  | subquery
  | join
  | function
  | tableFunc
  | values
  | cte
  | other
deriving DecidableEq

structure RangeTblEntry where
  rtekind : RteKind
  lateral : Bool
  relid : Nat
  relkind : Char
  /-- There is a TABLESAMPLE clause. -/
  tablesample : Bool
  /-- The name in `eref`, when there is one. -/
  eref : Option String
  /-- The names an alias gives to the columns. -/
  colnames : List String

/-- `FromExpr`, `JoinExpr` and `RangeTblRef`. -/
inductive FromNode (Moment : Type) where
  | rangeTblRef (rti : Nat)
  | fromExpr (fromlist : List (FromNode Moment)) (quals : Option (Node Moment))
  | joinExpr (jointype : JoinType) (larg rarg : FromNode Moment) (quals : Option (Node Moment))

structure TargetEntry (Moment : Type) where
  expr : Node Moment
  resname : Option String
  ressortgroupref : Nat
  resjunk : Bool

inductive CmdType where
  | select
  | other
deriving DecidableEq

/-- An analyzed query; a clause nothing but its presence is asked of is a flag. -/
structure Query (Moment : Type) where
  commandType : CmdType
  setOperations : Bool
  cteList : Bool
  hasSubLinks : Bool
  hasWindowFuncs : Bool
  hasTargetSRFs : Bool
  hasDistinctOn : Bool
  distinctClause : Bool
  sortClause : Bool
  limitCount : Bool
  limitOffset : Bool
  havingQual : Bool
  groupingSets : Bool
  hasForUpdate : Bool
  rowMarks : Bool
  rtable : List RangeTblEntry
  jointree : FromNode Moment
  targetList : List (TargetEntry Moment)
  groupClause : List Nat
  hasAggs : Bool

variable {Moment : Type}

def TargetEntry.name (t : TargetEntry Moment) : String := t.resname.getD "?column?"

def Query.visible (q : Query Moment) : List (TargetEntry Moment) := q.targetList.filter fun t => !t.resjunk

mutual
def FromNode.toTree (expr : Node Moment → SqlExpr) : FromNode Moment → JoinTree
  | .rangeTblRef rti => .rangeTblRef rti
  | .fromExpr fromlist quals => .fromExpr (FromNode.toTrees expr fromlist) (quals.map expr)
  | .joinExpr jointype larg rarg quals => .joinExpr jointype (FromNode.toTree expr larg) (FromNode.toTree expr rarg) (quals.map expr)

def FromNode.toTrees (expr : Node Moment → SqlExpr) : List (FromNode Moment) → List JoinTree
  | [] => []
  | item :: items => FromNode.toTree expr item :: FromNode.toTrees expr items
end

/-- The table an entry of the range table stands for. -/
def Query.relid (q : Query Moment) (varno : Nat) : Nat := match q.rtable[varno - 1]? with
  | some rte => rte.relid
  | none => 0

def Query.facts (cat : SystemCatalog) (q : Query Moment) (varno : Nat) : RelationFacts := cat.relation (q.relid varno)

/-- The column a Var stands for. -/
def Query.column (cat : SystemCatalog) (q : Query Moment) (varno : Nat) (attno : Int) : String := (q.facts cat varno).attname attno

def Query.reader (cat : SystemCatalog) (q : Query Moment) (ρ : Env) : RowReader := fun varno attno => ρ varno (q.column cat varno attno)

def Query.expr (cat : SystemCatalog) (m : Moment) (q : Query Moment) (node : Node Moment) : SqlExpr :=
  node.toExpr m fun varno attno => (varno, q.column cat varno attno)

/-- FROM and WHERE, over whole tables. -/
def Query.fromRows (cat : SystemCatalog) (m : Moment) (q : Query Moment) (tables : Nat → List BaseRow) : Option (List (Nat → Option BaseRow)) :=
  (q.jointree.toTree (q.expr cat m)).rows fun rti => tables (q.relid rti)

def Query.selectRow (m : Moment) (q : Query Moment) (group : List RowReader) (read : RowReader) : Record :=
  q.visible.map fun t => (t.name, t.expr.eval m group read)

def Query.groupKey (m : Moment) (q : Query Moment) (read : RowReader) : List Datum :=
  q.groupClause.map fun ref => match q.targetList.find? (·.ressortgroupref = ref) with
    | some t => t.expr.eval m [] read
    | none => .null

def Query.groups (m : Moment) (q : Query Moment) (rows : List RowReader) : List (List RowReader) :=
  (rows.map (q.groupKey m)).dedup.map fun key => rows.filter fun read => q.groupKey m read = key

def nothing : RowReader := fun _ _ => .null

/-- The rows of the result; aggregates without GROUP BY make one of all rows. -/
def Query.output (m : Moment) (q : Query Moment) (rows : List RowReader) : List Record :=
  if q.groupClause = [] then
    if q.hasAggs then [q.selectRow m rows (rows.headD nothing)] else rows.map (q.selectRow m [])
  else (q.groups m rows).map fun group => q.selectRow m group (group.headD nothing)

/-- A SELECT of tables and joins of tables, with WHERE and GROUP BY and no other clause. -/
def Query.plain (q : Query Moment) : Bool :=
  q.commandType == .select &&
    !(q.setOperations || q.cteList || q.hasSubLinks || q.hasWindowFuncs || q.hasTargetSRFs || q.hasDistinctOn || q.distinctClause ||
      q.sortClause || q.limitCount || q.limitOffset || q.havingQual || q.groupingSets || q.hasForUpdate || q.rowMarks) &&
    q.rtable.all fun rte => (rte.rtekind == .relation || rte.rtekind == .join) && !rte.tablesample

/-- What a definition returns at a moment; other clauses, other joins and samples of tables are
given no meaning. -/
def Query.result (cat : SystemCatalog) (m : Moment) (q : Query Moment) (tables : Nat → List BaseRow) : Option (List Record) :=
  if q.plain then
    (q.fromRows cat m tables).map fun rows => q.output m (rows.map fun f => q.reader cat (rowsOfAssignment f))
  else none

end Nabla
