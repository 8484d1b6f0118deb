import Nabla.Query
import Nabla.HiddenKeys
import Nabla.Naming
import Nabla.Api

/-! `validate` of `definition.rs`: the checks on the analyzed query and the spec of the view. -/
namespace Nabla

def shapesHint : String :=
  "Accepted shapes: (1) projection: SELECT expr [AS alias][, ...] FROM table [JOIN ...] [WHERE predicate], where a single table's primary key columns are selected as plain columns; (2) aggregate: SELECT key [AS alias][, ...], count(*) [AS a][, sum(expr) [AS b]]... FROM table [JOIN ...] [WHERE predicate] GROUP BY key[, ...]. Expressions may only use IMMUTABLE functions and operators over the base tables' columns."

/-- `errors::unsupported_definition`. -/
def errUnsupported (reason : String) : ApiError := ⟨"NB004", s!"nabla: unsupported view definition: {reason}", "", shapesHint⟩

def reject {α : Type} (reason : String) : Except ApiError α := .error (errUnsupported reason)

def rejectIf (applies : Bool) (reason : String) : Except ApiError Unit := if applies then reject reason else .ok ()

variable {Moment : Type}

def requireImmutable (node : Node Moment) (place : String) : Except ApiError Unit :=
  if node.containMutableFunctions then
    match node.findMutable with
    | some name => reject s!"{place} uses \"{name}\", which is not IMMUTABLE; the view must be a pure function of the base table"
    | none => reject s!"{place} uses a function that is not IMMUTABLE"
  else .ok ()

/-- `find_foreign_var` at one node. -/
def Node.foreign (allowed : List Nat) : Node Moment → Bool
  | .var varno _ varlevelsup _ => varlevelsup ≠ 0 || !allowed.contains varno
  | _ => false

def requireBaseVars (allowed : List Nat) (node : Node Moment) : Except ApiError Unit :=
  rejectIf (node.subnodes.any (Node.foreign allowed)) "a column reference could not be resolved to one of the joined tables"

def Node.referencedVars (node : Node Moment) : List (Nat × Int) := node.vars.map fun v => (v.1, v.2.1)

def Node.plainVar? : Node Moment → Option (Nat × Int)
  | .var varno varattno 0 _ => some (varno, varattno)
  | _ => none

/-- `operand_var`: the column behind a relabel. -/
def Node.operandVar : Node Moment → Option (Nat × Int)
  | .relabelType arg => arg.plainVar?
  | node => node.plainVar?

def equated (op : Operator Moment) (args : List (Node Moment)) : List (Nat × Int) :=
  if !op.builtin || op.opname ≠ "=" then []
  else match args with
    | [left, right] =>
      match left.operandVar, right.operandVar with
      | some l, some r => if l.1 ≠ r.1 then [l, r] else []
      | _, _ => []
    | _ => []

mutual
/-- `join_key_vars`: only conjuncts count. -/
def Node.joinKeyVars : Node Moment → List (Nat × Int)
  | .boolExpr .and args => Node.joinKeyVarsOf args
  | .opExpr op args => equated op args
  | _ => []

def Node.joinKeyVarsOf : List (Node Moment) → List (Nat × Int)
  | [] => []
  | node :: nodes => Node.joinKeyVars node ++ Node.joinKeyVarsOf nodes
end

def Node.isPlainVar (node : Node Moment) (varno : Nat) (attnum : Int) : Bool := node.plainVar? == some (varno, attnum)

/-- `reject_unsupported_clauses`, in its order. -/
def Query.unsupported (q : Query Moment) : List (Bool × String) :=
  [(q.commandType ≠ .select, "only SELECT statements are supported"),
    (q.setOperations, "UNION, INTERSECT and EXCEPT are not supported"),
    (q.cteList, "common table expressions (WITH) are not supported"),
    (q.hasSubLinks, "subqueries are not supported"),
    (q.hasWindowFuncs, "window functions are not supported"),
    (q.hasTargetSRFs, "set-returning functions are not supported"),
    (q.hasDistinctOn || q.distinctClause, "DISTINCT is not supported"),
    (q.sortClause, "ORDER BY is not supported"),
    (q.limitCount || q.limitOffset, "LIMIT and OFFSET are not supported"),
    (q.havingQual, "HAVING is not supported"),
    (q.groupingSets, "GROUPING SETS, CUBE and ROLLUP are not supported"),
    (q.hasForUpdate || q.rowMarks, "FOR UPDATE and FOR SHARE are not supported")]

def rejectUnsupportedClauses (q : Query Moment) : Except ApiError Unit :=
  match q.unsupported.find? Prod.fst with
  | some (_, reason) => reject reason
  | none => .ok ()

/-- A base relation with its 1-based index in the range table. -/
structure RelEntry where
  rtIndex : Nat
  rte : RangeTblEntry

def RteKind.unsupported : RteKind → Option String
  | .relation | .join => none
  | .subquery => some "subqueries in FROM are not supported"
  | .function | .tableFunc => some "set-returning functions are not supported"
  | .values => some "VALUES lists are not supported"
  | .cte => some "common table expressions (WITH) are not supported"
  | .other => some "a FROM clause with one or more ordinary tables is required"

/-- The loop of `collect_relations`. -/
def collectEntries : Nat → List RangeTblEntry → Except ApiError (List RelEntry)
  | _, [] => .ok []
  | i, rte :: rtes =>
    if rte.lateral then reject "LATERAL is not supported"
    else match rte.rtekind.unsupported with
      | some reason => reject reason
      | none => (collectEntries (i + 1) rtes).map ((if rte.rtekind = .relation then [⟨i, rte⟩] else []) ++ ·)

def Query.collectRelations (q : Query Moment) : Except ApiError (List RelEntry) := do
  let entries ← collectEntries 1 q.rtable
  rejectIf entries.isEmpty "a FROM clause with one or more ordinary tables is required"
  pure entries

mutual
def FromNode.collectQuals : FromNode Moment → Except ApiError (List (Node Moment))
  | .rangeTblRef _ => .ok []
  | .fromExpr fromlist quals => (FromNode.collectQualsFrom fromlist).map (· ++ quals.toList)
  | .joinExpr jointype larg rarg quals =>
    match jointype.unsupported with
    | some kind => reject s!"{kind} is not supported; only inner joins are"
    | none =>
      match FromNode.collectQuals larg, FromNode.collectQuals rarg with
      | .ok left, .ok right => .ok (left ++ right ++ quals.toList)
      | .error e, _ => .error e
      | _, .error e => .error e

def FromNode.collectQualsFrom : List (FromNode Moment) → Except ApiError (List (Node Moment))
  | [] => .ok []
  | item :: items =>
    match FromNode.collectQuals item, FromNode.collectQualsFrom items with
    | .ok first, .ok rest => .ok (first ++ rest)
    | .error e, _ => .error e
    | _, .error e => .error e
end

/-- `quote_qualified_identifier`. -/
def SystemCatalog.qualified (cat : SystemCatalog) (relid : Nat) : String :=
  quoteIdentifier cat.reserved (cat.relation relid).nspname ++ "." ++ quoteIdentifier cat.reserved (cat.relation relid).relname

def checkRelationKind (cat : SystemCatalog) (rte : RangeTblEntry) : Except ApiError Unit := do
  let qualified := cat.qualified rte.relid
  let facts := cat.relation rte.relid
  rejectIf (facts.nspname = "nabla_store") s!"{qualified} is a nabla storage table and cannot be a base table"
  rejectIf facts.storedView s!"{qualified} is a nabla view; views cannot be built on other nabla views"
  match rte.relkind with
  | 'r' => pure ()
  | 'p' => reject s!"{qualified} is a partitioned table; partitioned tables are not supported"
  | 'v' => reject s!"{qualified} is a view; the base must be an ordinary table"
  | 'm' => reject s!"{qualified} is a materialized view; the base must be an ordinary table"
  | 'f' => reject s!"{qualified} is a foreign table; the base must be an ordinary table"
  | other => reject s!"{qualified} is not an ordinary table (relkind '{other}')"
  rejectIf (facts.nspname = "nabla") s!"{qualified} is a nabla catalog table and cannot be a base table"
  rejectIf (facts.nspname = "nabla_shadow") s!"{qualified} is a nabla shadow table and cannot be a base table"

def lookupBase (cat : SystemCatalog) (relid : Nat) : Except ApiError Unit := do
  let qualified := cat.qualified relid
  let facts := cat.relation relid
  rejectIf facts.namedView s!"{qualified} is a nabla view; views cannot be built on other nabla views"
  rejectIf facts.hasChildren s!"{qualified} has inheritance children, which logical decoding does not follow"

/-- A relation of the view before its columns are looked at. -/
structure ListedRelation where
  entry : RelEntry
  rti : Nat
  aliasName : String
  qualified : String
  facts : RelationFacts

def listRelations (cat : SystemCatalog) (isJoin : Bool) : Nat → List Nat → List RelEntry → Except ApiError (List ListedRelation)
  | _, _, [] => .ok []
  | i, seen, entry :: entries => do
    let relid := entry.rte.relid
    let facts := cat.relation relid
    let qualified := cat.qualified relid
    checkRelationKind cat entry.rte
    rejectIf (seen.contains relid) s!"table {qualified} is referenced twice; self-joins are not supported"
    lookupBase cat relid
    rejectIf (isJoin && facts.primaryKey.isEmpty) s!"{qualified} has no primary key; every table in a join view needs one"
    let rest ← listRelations cat isJoin (i + 1) (relid :: seen) entries
    pure (⟨entry, i, entry.rte.eref.getD facts.relname, qualified, facts⟩ :: rest)

/-- `Deparser`: bare columns of one table, or `alias.column` over the range table. -/
inductive Deparser where
  | single (facts : RelationFacts)
  | forRtable (cat : SystemCatalog) (rtable : List RangeTblEntry) (aliases : List String)

def RangeTblEntry.printed (cat : SystemCatalog) (rte : RangeTblEntry) (attno : Int) : String :=
  (rte.colnames[(attno - 1).toNat]?).getD ((cat.relation rte.relid).attname attno)

/-- Where the text printed for a Var is found in the FROM list: its alias there and its column. -/
def Deparser.place : Deparser → Nat → Int → Nat × String
  | .single facts, _, attno => (0, facts.attname attno)
  | .forRtable cat rtable aliases, varno, attno =>
    match rtable[varno - 1]? with
    | some rte => (aliases.idxOf (rte.eref.getD "t"), rte.printed cat attno)
    | none => (aliases.length, "")

def Deparser.expr (deparser : Deparser) (m : Moment) (node : Node Moment) : SqlExpr := node.toExpr m deparser.place

def checkQuals (place : String) (allowed : List Nat) : List (Node Moment) → Except ApiError Unit
  | [] => .ok ()
  | qual :: quals => do
    requireImmutable qual place
    requireBaseVars allowed qual
    checkQuals place allowed quals

def reservedName (name : String) : Bool := "_nabla_".toList.isPrefixOf name.toList

def checkTargets (allowed : List Nat) : List String → List (TargetEntry Moment) → Except ApiError Unit
  | _, [] => .ok ()
  | seen, t :: ts => do
    rejectIf (reservedName t.name) s!"column names starting with _nabla_ are reserved (\"{t.name}\")"
    rejectIf (seen.contains t.name) s!"output column names must be unique; add AS aliases (duplicate: \"{t.name}\")"
    requireBaseVars allowed t.expr
    checkTargets allowed (t.name :: seen) ts

def TargetEntry.grouped (t : TargetEntry Moment) (refs : List Nat) : Bool := t.ressortgroupref ≠ 0 && refs.contains t.ressortgroupref

def ListedRelation.use (isJoin : Bool) (varRefs joinRefs : List (Nat × Int)) (rel : ListedRelation) : Except ApiError BaseRelation := do
  let own := varRefs.filter fun v => v.1 = rel.entry.rtIndex
  rejectIf (own.any fun v => v.2 ≤ 0) "whole-row references are not supported"
  let used := own.map (fun v => rel.facts.attname v.2) ++ if isJoin then rel.facts.pkColumns else []
  let keys := (joinRefs.filter fun v => v.1 = rel.entry.rtIndex && 0 < v.2).map fun v => rel.facts.attname v.2
  let kept := rel.facts.attributes.filter fun a => used.contains a.attname
  pure {
    oid := rel.entry.rte.relid
    rti := rel.rti
    qualified := rel.qualified
    pkColumns := rel.facts.pkColumns
    usedColumns := kept.map Attribute.attname
    usedColumnTypes := kept.map Attribute.formatType
    joinKeys := (rel.facts.attributes.map Attribute.attname).filter keys.contains }

def useRelations (isJoin : Bool) (varRefs joinRefs : List (Nat × Int)) : List ListedRelation → Except ApiError (List BaseRelation)
  | [] => .ok []
  | rel :: rels => do
    let used ← rel.use isJoin varRefs joinRefs
    let rest ← useRelations isJoin varRefs joinRefs rels
    pure (used :: rest)

inductive AggKind (Moment : Type) where
  | count
  | countExpr (arg : Node Moment)
  | sum (arg : Node Moment)

def classifyAggregate (agg : AggFunction Moment) (how : AggCall) (aggdirectargs args aggfilter : List (Node Moment)) (aliasName : String) :
    Except ApiError (AggKind Moment) := do
  let name := agg.name
  rejectIf (how.aggkind ≠ .normal || !aggdirectargs.isEmpty) s!"ordered-set and hypothetical-set aggregates like \"{name}\" are not supported"
  rejectIf how.aggdistinct s!"DISTINCT inside aggregates is not supported (column \"{aliasName}\")"
  rejectIf (!aggfilter.isEmpty) s!"FILTER on aggregates is not supported (column \"{aliasName}\")"
  rejectIf how.aggorder s!"ORDER BY inside aggregates is not supported (column \"{aliasName}\")"
  if agg.builtin && name = "count" then
    if how.aggstar then pure .count
    else match args with
      | [arg] =>
        requireImmutable arg s!"the argument of count() in column \"{aliasName}\""
        pure (.countExpr arg)
      | _ => reject "count() must be count(*) or count(expression)"
  else if agg.builtin && name = "sum" then
    match args with
    | [arg] =>
      requireImmutable arg s!"the argument of sum() in column \"{aliasName}\""
      pure (.sum arg)
    | _ => reject "sum() must have exactly one argument"
  else reject s!"aggregate \"{name}\" is not supported; only count(*), count(expression) and sum(expression) are accepted"

inductive PopulateTarget where
  | expr (e : SqlExpr) (aliasName : String)
  | countStar (aliasName : String)
  | count (e : SqlExpr) (aliasName : String)
  | sum (e : SqlExpr) (aliasName : String)

/-- What the loop over the targets of an aggregate has made so far. -/
structure AggregateSpec where
  populateTargets : List PopulateTarget
  hiddenTargets : List PopulateTarget
  groupExprs : List SqlExpr
  columns : List OutputColumn
  countAlias : Option String
  counts : List OutputColumn
  sums : List SumSpec
  hiddenColumns : List String
  aggIndex : Nat

def AggregateSpec.empty : AggregateSpec := ⟨[], [], [], [], none, [], [], [], 0⟩

/-- `HIDDEN_SUM_COUNTER_PREFIX` and the position among the aggregates. -/
def hiddenCounter (index : Nat) : String := s!"_nabla_nn_{index}"

/-- `HIDDEN_COUNT_COLUMN`. -/
def hiddenCount : String := "_nabla_n"

def AggregateSpec.add (deparser : Deparser) (m : Moment) (spec : AggregateSpec) (aliasName : String) : AggKind Moment → Except ApiError AggregateSpec
  | .count => do
    rejectIf spec.countAlias.isSome "count(*) may appear only once"
    pure { spec with
      populateTargets := spec.populateTargets ++ [.countStar aliasName]
      countAlias := some aliasName
      aggIndex := spec.aggIndex + 1 }
  | .countExpr arg =>
    pure { spec with
      populateTargets := spec.populateTargets ++ [.count (deparser.expr m arg) aliasName]
      counts := spec.counts ++ [⟨deparser.expr m arg, aliasName⟩]
      aggIndex := spec.aggIndex + 1 }
  | .sum arg =>
    pure { spec with
      populateTargets := spec.populateTargets ++ [.sum (deparser.expr m arg) aliasName]
      hiddenTargets := spec.hiddenTargets ++ [.count (deparser.expr m arg) (hiddenCounter spec.aggIndex)]
      hiddenColumns := spec.hiddenColumns ++ [hiddenCounter spec.aggIndex]
      sums := spec.sums ++ [⟨deparser.expr m arg, aliasName, hiddenCounter spec.aggIndex⟩]
      aggIndex := spec.aggIndex + 1 }

def AggregateSpec.target (deparser : Deparser) (m : Moment) (refs : List Nat) (spec : AggregateSpec) (t : TargetEntry Moment) : Except ApiError AggregateSpec :=
  if t.grouped refs then do
    requireImmutable t.expr s!"the GROUP BY key \"{t.name}\""
    pure { spec with
      populateTargets := spec.populateTargets ++ [.expr (deparser.expr m t.expr) t.name]
      groupExprs := spec.groupExprs ++ [deparser.expr m t.expr]
      columns := spec.columns ++ [⟨deparser.expr m t.expr, t.name⟩] }
  else match t.expr with
    | .aggref agg how aggdirectargs args aggfilter => do
      let kind ← classifyAggregate agg how aggdirectargs args aggfilter t.name
      spec.add deparser m t.name kind
    | node =>
      if node.containAggClause then reject s!"column \"{t.name}\" is an expression over an aggregate; alias the aggregate and compute outside the view"
      else reject s!"column \"{t.name}\" is neither a GROUP BY key nor an accepted aggregate"

def AggregateSpec.targets (deparser : Deparser) (m : Moment) (refs : List Nat) (spec : AggregateSpec) : List (TargetEntry Moment) → Except ApiError AggregateSpec
  | [] => .ok spec
  | t :: ts => do
    let next ← spec.target deparser m refs t
    next.targets deparser m refs ts

/-- Hidden columns go after the user's; the group count is added when the definition has none. -/
def AggregateSpec.finish (spec : AggregateSpec) : AggregateSpec :=
  let spec := { spec with populateTargets := spec.populateTargets ++ spec.hiddenTargets }
  match spec.countAlias with
  | some _ => spec
  | none => { spec with
      populateTargets := spec.populateTargets ++ [.countStar hiddenCount]
      countAlias := some hiddenCount
      hiddenColumns := spec.hiddenColumns ++ [hiddenCount] }

def projectionColumns (deparser : Deparser) (m : Moment) : List (TargetEntry Moment) → Except ApiError (List OutputColumn)
  | [] => .ok []
  | t :: ts => do
    requireImmutable t.expr s!"column \"{t.name}\""
    let rest ← projectionColumns deparser m ts
    pure (⟨deparser.expr m t.expr, t.name⟩ :: rest)

/-- The type of a key column, for the text `alias.column`. -/
def RelationFacts.keyKind (kindOf : String → Kind) (facts : RelationFacts) (key : Int × String) : Kind := kindOf (facts.atttype key.1)

def hiddenKeys (kindOf : String → Kind) (aliases : List String) (rels : List ListedRelation) : List OutputColumn :=
  rels.flatMap fun rel => rel.facts.primaryKey.map fun key =>
    ⟨.column (aliases.idxOf rel.aliasName) key.2 (rel.facts.keyKind kindOf key), hiddenKey rel.rti key.2⟩

def selectedKeys (varno : Nat) (visible : List (TargetEntry Moment)) : List (Int × String) → List String × List String
  | [] => ([], [])
  | key :: keys =>
    let rest := selectedKeys varno visible keys
    match visible.find? fun t => t.expr.isPlainVar varno key.1 with
    | some t => (t.name :: rest.1, rest.2)
    | none => (rest.1, key.2 :: rest.2)

/-- `BaseTable`. -/
structure BaseFacts where
  oid : Nat
  qualified : String
  replident : String
  pkColumns : List String

/-- What `validate` returns; the populate query as its targets and its GROUP BY. -/
structure Validated where
  spec : ViewSpec
  base : BaseFacts
  hiddenCount : Bool
  visibleColumns : List String
  populateTargets : List PopulateTarget
  groupBy : List SqlExpr

def commonSpec (predicate : Option SqlExpr) (relations : List BaseRelation) : ViewSpec where
  shape := .projection
  predicate := predicate
  columns := []
  pkColumns := []
  pkViewColumns := []
  countAlias := none
  counts := []
  sums := []
  relations := relations
  selectList := []
  hiddenColumns := []

def plainTarget (o : OutputColumn) : PopulateTarget := .expr o.expr o.aliasName

def validateAggregate (deparser : Deparser) (m : Moment) (refs : List Nat) (visible : List (TargetEntry Moment)) (base : BaseFacts) (common : ViewSpec) :
    Except ApiError Validated := do
  rejectIf refs.isEmpty "aggregates require a GROUP BY clause"
  let made ← AggregateSpec.empty.targets deparser m refs visible
  rejectIf made.columns.isEmpty "at least one GROUP BY key must be selected"
  let spec := made.finish
  pure {
    spec := { common with
      shape := .aggregate
      columns := spec.columns
      countAlias := spec.countAlias
      counts := spec.counts
      sums := spec.sums
      hiddenColumns := spec.hiddenColumns }
    base := base
    hiddenCount := made.countAlias.isNone
    visibleColumns := visible.map TargetEntry.name
    populateTargets := spec.populateTargets
    groupBy := spec.groupExprs }

def validateProjection (kindOf : String → Kind) (deparser : Deparser) (m : Moment) (isJoin : Bool) (rels : List ListedRelation) (first : ListedRelation)
    (refs : List Nat) (visible : List (TargetEntry Moment)) (base : BaseFacts) (common : ViewSpec) : Except ApiError Validated := do
  rejectIf (!refs.isEmpty) "GROUP BY without an aggregate is not supported"
  let columns ← projectionColumns deparser m visible
  let visibleColumns := visible.map TargetEntry.name
  if isJoin then
    let hidden := hiddenKeys kindOf (rels.map ListedRelation.aliasName) rels
    let names := hidden.map OutputColumn.aliasName
    pure ⟨{ common with columns := columns, pkViewColumns := names, selectList := columns ++ hidden, hiddenColumns := names },
      base, false, visibleColumns, (columns ++ hidden).map plainTarget, []⟩
  else
    rejectIf first.facts.primaryKey.isEmpty s!"{base.qualified} has no primary key; a projection view needs one to locate deleted rows"
    let keys := selectedKeys first.entry.rtIndex visible first.facts.primaryKey
    let missing := ", ".intercalate keys.2
    rejectIf (!keys.2.isEmpty)
      s!"the select list must include the primary key column(s) of {base.qualified} as plain columns: missing {missing}"
    pure ⟨{ common with columns := columns, pkColumns := base.pkColumns, pkViewColumns := keys.1, selectList := columns },
      base, false, visibleColumns, columns.map plainTarget, []⟩

/-- `validate`, of an analyzed query. -/
def Query.validate (kindOf : String → Kind) (cat : SystemCatalog) (m : Moment) (q : Query Moment) : Except ApiError Validated := do
  rejectUnsupportedClauses q
  let entries ← q.collectRelations
  let isJoin := decide (1 < entries.length)
  let rels ← listRelations cat isJoin 1 [] entries
  match rels with
  | [] => reject "a FROM clause with one or more ordinary tables is required"
  | first :: _ =>
    let base : BaseFacts := ⟨first.entry.rte.relid, first.qualified, first.facts.replident, first.facts.pkColumns⟩
    let allowed := entries.map RelEntry.rtIndex
    let quals ← q.jointree.collectQuals
    let deparser : Deparser := if isJoin then .forRtable cat q.rtable (rels.map ListedRelation.aliasName) else .single first.facts
    checkQuals (if isJoin then "the WHERE or ON clause" else "the WHERE clause") allowed quals
    let refs := q.groupClause
    rejectIf (q.targetList.any fun t => t.resjunk && t.grouped refs) "every GROUP BY expression must also appear in the select list"
    let visible := q.visible
    rejectIf visible.isEmpty "the select list is empty"
    checkTargets allowed [] visible
    let varRefs := quals.flatMap Node.referencedVars ++ visible.flatMap fun t => t.expr.referencedVars
    let relations ← useRelations isJoin varRefs (quals.flatMap Node.joinKeyVars) rels
    let common := commonSpec (predicateOf (quals.map (deparser.expr m))) relations
    if q.hasAggs then validateAggregate deparser m refs visible base common
    else validateProjection kindOf deparser m isJoin rels first refs visible base common

/-- PostgreSQL's parser and its analyzer, with the names and privileges of the session. -/
structure Frontend (RawStmt Moment : Type) where
  rawParser : String → Except ApiError (List RawStmt)
  parseAnalyze : RawStmt → Except ApiError (Query Moment)

def Frontend.analyze {RawStmt : Type} (front : Frontend RawStmt Moment) (definition : String) : Except ApiError (Query Moment) :=
  if definition.contains '\x00' then .error (errInvalid "nabla: the definition contains a NUL byte")
  else match front.rawParser definition with
    | .error e => .error e
    | .ok [] => reject "the definition is empty"
    | .ok [statement] => front.parseAnalyze statement
    | .ok statements => reject s!"the definition must be exactly one SELECT statement, found {statements.length}"

def Frontend.validate {RawStmt : Type} (front : Frontend RawStmt Moment) (kindOf : String → Kind) (cat : SystemCatalog) (m : Moment) (definition : String) :
    Except ApiError Validated :=
  match front.analyze definition with
  | .error e => .error e
  | .ok q => q.validate kindOf cat m

end Nabla
