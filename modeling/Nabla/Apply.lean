import Nabla.Definition
import Nabla.Pgoutput

/-! Planning and execution of view deltas. Planning evaluates the view's own query
over a one-row VALUES built from the decoded row, joined with the shadows of the
other relations; execution applies the planned rows to the storage table and
returns the subscriber deltas, which `net` reduces per source transaction. -/
namespace Nabla

inductive DeltaOp where
  | I
  | D
deriving DecidableEq

/-- A delta row produced for the subscriber log. -/
structure Delta where
  op : DeltaOp
  rowJson : Json
deriving DecidableEq

inductive Sign where
  | plus
  | minus
deriving DecidableEq

/-- One planned change to a view table. -/
inductive Op where
  /-- A row shaped like the view table, to insert or delete (projection), or one
  group's contribution, to add or remove (aggregate). -/
  | row (sign : Sign) (rowJson : Json)
  /-- Delete by typed key values: view column and type of each, then the texts. -/
  | deleteByKey (conds : List (String × String)) (values : List String)
deriving DecidableEq

inductive Planned where
  | ops (ops : List Op)
  | stale (reason : String)

/-- One parameter `$n::type` of the VALUES row. -/
def bindValue (pf : Platform) (col : RelationColumn) (v : ColumnValue) : Except String Datum :=
  match col.typeName with
  | none => .error s!"type of column {col.name} not resolved"
  | some ty =>
    match v with
    | .text s =>
      match pf.input ty s with
      | some d => .ok d
      | none => .error s!"invalid input syntax for type {ty}"
    | _ => .ok .null

/-- `values_source` with `row_args`: a statement with a parameter for every column
needs a value for every parameter. -/
def bindValues (pf : Platform) : List RelationColumn → Tuple → Except String (List (String × Datum))
  | [], _ => .ok []
  | _ :: _, [] => .error "there is no parameter for a column"
  | col :: cols, v :: vs =>
    match bindValue pf col v, bindValues pf cols vs with
    | .ok d, .ok rest => .ok ((col.name, d) :: rest)
    | .error e, _ => .error e
    | _, .error e => .error e

/-- The row `(VALUES ($1::t1, ...)) AS alias(c1, ...)` of a decoded tuple. -/
def bindRow (pf : Platform) (rel : Relation) (tuple : Tuple) : Except String BaseRow :=
  (bindValues pf rel.columns tuple).map fun vals name => (vals.lookup name).getD .null

inductive Unresolved where
  | stale (reason : String)
  /-- A marker at a position the description does not have: the source panics. -/
  | outOfBounds
deriving DecidableEq

/-- Substitute unchanged-TOAST markers from the old tuple when available. A column
the definition never mentions becomes NULL; any other makes the view stale. -/
def resolveUnchanged (definitionMentions : String → Bool) :
    List RelationColumn → Tuple → Option Tuple → Except Unresolved Tuple
  | _, [], _ => .ok []
  | cols, v :: vs, old =>
    let rest := resolveUnchanged definitionMentions cols.tail vs (old.map List.tail)
    match v with
    | .unchanged =>
      match cols with
      | [] => .error .outOfBounds
      | col :: _ =>
        match old.bind List.head? with
        | some .null => rest.map (.null :: ·)
        | some (.text s) => rest.map (.text s :: ·)
        | _ =>
          if definitionMentions col.name then
            .error (.stale s!"unchanged TOAST value for column {col.name} could not be recovered (REPLICA IDENTITY FULL is required)")
          else rest.map (.null :: ·)
    | v => rest.map (v :: ·)

/-- `delta_rows`: the view's own query over an arbitrary FROM list. -/
def deltaRows (spec : ViewSpec) (fromList : List (List BaseRow)) (sign : Sign) : List Op :=
  (spec.evalQuery fromList).map fun r => .row sign r.toJsonb

def planSingleInsert (pf : Platform) (spec : ViewSpec) (rel : Relation) (new : Tuple) :
    Except String (List Op) :=
  (bindRow pf rel new).map fun row => deltaRows spec [[row]] .plus

/-- The conditions of a keyed delete: `v.view_col = $n::type` for each key column. -/
def keyConditions (rel : Relation) (old : Tuple) :
    List (String × String) → Except String (Except String (List ((String × String) × String)))
  | [] => .ok (.ok [])
  | (pk, viewCol) :: rest =>
    match rel.columns.findIdx? (·.name = pk) with
    | none => .error s!"primary key column {pk} missing"
    | some idx =>
      match (rel.columns[idx]?.bind RelationColumn.typeName) with
      | none => .error "type not resolved"
      | some ty =>
        match old[idx]? with
        | some (.text s) => (keyConditions rel old rest).map (·.map (((viewCol, ty), s) :: ·))
        | none => .error "index out of bounds"
        | some _ => .ok (.error s!"primary key column {pk} missing from the decoded old row")

def planSingleDelete (pf : Platform) (spec : ViewSpec) (rel : Relation) (keyKind : UInt8)
    (old : Tuple) : Except String Planned :=
  match spec.shape with
  | .projection =>
    (keyConditions rel old (spec.pkColumns.zip spec.pkViewColumns)).map fun
      | .error reason => .stale reason
      | .ok conds => .ops [.deleteByKey (conds.map Prod.fst) (conds.map Prod.snd)]
  | .aggregate =>
    if keyKind != fullOldTuple then
      .ok (.stale "old row not available; the base table needs REPLICA IDENTITY FULL")
    else (bindRow pf rel old).map fun row => .ops (deltaRows spec [[row]] .minus)

/-- The FROM list of a join delta: the row at its own position, shadows elsewhere. -/
def joinSources (shadowTables : Nat → Option (List BaseRow)) (relIndex : Nat) (row : BaseRow) :
    Nat → List BaseRelation → Except String (List (List BaseRow))
  | _, [] => .ok []
  | i, r :: rs =>
    match joinSources shadowTables relIndex row (i + 1) rs with
    | .error e => .error e
    | .ok rest =>
      if i = relIndex then .ok ([row] :: rest)
      else match shadowTables r.oid with
        | some table => .ok (table :: rest)
        | none => .error s!"relation nabla_shadow.t{r.oid} does not exist"

def planJoin (pf : Platform) (shadowTables : Nat → Option (List BaseRow)) (spec : ViewSpec)
    (relIndex : Nat) (rel : Relation) (tuple : Tuple) (sign : Sign) : Except String (List Op) :=
  match bindRow pf rel tuple with
  | .error e => .error e
  | .ok row =>
    (joinSources shadowTables relIndex row 0 spec.relations).map fun sources =>
      deltaRows spec sources sign

def sameKey (spec : ViewSpec) (v d : Record) : Bool :=
  spec.pkViewColumns.all fun c => sqlEq (v.get c) (d.get c)

def projectionRow (spec : ViewSpec) (sign : Sign) (rowJson : Json) (storage : List Record) :
    Except String (List Record × List Delta) :=
  match populateRecord spec.tableColumns rowJson with
  | none => .error "invalid input for a column of the view table"
  | some row =>
    match sign with
    | .plus =>
      if storage.any (sameKey spec · row) then
        .error "duplicate key value violates unique constraint"
      else .ok (storage ++ [row], [⟨.I, row.toJsonb⟩])
    | .minus =>
      .ok (storage.filter fun v => !sameKey spec v row,
        (storage.filter (sameKey spec · row)).map fun v => ⟨.D, v.toJsonb⟩)

/-- `v.alias IS NOT DISTINCT FROM src.alias` on every group key, which is also when
the `NULLS NOT DISTINCT` key index finds a conflict. -/
def sameGroup (spec : ViewSpec) (v src : Record) : Bool :=
  spec.columns.all fun c => v.get c.aliasName == src.get c.aliasName

/-- `(sign) * x`; NULL stays NULL. -/
def Datum.signed (sign : Sign) : Datum → Datum
  | .num n => .num (match sign with | .plus => n | .minus => n.neg)
  | _ => .null

/-- `a + b` on `numeric`; NULL when either is NULL. -/
def Datum.add : Datum → Datum → Datum
  | .num a, .num b => .num (a.add b)
  | _, _ => .null

/-- The row the upsert inserts: the contribution with its sign. -/
def signedRow (spec : ViewSpec) (count : String) (sign : Sign) (src : Record) : Record :=
  spec.columns.map (fun c => (c.aliasName, src.get c.aliasName)) ++
    (count, (src.get count).signed sign) ::
      spec.counts.map (fun c => (c.aliasName, (src.get c.aliasName).signed sign)) ++
    spec.sums.flatMap (fun su =>
      [(su.aliasName, (src.get su.aliasName).signed sign), (su.counter, (src.get su.counter).signed sign)])

/-- The CASE that keeps a stored sum NULL exactly when its counter is 0. -/
def mergeSum (v excluded vnn exnn : Datum) : Datum :=
  if vnn.add exnn = .num (.fin 0) then .null
  else if excluded = .null then v
  else if v = .null then excluded
  else v.add excluded

/-- `ON CONFLICT DO UPDATE SET ...`: the stored row with the contribution merged in. -/
def mergeRow (spec : ViewSpec) (count : String) (v excluded : Record) : Record :=
  spec.columns.map (fun c => (c.aliasName, v.get c.aliasName)) ++
    (count, (v.get count).add (excluded.get count)) ::
      spec.counts.map (fun c => (c.aliasName, (v.get c.aliasName).add (excluded.get c.aliasName))) ++
    spec.sums.flatMap (fun su =>
      [(su.aliasName, mergeSum (v.get su.aliasName) (excluded.get su.aliasName) (v.get su.counter)
          (excluded.get su.counter)),
        (su.counter, (v.get su.counter).add (excluded.get su.counter))])

/-- `v.count <= 0`. -/
def countExhausted (count : String) (v : Record) : Bool :=
  match v.get count with
  | .num (.fin q) => q ≤ 0
  | .num .negInf => true
  | _ => false

/-- Add or remove one group contribution. -/
def aggregateRow (spec : ViewSpec) (sign : Sign) (rowJson : Json) (storage : List Record) :
    Except String (List Record × List Delta) :=
  match spec.countAlias with
  | none => .error "aggregate view without count(*)"
  | some count =>
    match populateRecord spec.tableColumns rowJson with
    | none => .error "invalid input for a column of the view table"
    | some src =>
      let previous := storage.filter (sameGroup spec · src)
      let excluded := signedRow spec count sign src
      let newRow := match previous with
        | [] => excluded
        | v :: _ => mergeRow spec count v excluded
      let upserted := match previous with
        | [] => storage ++ [newRow]
        | _ :: _ => storage.map fun w => if sameGroup spec w src then newRow else w
      let removed := previous.map fun v => Delta.mk .D v.toJsonb
      match newRow.get count with
      | .num (.fin newCount) =>
        if 0 < newCount then .ok (upserted, removed ++ [⟨.I, newRow.toJsonb⟩])
        else .ok (upserted.filter fun w => !countExhausted count w, removed)
      -- `text || NULL` is NULL, and a NULL is not collected from RETURNING
      | .null => .ok (upserted, [])
      | _ => .error "bad count"

def keyDatums (pf : Platform) : List (String × String) → List String →
    Except String (List (String × Datum))
  | (viewCol, ty) :: conds, s :: values =>
    match pf.input ty s, keyDatums pf conds values with
    | some d, .ok rest => .ok ((viewCol, d) :: rest)
    | none, _ => .error s!"invalid input syntax for type {ty}"
    | _, .error e => .error e
  | _, _ => .ok []

def executeOp (pf : Platform) (spec : ViewSpec) (storage : List Record) :
    Op → Except String (List Record × List Delta)
  | .deleteByKey conds values =>
    (keyDatums pf conds values).map fun key =>
      let hit := fun v : Record => key.all fun c => sqlEq (v.get c.1) c.2
      (storage.filter fun v => !hit v, (storage.filter hit).map fun v => ⟨.D, v.toJsonb⟩)
  | .row sign rowJson =>
    match spec.shape with
    | .projection => projectionRow spec sign rowJson storage
    | .aggregate => aggregateRow spec sign rowJson storage

/-- Apply planned operations to the view table, in order. -/
def execute (pf : Platform) (spec : ViewSpec) : List Record → List Op →
    Except String (List Record × List Delta)
  | storage, [] => .ok (storage, [])
  | storage, op :: ops =>
    match executeOp pf spec storage op with
    | .error e => .error e
    | .ok (storage', deltas) =>
      (execute pf spec storage' ops).map fun (last, more) => (last, deltas ++ more)

def identityColumns (spec : ViewSpec) : List String :=
  match spec.shape with
  | .aggregate => spec.columns.map OutputColumn.aliasName
  | .projection => spec.pkViewColumns

def visible (spec : ViewSpec) : Json → Json
  | .obj fields => .obj (fields.filter fun f => !spec.hiddenColumns.contains f.1)
  | j => j

/-- The first row carried by a `D` and the last event of one identity key. -/
structure NetState where
  key : List Json
  before : Option Json
  after : Option Json

/-- One event of a key: only the first `D` and the last event are kept. -/
def netEvent (key : List Json) (op : DeltaOp) (row : Json) : List NetState → List NetState
  | [] => [⟨key, if op = .D then some row else none, if op = .I then some row else none⟩]
  | s :: states =>
    if s.key = key then { s with after := if op = .I then some row else none } :: states
    else s :: netEvent key op row states

def netStates (pf : Platform) (spec : ViewSpec) : List Delta → List NetState → List NetState
  | [], states => states
  | d :: ds, states =>
    match pf.serdeParse d.rowJson with
    | none => netStates pf spec ds states
    | some row =>
      let key := (identityColumns spec).map fun c => (row.field c).getD .null
      netStates pf spec ds (netEvent key d.op row states)

/-- The net effect of one source transaction's deltas per identity key. -/
def net (pf : Platform) (spec : ViewSpec) (deltas : List Delta) : List Delta :=
  (netStates pf spec deltas []).flatMap fun s =>
    if s.before.map (visible spec) = s.after.map (visible spec) then []
    else (s.before.map (Delta.mk .D)).toList ++ (s.after.map (Delta.mk .I)).toList

end Nabla
