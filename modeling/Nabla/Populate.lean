import Nabla.Shadow

/-! Population: `build`, `populate_group`, `record_failure` and `run_pending` of `populate.rs`. -/
namespace Nabla

/-- What the population transaction sees of the database under its snapshot, and what the
definition texts validate to in the worker's session. -/
structure Sight where
  table : Nat → BaseTable
  validate : String → Except String ViewSpec
  /-- An error PostgreSQL raises while a view is built. -/
  fault : Nat → Option String

def Catalog.updateView (c : Catalog) (id : Nat) (f : ViewRow → ViewRow) : Catalog :=
  { c with views := c.views.map fun row => if row.id = id then f row else row }

def Catalog.referencing (c : Catalog) (relid : Nat) : List ViewSpec :=
  (c.views.filter fun row => c.viewRelations.contains (row.id, relid)).map ViewRow.spec

/-- `needed_columns`: what a shadow of the table must hold, and its join keys. -/
def neededColumns (c : Catalog) (relid : Nat) (own : ViewSpec) : List String × List String :=
  let rels := (c.referencing relid ++ [own]).flatMap fun spec => spec.relations.filter (·.oid = relid)
  (rels.flatMap BaseRelation.usedColumns, rels.flatMap BaseRelation.joinKeys)

/-- The shadows of a join view's relations, each handled once in the group. -/
def buildShadows (sight : Sight) (point : Nat) (rebuild : Bool) (spec : ViewSpec) :
    List BaseRelation → List Nat → Catalog → Catalog × List Nat
  | [], done, c => (c, done)
  | rel :: rels, done, c =>
    if done.contains rel.oid then buildShadows sight point rebuild spec rels done c
    else
      let (needed, keys) := neededColumns c rel.oid spec
      let shadows :=
        if rebuild then rebuildShadow rel point needed keys (sight.table rel.oid) c.shadows
        else ensureShadow rel point needed keys (sight.table rel.oid) c.shadows
      buildShadows sight point rebuild spec rels (rel.oid :: done) { c with shadows := shadows }

/-- The row of a view that was just built. -/
def ViewRow.built (row : ViewRow) (point : Nat) (rebuild : Bool) (storage : List Record) : ViewRow :=
  { row with
    storage := storage
    frontier := point
    epoch := row.epoch + if rebuild then 1 else 0
    status := .live
    applyFailures := 0
    lastError := none
    staleReason := none
    populated := true
    deltas := [] }

def Sight.populate (sight : Sight) (spec : ViewSpec) : List Record :=
  spec.evalQuery (spec.relations.map fun r => (sight.table r.oid).rows)

/-- `build`: one view of a group. A definition that no longer resolves fails this view alone. -/
def build (sight : Sight) (point : Nat) (view : Pending) (done : List Nat) (c : Catalog) : Except String (Catalog × List Nat) :=
  match sight.fault view.id with
  | some message => .error message
  | none =>
    let rebuild := decide (view.status = .refreshing) && view.populated
    let validated := if rebuild then sight.validate view.definition else .ok view.spec
    match validated with
    | .error message =>
      .ok (c.updateView view.id fun row => { row with status := .failed, lastError := some message }, done)
    | .ok spec =>
      let c := if rebuild then c.updateView view.id fun row => { row with spec := spec } else c
      let (c, done) := if spec.isJoin then buildShadows sight point rebuild spec spec.relations done c else (c, done)
      .ok (c.updateView view.id fun row => row.built point rebuild (sight.populate spec), done)

def buildGroup (sight : Sight) (point : Nat) : List Pending → List Nat → Catalog → Except String Catalog
  | [], _, c => .ok c
  | view :: views, done, c =>
    match build sight point view done c with
    | .error message => .error message
    | .ok (c, done) => buildGroup sight point views done c

/-- `populate_group`: the whole group in one transaction, or nothing. The main slot, when
there is one, may not be past the consistent point. -/
def populateGroup (sight : Sight) (point : Nat) (slot : Option Nat) (views : List Pending) (c : Catalog) :
    Except String Catalog :=
  match slot with
  | none => buildGroup sight point views [] c
  | some main =>
    if point < main then .error s!"main slot at {formatLsn main} is past the consistent point {formatLsn point}"
    else buildGroup sight point views [] c

/-- `record_failure`: every member of the group fails. -/
def Catalog.recordFailure (c : Catalog) (views : List Pending) (message : String) : Catalog :=
  views.foldl (fun c view => c.updateView view.id fun row => { row with status := .failed, lastError := some message }) c

/-- One group of `run_pending`: built, or failed as a whole. -/
def Catalog.populate (sight : Sight) (point : Nat) (slot : Option Nat) (views : List Pending) (c : Catalog) : Catalog :=
  match populateGroup sight point slot views c with
  | .ok c' => c'
  | .error message => c.recordFailure views message

end Nabla
