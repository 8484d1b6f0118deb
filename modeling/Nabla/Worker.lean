import Nabla.Catalog
import Nabla.Lsn

/-! One round of the background worker: plan every row change of a peek for every
live view while the shadows absorb it, execute each view's rows per source
transaction, and write the bookkeeping once at the end. An object whose frontier
is at or past a transaction has absorbed it and skips it. -/
namespace Nabla

/-- The `nabla.*` settings a round reads. -/
structure Settings where
  maxApplyFailures : Nat
  retainDeltas : Nat
  maxSlotLagBytes : Int

/-- Errors the environment raises in a subtransaction, whatever its statements do:
for a view id, a shadow's table, the transaction's end and the change's position. -/
structure Faults where
  plan : (view endLsn change relid : Nat) → Option String
  execute : (view endLsn : Nat) → Option String
  readShadow : (relid endLsn change : Nat) → Option String
  writeShadow : (relid endLsn change : Nat) → Option String

def Faults.none : Faults := ⟨fun _ _ _ _ => .none, fun _ _ => .none, fun _ _ _ => .none, fun _ _ _ => .none⟩

/-- `execute` runs a statement for each operation, so without one nothing strikes. -/
def Faults.executing (faults : Faults) (view endLsn : Nat) (ops : List Op) : Option String :=
  if ops.isEmpty then .none else faults.execute view endLsn

@[simp] theorem Faults.executing_none (view endLsn : Nat) (ops : List Op) : Faults.none.executing view endLsn ops = .none := ite_self _

/-- An error of the body or of the environment rolls the subtransaction back. -/
def inSubtransaction {α : Type} (fault : Option String) (body : Except String α) : Except String α :=
  match fault with
  | some message => .error message
  | none => body

theorem ok_of_map {α β ε : Type} {f : α → β} {x : Except ε α} {b : β} (mapped : x.map f = .ok b) : ∃ a, x = .ok a ∧ f a = b := by
  cases x with
  | error e => cases mapped
  | ok a => exact ⟨a, rfl, Except.ok.inj mapped⟩

/-- A live view during a round. `row` is its catalog row and storage table as this
transaction has written them; `absorbed` lists the ends of the transactions the
round applied to it, of which the source keeps the last. -/
structure LiveView where
  row : ViewRow
  frontier : Nat
  lastSeq : Nat
  applyFailures : Nat
  ops : List Op
  failed : Option String
  stale : Option String
  dead : Bool
  failedThisRound : Bool
  pending : List LoggedDelta
  absorbed : List Nat

def LiveView.load (row : ViewRow) : LiveView where
  row := row
  frontier := row.frontier
  lastSeq := row.lastSeq
  applyFailures := row.applyFailures
  ops := []
  failed := none
  stale := none
  dead := false
  failedThisRound := false
  pending := []
  absorbed := []

def ViewSpec.relationIndex (spec : ViewSpec) (relid : Nat) : Option Nat :=
  spec.relations.findIdx? (·.oid = relid)

def Relation.columnIndex (rel : Relation) (name : String) : Option Nat :=
  rel.columns.findIdx? (·.name = name)

/-- True when `old` and `new` differ in a column of `relid` the view uses. An
unchanged-TOAST marker counts as equal; without an old row the answer is true. -/
def ViewSpec.touchesUsedColumns (spec : ViewSpec) (relid : Nat) (rel : Relation)
    (old : Option Tuple) (new : Tuple) : Bool :=
  match (spec.relationIndex relid).bind (spec.relations[·]?), old with
  | some base, some old =>
    base.usedColumns.any fun name =>
      match rel.columnIndex name with
      | none => true
      | some i =>
        match old[i]?, new[i]? with
        | _, some .unchanged => false
        | some o, some n => o != n
        | _, _ => true
  | _, _ => true

def LiveView.activeFor (view : LiveView) (relid endLsn : Nat) : Bool :=
  view.failed.isNone && view.stale.isNone && decide (view.frontier < endLsn) &&
    (view.row.spec.relationIndex relid).isSome

def Relation.provides (rel : Relation) (name type : String) : Bool :=
  rel.columns.any fun c => c.name = name && c.typeName = some type

def driftReason (column qualified : String) : String :=
  s!"column \"{column}\" of {qualified} was dropped, renamed or changed type"

/-- The first used column the decoded relation no longer provides as expected. -/
def ViewSpec.drift (spec : ViewSpec) (relid : Nat) (rel : Relation) : Option String :=
  ((spec.relationIndex relid).bind (spec.relations[·]?)).bind fun base =>
    ((base.usedColumns.zip base.usedColumnTypes).find? fun c => !rel.provides c.1 c.2).map
      fun c => driftReason c.1 base.qualified

/-- `str::contains`. -/
def containsText (text part : String) : Bool := text.toList.tails.any part.toList.isPrefixOf

def definitionMentions (pf : Platform) (definition column : String) : Bool :=
  containsText (pf.lowercase definition) (pf.lowercase column)

/-- `resolve_types`: the missing type names through `format_type`. -/
def resolveTypes (pf : Platform) : List RelationColumn → Except String (List RelationColumn)
  | [] => .ok []
  | col :: cols =>
    match col.typeName with
    | some _ => (resolveTypes pf cols).map (col :: ·)
    | none =>
      match pf.formatType col.typid col.typmod with
      | none => .error s!"unknown type oid {col.typid}"
      | some ty => (resolveTypes pf cols).map ({ col with typeName := some ty } :: ·)

/-- The description of each changed relation, taken from the decoder's cache. -/
def collectRelations (pf : Platform) : List Nat → (Nat → Option Relation) →
    List (Nat × Relation) → Except String ((Nat → Option Relation) × List (Nat × Relation))
  | [], cache, rels => .ok (cache, rels)
  | relid :: relids, cache, rels =>
    if (rels.lookup relid).isSome then collectRelations pf relids cache rels
    else match cache relid with
      | none => .error s!"change for unknown relation {relid}"
      | some rel =>
        match resolveTypes pf rel.columns with
        | .error e => .error e
        | .ok columns =>
          let rel := { rel with columns }
          collectRelations pf relids (fun id => if id = relid then some rel else cache id)
            (rels ++ [(relid, rel)])

def changedRelids (txs : List SourceTransaction) : List Nat :=
  txs.flatMap fun tx => tx.changes.flatMap Change.relids

/-- The text of a column in the old tuple, else in the new one. -/
def keyText (old new : Option Tuple) (idx : Nat) : Option String :=
  match old.bind (·[idx]?), new.bind (·[idx]?) with
  | some (.text s), _ => some s
  | _, some (.text s) => some s
  | _, _ => none

def keyValuesFrom (rel : Relation) (old new : Option Tuple) :
    List String → Except String (List (Nat × String))
  | [] => .ok []
  | pk :: pks =>
    match rel.columnIndex pk with
    | none => .error s!"primary key column {pk} is missing from the decoded row"
    | some idx =>
      match keyText old new idx with
      | none => .error s!"primary key column {pk} has no value in the decoded row"
      | some value => (keyValuesFrom rel old new pks).map ((idx, value) :: ·)

def keyValues (pkColumns : List String) (rel : Relation) (old new : Option Tuple) :
    Except String (List (Nat × String)) :=
  if pkColumns = [] then .error "no primary key columns recorded for the shadow"
  else keyValuesFrom rel old new pkColumns

/-- `key_predicate` as evaluated: the typed value each key column must equal. -/
def keyPredicate (pf : Platform) (rel : Relation) :
    List (Nat × String) → Except String (List (String × Datum))
  | [] => .ok []
  | (idx, value) :: keys =>
    match rel.columns[idx]? with
    | none => .error "index out of bounds"
    | some col =>
      match bindValue pf col (.text value) with
      | .error e => .error e
      | .ok d => (keyPredicate pf rel keys).map ((col.name, d) :: ·)

def keyMatches (key : List (String × Datum)) (row : BaseRow) : Bool :=
  key.all fun c => sqlEq (row c.1) c.2

def changeKey (pf : Platform) (shadow : ShadowRow) (rel : Relation) (old new : Option Tuple) :
    Except String (List (String × Datum)) :=
  match keyValues shadow.pkColumns rel old new with
  | .error e => .error e
  | .ok keys => keyPredicate pf rel keys

def shadowColumnIndexes (shadow : ShadowRow) (rel : Relation) : List Nat :=
  shadow.columns.filterMap rel.columnIndex

/-- A shadow row in the description's column order, as text; NULL for the columns
the shadow does not hold. -/
def shadowTuple (pf : Platform) (shadow : ShadowRow) (rel : Relation) (row : BaseRow) : Tuple :=
  rel.columns.zipIdx.map fun (col, i) =>
    if (shadowColumnIndexes shadow rel).contains i then
      match row col.name with
      | .null => .null
      | d => .text (pf.textCast d)
    else .null

/-- The full old row of a change, read from the shadow by primary key. -/
def shadowOldRow (pf : Platform) (shadow : ShadowRow) (rel : Relation) (old new : Option Tuple) :
    Except String Tuple :=
  match changeKey pf shadow rel old new with
  | .error e => .error e
  | .ok key =>
    match shadow.rows.find? (keyMatches key) with
    | none => .error s!"row not found in shadow {shadow.tableName} (shadow out of sync with the base table)"
    | some row => .ok (shadowTuple pf shadow rel row)

def shadowInsertValues (pf : Platform) (rel : Relation) (row : Tuple) :
    List Nat → Except String (List (String × Datum))
  | [] => .ok []
  | idx :: indexes =>
    match rel.columns[idx]?, row[idx]? with
    | some col, some v =>
      match bindValue pf col v with
      | .error e => .error e
      | .ok d => (shadowInsertValues pf rel row indexes).map ((col.name, d) :: ·)
    | _, _ => .error "index out of bounds"

def shadowDelete (pf : Platform) (shadow : ShadowRow) (rel : Relation) (old new : Option Tuple)
    (rows : List BaseRow) : Except String (List BaseRow) :=
  (changeKey pf shadow rel old new).map fun key => rows.filter fun r => !keyMatches key r

def shadowInsert (pf : Platform) (shadow : ShadowRow) (rel : Relation) (row : Tuple)
    (rows : List BaseRow) : Except String (List BaseRow) :=
  if shadowColumnIndexes shadow rel = [] then
    .error "the shadow has no active column present in the decoded row"
  else match shadowInsertValues pf rel row (shadowColumnIndexes shadow rel) with
    | .error e => .error e
    | .ok vals =>
      let new : BaseRow := fun name => (vals.lookup name).getD .null
      if rows.any (fun r => shadow.pkColumns.all fun c => sqlEq (r c) (new c)) then
        .error "duplicate key value violates unique constraint"
      else .ok (rows ++ [new])

/-- Apply a change to the shadow: insert, delete by key, or delete then insert. -/
def shadowApply (pf : Platform) (shadow : ShadowRow) (rel : Relation) (change : Change)
    (oldFull newFull : Option Tuple) : Except String (List BaseRow) :=
  match change with
  | .insert _ _ =>
    match newFull with
    | none => .error "missing new row"
    | some new => shadowInsert pf shadow rel new shadow.rows
  | .delete _ _ old => shadowDelete pf shadow rel (some old) none shadow.rows
  | .update _ old new =>
    match shadowDelete pf shadow rel (oldFull.or (old.map Prod.snd)) (some new) shadow.rows with
    | .error e => .error e
    | .ok rows =>
      match newFull with
      | none => .error "missing new row"
      | some new => shadowInsert pf shadow rel new rows
  | .truncate _ => .ok shadow.rows

def recordShadowFailure (shadow : ShadowRow) (message : String) : ShadowRow :=
  { shadow with
    failed := true
    staleReason := some s!"shadow {shadow.tableName} could not be maintained: {message}" }

/-- Active columns that disappeared or changed type leave the active set, unless a
key column is among them, which makes the shadow unmaintainable. -/
def shadowDrift (shadow : ShadowRow) (rel : Relation) (qualified : String) : ShadowRow :=
  let pairs := shadow.columns.zip shadow.columnTypes
  let drifted := (pairs.filter fun c => !rel.provides c.1 c.2).map Prod.fst
  if drifted = [] then shadow
  else
    let reason := "; ".intercalate (drifted.map (driftReason · qualified))
    if drifted.any shadow.pkColumns.contains then recordShadowFailure shadow reason
    else
      let keep := pairs.filter fun c => !drifted.contains c.1
      { shadow with
        columns := keep.map Prod.fst
        columnTypes := keep.map Prod.snd
        staleReason := some reason }

def unavailableOldRow (rel : Relation) : String :=
  s!"old row of {rel.name} unavailable (its shadow is ahead of the view)"

def truncatedReason : String := "base table was truncated; TRUNCATE is not maintained incrementally"

def withResolved (resolved : Except Unresolved Tuple) (next : Tuple → Except String Planned) :
    Except String Planned :=
  match resolved with
  | .ok t => next t
  | .error (.stale reason) => .ok (.stale reason)
  | .error .outOfBounds => .error "index out of bounds"

/-- `plan_change` for a join view: the changed row against the other shadows. -/
def planJoinChange (pf : Platform) (shadowTables : Nat → Option (List BaseRow)) (view : LiveView)
    (rel : Relation) (change : Change) (oldFull : Option Tuple) : Except String Planned :=
  let spec := view.row.spec
  let mentions := definitionMentions pf view.row.definition
  match spec.relationIndex rel.id with
  | none => .error "view does not use this relation"
  | some index =>
    match change with
    | .insert _ new =>
      withResolved (resolveUnchanged mentions rel.columns new none) fun new =>
        (planJoin pf shadowTables spec index rel new .plus).map .ops
    | .delete _ _ _ =>
      match oldFull with
      | none => .ok (.stale (unavailableOldRow rel))
      | some old => (planJoin pf shadowTables spec index rel old .minus).map .ops
    | .update _ _ new =>
      match oldFull with
      | none => .ok (.stale (unavailableOldRow rel))
      | some old =>
        if !spec.touchesUsedColumns rel.id rel (some old) new then .ok (.ops [])
        else match planJoin pf shadowTables spec index rel old .minus with
          | .error e => .error e
          | .ok removed =>
            withResolved (resolveUnchanged mentions rel.columns new (some old)) fun new =>
              (planJoin pf shadowTables spec index rel new .plus).map fun added =>
                .ops (removed ++ added)
    | .truncate _ => .ok (.stale truncatedReason)

/-- `plan_change` for a single-table view: the old row comes from pgoutput. -/
def planSingleChange (pf : Platform) (view : LiveView) (rel : Relation) (change : Change) :
    Except String Planned :=
  let spec := view.row.spec
  let mentions := definitionMentions pf view.row.definition
  match change with
  | .insert _ new =>
    withResolved (resolveUnchanged mentions rel.columns new none) fun new =>
      (planSingleInsert pf spec rel new).map .ops
  | .delete _ keyKind old => planSingleDelete pf spec rel keyKind old
  | .update _ old new =>
    if old.any (fun o => o.1 = fullOldTuple && !spec.touchesUsedColumns rel.id rel (some o.2) new) then
      .ok (.ops [])
    else
      -- without an old tuple the key is unchanged: take it from the new row
      let (keyKind, oldTuple) := old.getD (keyTuple, new)
      match planSingleDelete pf spec rel keyKind oldTuple with
      | .error e => .error e
      | .ok (.stale reason) => .ok (.stale reason)
      | .ok (.ops removed) =>
        withResolved (resolveUnchanged mentions rel.columns new (old.map Prod.snd)) fun new =>
          (planSingleInsert pf spec rel new).map fun added => .ops (removed ++ added)
  | .truncate _ => .ok (.stale truncatedReason)

def planChange (pf : Platform) (shadowTables : Nat → Option (List BaseRow)) (view : LiveView)
    (rel : Relation) (change : Change) (oldFull : Option Tuple) : Except String Planned :=
  if view.row.spec.isJoin then planJoinChange pf shadowTables view rel change oldFull
  else planSingleChange pf view rel change

/-- What a round writes while it goes through the peek. -/
structure RoundState where
  views : List LiveView
  shadows : List ShadowRow

/-- The shadow of `relid` when it has yet to absorb the transaction. -/
def activeShadow (shadows : List ShadowRow) (relid endLsn : Nat) : Option ShadowRow :=
  (shadows.find? (·.relid = relid)).filter fun s => !s.failed && decide (s.frontier < endLsn)

/-- The old row of an update or delete, read once for all views. -/
def readOldRow (pf : Platform) (faults : Faults) (endLsn position : Nat) (shadow : ShadowRow)
    (rel : Relation) : Change → Except String (Option Tuple)
  | .update _ old new =>
    (inSubtransaction (faults.readShadow shadow.relid endLsn position)
      (shadowOldRow pf shadow rel (old.map Prod.snd) (some new))).map some
  | .delete _ _ old =>
    (inSubtransaction (faults.readShadow shadow.relid endLsn position)
      (shadowOldRow pf shadow rel (some old) none)).map some
  | _ => .ok none

/-- Plan one change for one view, in its own subtransaction. -/
def planView (pf : Platform) (faults : Faults) (endLsn position relid : Nat)
    (shadowTables : Nat → Option (List BaseRow)) (rel : Relation) (change : Change)
    (oldFull : Except String (Option Tuple)) (view : LiveView) : LiveView :=
  if view.dead || !view.activeFor relid endLsn then view
  else match oldFull, view.row.spec.isJoin with
    | .error e, true =>
      { view with stale := some s!"shadow of {rel.name} could not provide the old row: {e}" }
    | _, _ =>
      match inSubtransaction (faults.plan view.row.id endLsn position relid)
          (planChange pf shadowTables view rel change (oldFull.toOption.getD none)) with
      | .ok (.ops ops) => { view with ops := view.ops ++ ops }
      | .ok (.stale reason) => { view with stale := some reason }
      | .error message => { view with failed := some message }

/-- The complete new row a shadow is to hold; an update whose markers cannot be
resolved has none. -/
def completeNewRow (rel : Relation) (oldFull : Option Tuple) : Change →
    Except String (Option Tuple)
  | .insert _ new => .ok (some new)
  | .update _ _ new =>
    match resolveUnchanged (fun _ => true) rel.columns new oldFull with
    | .ok t => .ok (some t)
    | .error (.stale _) => .ok none
    | .error .outOfBounds => .error "index out of bounds"
  | _ => .ok none

def Change.isUpdate : Change → Bool
  | .update _ _ _ => true
  | _ => false

/-- The shadow's rows after the change, or why it cannot be maintained. -/
def maintainShadow (pf : Platform) (faults : Faults) (endLsn position : Nat) (shadow : ShadowRow)
    (rel : Relation) (change : Change) (oldFull : Except String (Option Tuple))
    (newFull : Option Tuple) : Except String (List BaseRow) :=
  match oldFull with
  | .error e => .error e
  | .ok old =>
    if change.isUpdate && newFull.isNone then
      .error "unchanged TOAST value could not be recovered from the shadow"
    else inSubtransaction (faults.writeShadow shadow.relid endLsn position)
      (shadowApply pf shadow rel change old newFull)

def updateShadow (relid : Nat) (f : ShadowRow → ShadowRow) (shadows : List ShadowRow) :
    List ShadowRow :=
  shadows.map fun s => if s.relid = relid then f s else s

/-- `record_shadow_failure_for_views`, for one view. -/
def shadowLost (relid : Nat) (rel : Relation) (message : String) (view : LiveView) : LiveView :=
  if view.row.spec.isJoin && (view.row.spec.relationIndex relid).isSome && view.stale.isNone &&
      !view.dead then
    { view with stale := some s!"shadow of {rel.name} could not be maintained: {message}" }
  else view

/-- Phase 1 for one relation of one change: every view plans it against the shadows
as they stand, then the shadow of the relation absorbs it. -/
def applyRelid (pf : Platform) (faults : Faults) (rels : List (Nat × Relation)) (endLsn position : Nat)
    (change : Change) (relid : Nat) (st : RoundState) : Except String RoundState :=
  match rels.lookup relid with
  | none => .error s!"change for unknown relation {relid}"
  | some rel =>
    match activeShadow st.shadows relid endLsn with
    | none =>
      .ok { st with
        views := st.views.map
          (planView pf faults endLsn position relid (shadowTable st.shadows) rel change (.ok none)) }
    | some shadow =>
      let oldFull := readOldRow pf faults endLsn position shadow rel change
      let views := st.views.map
        (planView pf faults endLsn position relid (shadowTable st.shadows) rel change oldFull)
      match completeNewRow rel (oldFull.toOption.getD none) change with
      | .error e => .error e
      | .ok newFull =>
        match maintainShadow pf faults endLsn position shadow rel change oldFull newFull with
        | .ok rows =>
          .ok ⟨views, updateShadow relid (fun s => { s with rows := rows }) st.shadows⟩
        | .error message =>
          .ok ⟨views.map (shadowLost relid rel message),
            updateShadow relid (recordShadowFailure · message) st.shadows⟩

def applyRelids (pf : Platform) (faults : Faults) (rels : List (Nat × Relation))
    (endLsn position : Nat) (change : Change) : List Nat → RoundState → Except String RoundState
  | [], st => .ok st
  | relid :: relids, st =>
    match applyRelid pf faults rels endLsn position change relid st with
    | .error e => .error e
    | .ok st' => applyRelids pf faults rels endLsn position change relids st'

def applyChanges (pf : Platform) (faults : Faults) (rels : List (Nat × Relation)) (endLsn : Nat) :
    Nat → List Change → RoundState → Except String RoundState
  | _, [], st => .ok st
  | position, change :: changes, st =>
    match applyRelids pf faults rels endLsn position change change.relids st with
    | .error e => .error e
    | .ok st' => applyChanges pf faults rels endLsn (position + 1) changes st'

def LiveView.markStale (view : LiveView) (reason : String) : LiveView :=
  { view with
    row := { view.row with status := .stale, staleReason := some reason }
    stale := none
    dead := true }

/-- `record_failure`: the view stays live for a retry until it has failed too often. -/
def LiveView.recordFailure (view : LiveView) (settings : Settings) (message : String) : LiveView :=
  let failures := view.applyFailures + 1
  let spent := max settings.maxApplyFailures 1 ≤ failures
  let reason := s!"apply failed {failures} times: {message}"
  { view with
    row := { view.row with
      status := if spent then .stale else view.row.status
      staleReason := if spent then some reason else view.row.staleReason
      applyFailures := failures
      lastError := some message }
    applyFailures := failures
    failed := none
    stale := if spent then some reason else view.stale
    failedThisRound := true
    dead := true }

/-- The netted deltas of one transaction, numbered from the view's last sequence. -/
def numberDeltas (tx : SourceTransaction) : Nat → List Delta → List LoggedDelta
  | _, [] => []
  | seq, d :: ds => ⟨seq + 1, tx.endLsn, tx.xid, d.op, d.rowJson⟩ :: numberDeltas tx (seq + 1) ds

/-- Phase 2 for one view: execute the planned rows of one source transaction. -/
def executeView (pf : Platform) (settings : Settings) (faults : Faults) (tx : SourceTransaction)
    (view : LiveView) : LiveView :=
  if view.dead || decide (tx.endLsn ≤ view.frontier) then view
  else match view.stale, view.failed with
    | some reason, _ => view.markStale reason
    | none, some message => view.recordFailure settings message
    | none, none =>
      match inSubtransaction (faults.executing view.row.id tx.endLsn view.ops)
          (execute pf view.row.spec view.row.storage view.ops) with
      | .ok (storage, deltas) =>
        let logged := numberDeltas tx view.lastSeq (net pf view.row.spec deltas)
        { view with
          row := { view.row with storage := storage }
          ops := []
          lastSeq := view.lastSeq + logged.length
          pending := view.pending ++ logged
          frontier := tx.endLsn
          absorbed := view.absorbed ++ [tx.endLsn] }
      | .error message => { view with ops := [] }.recordFailure settings message

/-- A view that just failed at this transaction and stays live must retry it. -/
def mustRetry (before after : LiveView) : Bool :=
  !before.dead && after.failedThisRound && after.row.status == .live

def advanceShadow (endLsn : Nat) (s : ShadowRow) : ShadowRow :=
  if !s.failed && decide (s.frontier < endLsn) then { s with frontier := endLsn } else s

/-- One source transaction of the peek; the flag tells whether a view must retry it. -/
def applyTransaction (pf : Platform) (settings : Settings) (faults : Faults)
    (rels : List (Nat × Relation)) (tx : SourceTransaction) (st : RoundState) :
    Except String (RoundState × Bool) :=
  (applyChanges pf faults rels tx.endLsn 0 tx.changes st).map fun planned =>
    let views := planned.views.map (executeView pf settings faults tx)
    (⟨views, planned.shadows.map (advanceShadow tx.endLsn)⟩,
      (planned.views.zip views).any fun v => mustRetry v.1 v.2)

/-- The transactions of a peek in commit order, with the index of the first one some
live view could not absorb. -/
def applyTransactions (pf : Platform) (settings : Settings) (faults : Faults)
    (rels : List (Nat × Relation)) : Nat → List SourceTransaction → RoundState →
    Except String (RoundState × Option Nat)
  | _, [], st => .ok (st, none)
  | ti, tx :: txs, st =>
    match applyTransaction pf settings faults rels tx st with
    | .error e => .error e
    | .ok (st', blocked) =>
      (applyTransactions pf settings faults rels (ti + 1) txs st').map fun r =>
        (r.1, if blocked then some ti else r.2)

/-- The qualified name drift messages use: the first view's, else the description's. -/
def qualifiedName (views : List LiveView) (relid : Nat) (rel : Relation) : String :=
  ((views.findSome? fun v => (v.row.spec.relations.find? (·.oid = relid)).map BaseRelation.qualified)).getD
    s!"{rel.nspname}.{rel.name}"

/-- Schema drift of one relation: views lose exactly the columns they use. -/
def driftRelation (roundEnd : Nat) (st : RoundState) (described : Nat × Relation) : RoundState :=
  let (relid, rel) := described
  { views := st.views.map fun v =>
      if v.stale.isNone && decide (v.frontier < roundEnd) then
        { v with stale := v.row.spec.drift relid rel }
      else v
    shadows := updateShadow relid (fun s =>
      if !s.failed && decide (s.frontier < roundEnd) then
        shadowDrift s rel (qualifiedName st.views relid rel)
      else s) st.shadows }

/-- `pg_notify` accepts a non-empty channel below NAMEDATALEN and a payload below
8000 bytes. -/
def notify (channel payload : String) : Except String Unit :=
  if channel.utf8ByteSize = 0 then .error "channel name cannot be empty"
  else if 64 ≤ channel.utf8ByteSize then .error "channel name too long"
  else if 8000 ≤ payload.utf8ByteSize then .error "payload string too long"
  else .ok ()

/-- The bookkeeping of one view at the end of the round. -/
def LiveView.finish (settings : Settings) (view : LiveView) : Except String ViewRow :=
  match view.absorbed.getLast? with
  | none => .ok view.row
  | some absorbedEnd =>
    let row := { view.row with
      frontier := absorbedEnd
      lastSeq := view.lastSeq
      applyFailures := if view.failedThisRound then view.row.applyFailures else 0
      lastError := if view.failedThisRound then view.row.lastError else none }
    match view.pending.getLast? with
    | none => .ok row
    | some last =>
      (notify s!"nabla:{view.row.name}" s!"{last.seq}:{formatLsn last.lsn}").map fun _ =>
        { row with deltas := (row.deltas ++ view.pending).filter fun d =>
            !decide (d.seq + settings.retainDeltas ≤ view.lastSeq) }

def finishViews (settings : Settings) : List LiveView → Except String (List ViewRow)
  | [] => .ok []
  | v :: vs =>
    match v.finish settings, finishViews settings vs with
    | .ok row, .ok rows => .ok (row :: rows)
    | .error e, _ => .error e
    | _, .error e => .error e

/-- The catalog rows a round leaves: the live views as it wrote them, the others as they were. -/
def Catalog.writeBack (c : Catalog) (written : List ViewRow) (shadows : List ShadowRow) : Catalog :=
  { c with
    views := c.views.map fun row => (written.find? (·.id = row.id)).getD row
    shadows := shadows }

def Catalog.liveViews (c : Catalog) : List LiveView :=
  (c.views.filter (·.status = .live)).map LiveView.load

/-- What a committed round leaves behind. -/
structure RoundResult where
  catalog : Catalog
  relations : Nat → Option Relation
  blockedAt : Option Nat
  /-- The views as they stood in memory at the end. -/
  views : List LiveView

/-- `apply_round`: every complete source transaction of a peek in one transaction. -/
def applyRound (pf : Platform) (settings : Settings) (faults : Faults)
    (cache : Nat → Option Relation) (catalog : Catalog) (txs : List SourceTransaction) :
    Except String RoundResult :=
  match collectRelations pf (changedRelids txs) cache [] with
  | .error e => .error e
  | .ok (cache, rels) =>
    let roundEnd := (txs.getLast?.map SourceTransaction.endLsn).getD 0
    let start := rels.foldl (driftRelation roundEnd) ⟨catalog.liveViews, catalog.shadows⟩
    match applyTransactions pf settings faults rels 0 txs start with
    | .error e => .error e
    | .ok (st, blockedAt) =>
      (finishViews settings st.views).map fun written =>
        ⟨catalog.writeBack written st.shadows, cache, blockedAt, st.views⟩

end Nabla
