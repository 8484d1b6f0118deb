import Nabla.Changes
import Nabla.Pending

/-! `nabla.create_view`, `nabla.drop_view` and `nabla.refresh` of `api.rs`, and the SQL
functions of `bootstrap.sql` behind every DROP. A call reads first and writes when its
transaction commits. -/
namespace Nabla

def ViewSpec.oids (spec : ViewSpec) : List Nat := spec.relations.map BaseRelation.oid

def errInvalid (message : String) : ApiError := ⟨"22023", message, "", ""⟩

def errPrerequisite (message hint : String) : ApiError := ⟨"55000", message, "", hint⟩

/-- What a session sees of the database: names under its search_path, what a definition
validates to, and the base tables. -/
structure Session where
  creationName : String → Except ApiError String
  validate : String → Except ApiError ViewSpec
  walLevel : String
  replident : Nat → String
  relationExists : String → Bool
  /-- `regclass_text`; `none` when the table no longer exists. -/
  regclassText : Nat → Option String

/-- An open transaction of a session, with what it has read, and for a refresh whose UPDATE
has run the rows that it changed. -/
inductive Call where
  | create (name definition : String) (spec : ViewSpec) (added : List Nat)
  | refresh (ids added : List Nat)
  | marked (ids added : List Nat)
  | dropView (id : Nat) (pruned : List String)
  | dropTable (relid : Nat) (pruned : List String)
  | dropShadow (relid : Nat) (pruned : List String)

/-- `ensure_publication_includes`, for each relation: the tables to add. -/
def ensurePublicationIncludes (session : Session) (publication : List Nat) : List Nat → Except ApiError (List Nat)
  | [] => .ok []
  | relid :: relids =>
    if publication.contains relid then ensurePublicationIncludes session publication relids
    else match session.regclassText relid with
      | none => .error (errFailed "?" (some s!"base table with oid {relid} no longer exists"))
      | some _ => (ensurePublicationIncludes session publication relids).map (relid :: ·)

def replidentError (session : Session) (spec : ViewSpec) : Option ApiError :=
  match spec.isJoin, spec.shape, spec.relations with
  | false, .aggregate, base :: _ =>
    if session.replident base.oid = "f" then none
    else some (errPrerequisite
      s!"nabla: the aggregate shape needs the full old row of every change, but {base.qualified} has REPLICA IDENTITY '{session.replident base.oid}'"
      s!"Run: ALTER TABLE {base.qualified} REPLICA IDENTITY FULL;")
  | _, _, _ => none

def createView (session : Session) (publication : List Nat) (c : Catalog) (name definition : String) : Except ApiError Call :=
  match session.creationName name with
  | .error e => .error e
  | .ok canonical =>
    match session.validate definition with
    | .error e => .error e
    | .ok spec =>
      if session.walLevel ≠ "logical" then
        .error (errPrerequisite s!"nabla: wal_level must be 'logical' (currently '{session.walLevel}')"
          "Set wal_level = logical in postgresql.conf and restart PostgreSQL.")
      else match replidentError session spec with
        | some e => .error e
        | none =>
          if session.relationExists canonical then .error (errInvalid s!"nabla: relation {canonical} already exists")
          else if c.views.any (·.name = canonical) then .error (errInvalid s!"nabla: view {canonical} already exists")
          else (ensurePublicationIncludes session publication spec.oids).map (.create canonical definition spec)

/-- `jsonb_array_length(spec->'relations') > 1`. -/
def Catalog.joins (c : Catalog) (id : Nat) : Bool := c.views.any fun row => row.id = id && row.spec.isJoin

def extendSet (found more : List Nat) : List Nat := more.foldl (fun set x => set.insert x) found

/-- One turn of the loop: the join views on the tables found so far, then all tables of
the views found. -/
def Catalog.closureStep (c : Catalog) (found : List Nat × List Nat) : List Nat × List Nat :=
  let ids := extendSet found.1 ((c.viewRelations.filter fun vr => found.2.contains vr.2 && c.joins vr.1).map Prod.fst)
  (ids, extendSet found.2 ((c.viewRelations.filter fun vr => ids.contains vr.1).map Prod.snd))

/-- The loop ends when a turn finds nothing new; each row of `view_relations` can make two
turns find something. -/
def Catalog.closureLoop (c : Catalog) : Nat → List Nat × List Nat → List Nat × List Nat
  | 0, found => found
  | turns + 1, found =>
    let next := c.closureStep found
    if next.1.length = found.1.length ∧ next.2.length = found.2.length then next else c.closureLoop turns next

/-- `refresh_closure`: the ids of the view and of every join view sharing any of its
shadows, transitively. -/
def Catalog.refreshClosure (c : Catalog) (view : ViewRow) : List Nat :=
  let found := c.closureLoop (2 * c.viewRelations.length + 1) ([view.id], view.spec.oids.dedup)
  (c.views.filter fun row => found.1.contains row.id).map ViewRow.id

/-- The reads of `refresh`, for the view its name was found to be. -/
def refresh (session : Session) (publication : List Nat) (c : Catalog) (view : ViewRow) : Except ApiError Call :=
  match view.spec.relations.find? fun rel => (session.regclassText rel.oid).isNone with
  | some rel => .error (errFailed view.name (some s!"base table {rel.qualified} (oid {rel.oid}) no longer exists"))
  | none =>
    let ids := if view.spec.isJoin then c.refreshClosure view else [view.id]
    (ensurePublicationIncludes session publication view.spec.oids).map (.refresh ids)

def releaseShadow (shadows : List ShadowRow) (relid : Nat) : List ShadowRow :=
  (updateShadow relid (fun s => { s with refcount := s.refcount - 1 }) shadows).filter fun s =>
    !(decide (s.relid = relid) && decide (s.refcount ≤ 0))

/-- `nabla.forget_view`. The references were taken when the first build committed. -/
def Catalog.forgetView (c : Catalog) (id : Nat) : Catalog :=
  match c.views.find? (·.id = id) with
  | none => c
  | some v =>
    { views := c.views.filter fun row => !decide (row.id = id)
      viewRelations := c.viewRelations.filter fun vr => !decide (vr.1 = id)
      shadows :=
        if v.spec.isJoin && v.populated then
          ((c.viewRelations.filter fun vr => vr.1 = id).map Prod.snd).foldl releaseShadow c.shadows
        else c.shadows }

/-- `nabla.on_sql_drop` after DROP TABLE of a shadow. -/
def Catalog.dropShadow (c : Catalog) (relid : Nat) : Catalog :=
  { c with shadows := c.shadows.filter fun s => !decide (s.relid = relid) }

/-- `nabla.on_sql_drop` after DROP TABLE ... CASCADE of a base table. -/
def Catalog.dropTable (c : Catalog) (relid : Nat) : Catalog :=
  (((c.viewRelations.filter fun vr => vr.2 = relid).map Prod.fst).foldl Catalog.forgetView c).dropShadow relid

/-- `nabla.prune_publication`: the names of the tables no view and no shadow needs. -/
def prunable (names : Nat → String) (publication : List Nat) (c : Catalog) : List String :=
  (publication.filter fun t => !(c.viewRelations.any fun vr => names vr.2 = names t) && !(c.shadows.any fun s => names s.relid = names t)).map
    names

/-- The reads of `drop_view`, or of a DROP of the view or its storage table. -/
def dropView (names : Nat → String) (publication : List Nat) (c : Catalog) (id : Nat) : Call :=
  .dropView id (prunable names publication (c.forgetView id))

def dropTable (names : Nat → String) (publication : List Nat) (c : Catalog) (relid : Nat) : Call :=
  .dropTable relid (prunable names (publication.filter fun t => !decide (t = relid)) (c.dropTable relid))

def dropShadow (names : Nat → String) (publication : List Nat) (c : Catalog) (relid : Nat) : Call :=
  .dropShadow relid (prunable names publication (c.dropShadow relid))

/-- The row `create_view` inserts. -/
def ViewRow.initial (id : Nat) (name definition : String) (spec : ViewSpec) : ViewRow where
  id := id
  name := name
  definition := definition
  spec := spec
  frontier := 0
  epoch := 1
  status := .initializing
  lastSeq := 0
  applyFailures := 0
  lastError := none
  staleReason := none
  populated := false
  storage := []
  deltas := []

def Catalog.insertView (c : Catalog) (row : ViewRow) : Catalog :=
  { c with views := c.views ++ [row], viewRelations := c.viewRelations ++ row.spec.oids.map (row.id, ·) }

/-- The rows the UPDATE of `refresh` changes, for the ids its closure was found to be. -/
def Catalog.refreshable (c : Catalog) (ids : List Nat) : List Nat :=
  (c.views.filter fun row => ids.contains row.id && row.status ≠ .initializing && row.status ≠ .refreshing).map ViewRow.id

def Catalog.markRefreshing (c : Catalog) (ids : List Nat) : Catalog :=
  { c with views := c.views.map fun row => if ids.contains row.id then { row with status := .refreshing } else row }

/-- A transaction writes: the publication and the catalog it leaves. A name taken
meanwhile, a table added meanwhile, or one table twice makes it fail. A refresh commits
after its UPDATE, and pruned tables are dropped from the publication by name. -/
def Call.commit (names : Nat → String) (id : Nat) (publication : List Nat) (c : Catalog) : Call → Option (List Nat × Catalog)
  | .create name definition spec added =>
    if c.views.any (·.name = name) || added.any publication.contains || !decide spec.oids.Nodup then none
    else some (publication ++ added, c.insertView (.initial id name definition spec))
  | .refresh _ _ => none
  | .marked ids added =>
    if added.any publication.contains then none else some (publication ++ added, c.markRefreshing ids)
  | .dropView view pruned => some (publication.filter fun t => !pruned.contains (names t), c.forgetView view)
  | .dropTable relid pruned =>
    some (publication.filter fun t => !decide (t = relid) && !pruned.contains (names t), c.dropTable relid)
  | .dropShadow relid pruned => some (publication.filter fun t => !pruned.contains (names t), c.dropShadow relid)

end Nabla
