import Nabla.Catalog

/-! The worker's list of views to build or rebuild, and its groups: `load_pending` and
`group` of `populate.rs`. -/
namespace Nabla

/-- A view waiting to be built or rebuilt, as `load_pending` read it. -/
structure Pending where
  id : Nat
  name : String
  status : Status
  definition : String
  spec : ViewSpec
  /-- A build has committed before: shadow references exist, the epoch bumps. -/
  populated : Bool

def ViewRow.pending (row : ViewRow) : Pending where
  id := row.id
  name := row.name
  status := row.status
  definition := row.definition
  spec := row.spec
  populated := row.populated

def Catalog.loadPending (c : Catalog) : List Pending :=
  ((c.views.filter fun row => row.status = .initializing ∨ row.status = .refreshing).mergeSort
    fun a b => a.id ≤ b.id).map ViewRow.pending

/-- A refreshing join view, which is rebuilt with the views it shares a shadow with. -/
def Pending.shared (view : Pending) : Bool := view.status = .refreshing && view.spec.isJoin

def Pending.rels (view : Pending) : List Nat := view.spec.relations.map BaseRelation.oid

/-- One step of `group`: the first group whose relations overlap takes the view. Each
group stands with its entry of `group_rels`. -/
def groupStep (groups : List (List Nat × List Pending)) (view : Pending) : List (List Nat × List Pending) :=
  let target := if view.shared then groups.findIdx? fun g => g.1.any view.rels.contains else none
  match target with
  | some i => groups.modify i fun g => (g.1 ++ view.rels, g.2 ++ [view])
  | none => groups ++ [(if view.shared then view.rels else [], [view])]

def group (pending : List Pending) : List (List Pending) := (pending.foldl groupStep []).map Prod.snd

/-- `rebuild`: refreshing a view that was built before. -/
def Pending.rebuild (view : Pending) : Bool := decide (view.status = .refreshing) && view.populated

/-- A join view over the table, which reads its shadow. -/
def Pending.joins (view : Pending) (relid : Nat) : Bool := view.spec.isJoin && view.rels.contains relid

/-- The group snapshots the shadow of the table: the first of its views over it is rebuilt, or
finds the shadow missing or failed, as it is until a view over it is built. -/
def Resnapshots (failed : Nat → Prop) (earlier : List (List Pending)) (g : List Pending) (relid : Nat) : Prop :=
  ∃ view, g.find? (·.joins relid) = some view ∧
    (view.rebuild = true ∨ failed relid ∧ ∀ g' ∈ earlier, ∀ v ∈ g', v.joins relid = false)

end Nabla
