import Nabla.Api
import Nabla.Populate
import Nabla.Slot

/-! The life of an installation: sessions create, refresh and drop views while the worker
builds them and applies rounds. -/
namespace Nabla

/-- The database between two steps: what is committed, the open transactions of sessions,
and the groups the worker has loaded and not built yet. -/
structure Server where
  catalog : Catalog
  publication : List Nat
  /-- The current name of each base table. -/
  names : Nat → String
  calls : List Call
  groups : List (List Pending)
  /-- The view ids handed out so far. -/
  used : List Nat

inductive Event where
  | renamed (names : Nat → String)
  | began (call : Call)
  | updated (ids added : List Nat)
  | committed (call : Call) (id : Nat)
  | aborted (call : Call)
  | loaded
  | built (sight : Sight) (point : Nat) (slot : Option Nat) (group : List Pending)
  | restarted
  | applied (faults : Faults) (cache : Nat → Option Relation) (txs : List SourceTransaction)
  | idled (frontier : Nat)
  | lagged

/-- The tables an open transaction holds a lock on that conflicts with dropping them, or
that a drop holds. -/
def Call.creates (relid : Nat) : Call → Bool
  | .create _ _ spec _ => spec.oids.contains relid
  | _ => false

def Call.dropsTable (relid : Nat) : Call → Bool
  | .dropTable dropped _ => dropped = relid
  | _ => false

/-- The transaction holds the lock of a row it has updated. -/
def Call.holds (id : Nat) : Call → Bool
  | .marked ids _ => ids.contains id
  | _ => false

/-- One step. Validation locks the tables of a new view until its transaction ends, so it
excludes a DROP of them; an UPDATE waits for the locks of the rows it changes. -/
inductive Server.Step (pf : Platform) (settings : Settings) : Server → Event → Server → Prop where
  | renamed {s : Server} {names : Nat → String} : Step pf settings s (.renamed names) { s with names := names }
  | createBegan {s : Server} {session : Session} {name definition : String} {call : Call}
      (read : createView session s.publication s.catalog name definition = .ok call)
      (unlocked : ∀ relid, call.creates relid = true → ∀ other ∈ s.calls, other.dropsTable relid = false) :
      Step pf settings s (.began call) { s with calls := call :: s.calls }
  | refreshBegan {s : Server} {session : Session} {view : ViewRow} {call : Call} (found : view ∈ s.catalog.views)
      (read : refresh session s.publication s.catalog view = .ok call) :
      Step pf settings s (.began call) { s with calls := call :: s.calls }
  | updated {s : Server} {ids added : List Nat} {rest : List Call} (began : s.calls.Perm (.refresh ids added :: rest))
      (unlocked : ∀ id ∈ s.catalog.refreshable ids, ∀ other ∈ s.calls, other.holds id = false) :
      Step pf settings s (.updated ids added) { s with calls := .marked (s.catalog.refreshable ids) added :: rest }
  | viewDropBegan {s : Server} {id : Nat} : Step pf settings s (.began (dropView s.names s.publication s.catalog id))
      { s with calls := dropView s.names s.publication s.catalog id :: s.calls }
  | tableDropBegan {s : Server} {relid : Nat} (unlocked : ∀ other ∈ s.calls, other.creates relid = false) :
      Step pf settings s (.began (dropTable s.names s.publication s.catalog relid))
        { s with calls := dropTable s.names s.publication s.catalog relid :: s.calls }
  | shadowDropBegan {s : Server} {relid : Nat} : Step pf settings s (.began (dropShadow s.names s.publication s.catalog relid))
      { s with calls := dropShadow s.names s.publication s.catalog relid :: s.calls }
  | committed {s : Server} {call : Call} {id : Nat} {publication : List Nat} {catalog : Catalog} {rest : List Call}
      (began : s.calls.Perm (call :: rest)) (fresh : id ∉ s.used)
      (writes : call.commit s.names id s.publication s.catalog = some (publication, catalog)) :
      Step pf settings s (.committed call id) { s with
        catalog := catalog
        publication := publication
        calls := rest
        used := id :: s.used }
  | aborted {s : Server} {call : Call} {rest : List Call} (began : s.calls.Perm (call :: rest)) :
      Step pf settings s (.aborted call) { s with calls := rest }
  | loaded {s : Server} (done : s.groups = []) : Step pf settings s .loaded { s with groups := group s.catalog.loadPending }
  | built {s : Server} {sight : Sight} {point : Nat} {slot : Option Nat} {group : List Pending} {groups : List (List Pending)}
      (next : s.groups = group :: groups) : Step pf settings s (.built sight point slot group) { s with
        catalog := s.catalog.populate sight point slot group
        groups := groups }
  | restarted {s : Server} : Step pf settings s .restarted { s with groups := [] }
  | applied {s : Server} {faults : Faults} {cache : Nat → Option Relation} {txs : List SourceTransaction} {result : RoundResult}
      (done : s.groups = []) (ran : applyRound pf settings faults cache s.catalog txs = .ok result) :
      Step pf settings s (.applied faults cache txs) { s with catalog := result.catalog }
  | idled {s : Server} {frontier : Nat} (done : s.groups = []) :
      Step pf settings s (.idled frontier) { s with catalog := s.catalog.idleAdvance frontier }
  | lagged {s : Server} (done : s.groups = []) : Step pf settings s .lagged { s with catalog := s.catalog.markLagged }

structure Server.Starts (s : Server) : Prop where
  views : s.catalog.views = []
  viewRelations : s.catalog.viewRelations = []
  shadows : s.catalog.shadows = []
  calls : s.calls = []
  groups : s.groups = []

/-- The states of the runs all of whose steps meet a condition. -/
inductive Server.Reachable (pf : Platform) (settings : Settings) (guard : Server → Event → Prop) : Server → Prop where
  | start {s : Server} (starts : s.Starts) : Reachable pf settings guard s
  | step {s s' : Server} {e : Event} (reached : Reachable pf settings guard s) (step : Step pf settings s e s') (meets : guard s e) :
      Reachable pf settings guard s'

end Nabla
