import Nabla.Standing

/-! How the base tables of a view stay in the publication: what sessions and the worker
write of the relations of a view, and when that keeps its changes coming. -/
namespace Nabla
open Bags

variable {pf : Platform} {settings : Settings}

/-- `view_relations` has the tables of every view's spec. -/
def Server.Recorded (s : Server) : Prop :=
  ∀ row ∈ s.catalog.views, ∀ relid, (row.id, relid) ∈ s.catalog.viewRelations ↔ relid ∈ row.spec.oids

def Server.Published (s : Server) : Prop := ∀ row ∈ s.catalog.views, ∀ relid ∈ row.spec.oids, relid ∈ s.publication

/-- A definition that is validated again still has the tables of the stored spec. -/
def Server.Resolves (s : Server) : Event → Prop
  | .built sight _ _ group => ∀ view ∈ group, view.rebuild = true → ∀ spec, sight.validate view.definition = .ok spec →
      ∀ row ∈ s.catalog.views, row.id = view.id → ∀ relid, relid ∈ spec.oids ↔ relid ∈ row.spec.oids
  | _ => True

/-- No table goes missing from the publication: one that was found published is still there
when the new view commits, and none is taken out under a view that was created, or whose
table was renamed, since the drop looked. -/
def Server.KeepsPublished (s : Server) : Event → Prop
  | .committed (.create _ _ spec added) _ => ∀ relid ∈ spec.oids, relid ∈ added ∨ relid ∈ s.publication
  | .committed (.dropView id pruned) _ => ∀ row ∈ s.catalog.views, row.id ≠ id → ∀ relid ∈ row.spec.oids, s.names relid ∉ pruned
  | .committed (.dropTable dropped pruned) _ => ∀ row ∈ s.catalog.views, dropped ∉ row.spec.oids →
      ∀ relid ∈ row.spec.oids, s.names relid ∉ pruned
  | .committed (.dropShadow _ pruned) _ => ∀ row ∈ s.catalog.views, ∀ relid ∈ row.spec.oids, s.names relid ∉ pruned
  | _ => True

/-- The rows of a catalog that are as they were, or went and took their relations along. -/
theorem Server.Recorded.of_rows {s : Server} (recorded : s.Recorded) {c : Catalog} {publication : List Nat} {calls : List Call}
    {used : List Nat} {groups : List (List Pending)}
    (rows : ∀ row' ∈ c.views, ∃ row ∈ s.catalog.views, row'.id = row.id ∧ (∀ relid, relid ∈ row'.spec.oids ↔ relid ∈ row.spec.oids) ∧
      ∀ relid, (row.id, relid) ∈ c.viewRelations ↔ (row.id, relid) ∈ s.catalog.viewRelations) :
    Server.Recorded { s with catalog := c, publication := publication, calls := calls, used := used, groups := groups } := by
  intro row' member relid
  obtain ⟨row, before, id, oids, kept⟩ := rows row' member
  rw [id, kept relid, recorded row before, oids relid]

theorem Server.Recorded.created {s : Server} (recorded : s.Recorded) (orderly : s.Orderly) {id : Nat} {name definition : String}
    {spec : ViewSpec} (fresh : id ∉ s.used) (publication : List Nat) (calls : List Call) (used : List Nat) :
    Server.Recorded { s with
      catalog := s.catalog.insertView (.initial id name definition spec)
      publication := publication
      calls := calls
      used := used } := by
  intro row member relid
  rw [Catalog.insertView, List.mem_append, List.mem_map]
  rcases List.mem_append.mp member with before | new
  · rw [← recorded row before relid]
    constructor
    · rintro (old | ⟨r, _, same⟩)
      · exact old
      · have known := orderly.used row before
        rw [← (Prod.mk.inj same).1] at known
        exact absurd known fresh
    · exact .inl
  · obtain rfl := List.mem_singleton.mp new
    constructor
    · rintro (old | ⟨r, reads, same⟩)
      · exact absurd (orderly.recorded _ old) fresh
      · obtain ⟨_, rfl⟩ := Prod.mk.inj same
        exact reads
    · exact fun reads => .inr ⟨relid, reads, rfl⟩

theorem Call.commit_recorded {s : Server} (recorded : s.Recorded) (orderly : s.Orderly) {call : Call} {id : Nat}
    {publication : List Nat} {c : Catalog} (fresh : id ∉ s.used)
    (writes : call.commit s.names id s.publication s.catalog = some (publication, c)) (calls : List Call) (used : List Nat) :
    Server.Recorded { s with catalog := c, publication := publication, calls := calls, used := used } := by
  cases call with
  | create name definition spec added =>
      simp only [Call.commit] at writes
      split at writes
      · cases writes
      · obtain ⟨rfl, rfl⟩ := Prod.mk.inj (Option.some.inj writes)
        exact recorded.created orderly fresh _ _ _
  | refresh _ _ => cases writes
  | marked ids added =>
      simp only [Call.commit] at writes
      split at writes
      · cases writes
      · obtain ⟨rfl, rfl⟩ := Prod.mk.inj (Option.some.inj writes)
        refine recorded.of_rows fun row' member => ?_
        obtain ⟨row, before, step⟩ := mem_of_forall₂_right (s.catalog.markRefreshing_views ids) member
        refine ⟨row, before, ?_, ?_, fun _ => Iff.rfl⟩
        · rcases step with rfl | ⟨_, rfl⟩ <;> rfl
        · rcases step with rfl | ⟨_, rfl⟩ <;> exact fun _ => Iff.rfl
  | dropView view pruned =>
      obtain ⟨rfl, rfl⟩ := Prod.mk.inj (Option.some.inj writes)
      refine recorded.of_rows fun row' member => ?_
      obtain ⟨before, other⟩ := Catalog.mem_forgetView.mp member
      exact ⟨row', before, rfl, fun _ => Iff.rfl, Catalog.forgetView_viewRelations other⟩
  | dropTable dropped pruned =>
      obtain ⟨rfl, rfl⟩ := Prod.mk.inj (Option.some.inj writes)
      refine recorded.of_rows fun row' member => ?_
      obtain ⟨before, other⟩ := Catalog.mem_dropTable.mp member
      refine ⟨row', before, rfl, fun _ => Iff.rfl, fun relid => ?_⟩
      exact Catalog.foldl_forgetView_viewRelations (fun among => other (Catalog.mem_over.mp among)) s.catalog relid
  | dropShadow dropped pruned =>
      obtain ⟨rfl, rfl⟩ := Prod.mk.inj (Option.some.inj writes)
      exact recorded.of_rows fun row' before => ⟨row', before, rfl, fun _ => Iff.rfl, fun _ => Iff.rfl⟩

theorem Server.Recorded.of_stands {s : Server} (recorded : s.Recorded) {c : Catalog} (stands : s.catalog.Stands c) :
    Server.Recorded { s with catalog := c } := by
  refine recorded.of_rows fun row' member => ?_
  obtain ⟨row, before, kept⟩ := stands.row member
  refine ⟨row, before, kept.id, ?_, ?_⟩
  · rw [kept.spec]
    exact fun _ => Iff.rfl
  · rw [stands.viewRelations]
    exact fun _ => Iff.rfl

/-- The spec a build leaves has the tables the row had before. -/
theorem ViewRow.Built.oids {s : Server} {sight : Sight} {point : Nat} {slot : Option Nat} {group : List Pending}
    (resolves : s.Resolves (.built sight point slot group)) {row row' : ViewRow} (before : row ∈ s.catalog.views)
    (built : row.Built sight point group row') (relid : Nat) : relid ∈ row'.spec.oids ↔ relid ∈ row.spec.oids := by
  by_cases inside : row.id ∈ group.map Pending.id
  · rcases built.inside inside with ⟨view, among, same, spec, valid, rfl⟩ | ⟨message, rfl⟩
    · unfold ViewRow.rebuilt ViewRow.built
      cases again : view.rebuild with
      | true =>
          rw [Sight.spec, if_pos again] at valid
          exact resolves view among again spec valid row before same.symm relid
      | false => exact Iff.rfl
    · exact Iff.rfl
  · rw [built.outside inside]

theorem Server.Recorded.built {s : Server} (recorded : s.Recorded) (orderly : s.Orderly) {sight : Sight} {point : Nat}
    {slot : Option Nat} {group : List Pending} {groups : List (List Pending)} (next : s.groups = group :: groups)
    (resolves : s.Resolves (.built sight point slot group)) :
    Server.Recorded { s with catalog := s.catalog.populate sight point slot group, groups := groups } := by
  refine recorded.of_rows fun row' member => ?_
  have rows := @Catalog.populate_views sight point group (orderly.head next) slot s.catalog
  obtain ⟨row, before, built, _⟩ := mem_of_forall₂_right rows member
  refine ⟨row, before, built.id, built.oids resolves before, ?_⟩
  rw [Catalog.populate_viewRelations]
  exact fun _ => Iff.rfl

theorem Server.Step.recorded {s s' : Server} {e : Event} (recorded : s.Recorded) (orderly : s.Orderly)
    (step : s.Step pf settings e s') (resolves : s.Resolves e) : s'.Recorded := by
  cases step with
  | renamed | createBegan | refreshBegan | updated | viewDropBegan | tableDropBegan | shadowDropBegan | aborted | loaded | restarted =>
      exact recorded
  | committed began fresh writes => exact Call.commit_recorded recorded orderly fresh writes _ _
  | built next => exact recorded.built orderly next resolves
  | applied done ran => exact recorded.of_stands (applyRound_stands orderly.ids ran)
  | idled => exact recorded.of_stands (s.catalog.idleAdvance_stands _)
  | lagged => exact recorded.of_stands s.catalog.markLagged_stands

theorem Server.Starts.recorded {s : Server} (starts : s.Starts) : s.Recorded := by
  unfold Server.Recorded
  rw [starts.views]
  exact fun row member => absurd member List.not_mem_nil

theorem Server.Reachable.recorded {guard : Server → Event → Prop} (resolves : ∀ s e, guard s e → s.Resolves e) {s : Server}
    (reached : s.Reachable pf settings guard) : s.Recorded := by
  induction reached with
  | start starts => exact starts.recorded
  | step before step meets ih => exact step.recorded ih before.orderly (resolves _ _ meets)

theorem mem_unpruned {names : Nat → String} {pruned : List String} {publication : List Nat} {relid : Nat}
    (published : relid ∈ publication) (kept : names relid ∉ pruned) :
    relid ∈ publication.filter fun t => !pruned.contains (names t) := by
  rw [List.mem_filter, Bool.not_eq_true', ← Bool.not_eq_true, List.contains_iff_mem]
  exact ⟨published, kept⟩

theorem Call.commit_published {s : Server} (published : s.Published) (recorded : s.Recorded) {call : Call} {id : Nat}
    {publication : List Nat} {c : Catalog} (writes : call.commit s.names id s.publication s.catalog = some (publication, c))
    (keeps : s.KeepsPublished (.committed call id)) (calls : List Call) (used : List Nat) :
    Server.Published { s with catalog := c, publication := publication, calls := calls, used := used } := by
  intro row member relid reads
  cases call with
  | create name definition spec added =>
      simp only [Call.commit] at writes
      split at writes
      · cases writes
      · obtain ⟨rfl, rfl⟩ := Prod.mk.inj (Option.some.inj writes)
        rcases List.mem_append.mp member with before | new
        · exact List.mem_append_left _ (published row before relid reads)
        · obtain rfl := List.mem_singleton.mp new
          exact List.mem_append.mpr (keeps relid reads).symm
  | refresh _ _ => cases writes
  | marked ids added =>
      simp only [Call.commit] at writes
      split at writes
      · cases writes
      · obtain ⟨rfl, rfl⟩ := Prod.mk.inj (Option.some.inj writes)
        obtain ⟨row₀, before, step⟩ := mem_of_forall₂_right (s.catalog.markRefreshing_views ids) member
        refine List.mem_append_left _ (published row₀ before relid ?_)
        rcases step with rfl | ⟨_, rfl⟩ <;> exact reads
  | dropView view pruned =>
      obtain ⟨rfl, rfl⟩ := Prod.mk.inj (Option.some.inj writes)
      obtain ⟨before, other⟩ := Catalog.mem_forgetView.mp member
      exact mem_unpruned (published row before relid reads) (keeps row before other relid reads)
  | dropTable dropped pruned =>
      obtain ⟨rfl, rfl⟩ := Prod.mk.inj (Option.some.inj writes)
      obtain ⟨before, other⟩ := Catalog.mem_dropTable.mp member
      have apart : dropped ∉ row.spec.oids := fun reads => other ((recorded row before dropped).mpr reads)
      have kept := mem_unpruned (published row before relid reads) (keeps row before apart relid reads)
      have distinct : relid ≠ dropped := by
        rintro rfl
        exact apart reads
      rw [List.mem_filter] at kept ⊢
      refine ⟨kept.1, ?_⟩
      rw [decide_eq_false distinct, Bool.not_false, Bool.true_and]
      exact kept.2
  | dropShadow dropped pruned =>
      obtain ⟨rfl, rfl⟩ := Prod.mk.inj (Option.some.inj writes)
      exact mem_unpruned (published row member relid reads) (keeps row member relid reads)

theorem Server.Published.of_stands {s : Server} (published : s.Published) {c : Catalog} (stands : s.catalog.Stands c) :
    Server.Published { s with catalog := c } := by
  intro row' member relid reads
  obtain ⟨row, before, kept⟩ := stands.row member
  rw [kept.spec] at reads
  exact published row before relid reads

theorem Server.Step.published {s s' : Server} {e : Event} (published : s.Published) (recorded : s.Recorded) (orderly : s.Orderly)
    (step : s.Step pf settings e s') (resolves : s.Resolves e) (keeps : s.KeepsPublished e) : s'.Published := by
  cases step with
  | renamed | createBegan | refreshBegan | updated | viewDropBegan | tableDropBegan | shadowDropBegan | aborted | loaded | restarted =>
      exact published
  | committed began fresh writes => exact Call.commit_published published recorded writes keeps _ _
  | @built sight point slot group groups next =>
      intro row' member relid reads
      have rows := @Catalog.populate_views sight point group (orderly.head next) slot s.catalog
      obtain ⟨row, before, built, _⟩ := mem_of_forall₂_right rows member
      exact published row before relid ((built.oids resolves before relid).mp reads)
  | applied done ran => exact published.of_stands (applyRound_stands orderly.ids ran)
  | idled => exact published.of_stands (s.catalog.idleAdvance_stands _)
  | lagged => exact published.of_stands s.catalog.markLagged_stands

def Server.Feeds (s : Server) (e : Event) : Prop := s.Resolves e ∧ s.KeepsPublished e

/-- In every run whose steps all feed the views, every view that is live has the tables of
its spec recorded and published. -/
theorem Server.Reachable.live_views_fed {s : Server} (reached : s.Reachable pf settings Server.Feeds) :
    ∀ row ∈ s.catalog.views, row.status = .live →
      (∀ relid, (row.id, relid) ∈ s.catalog.viewRelations ↔ relid ∈ row.spec.oids) ∧ ∀ relid ∈ row.spec.oids, relid ∈ s.publication := by
  have recorded : ∀ {s : Server}, s.Reachable pf settings Server.Feeds → s.Recorded := fun reached =>
    reached.recorded fun _ _ feeds => feeds.1
  have published : s.Published := by
    induction reached with
    | start starts =>
        unfold Server.Published
        rw [starts.views]
        exact fun row member => absurd member List.not_mem_nil
    | step before step feeds ih => exact step.published ih (recorded before) before.orderly feeds.1 feeds.2
  exact fun row member _ => ⟨recorded reached row member, published row member⟩

theorem Server.Reachable.weaken {guard guard' : Server → Event → Prop} (weaker : ∀ s e, guard s e → guard' s e) {s : Server}
    (reached : s.Reachable pf settings guard) : s.Reachable pf settings guard' := by
  induction reached with
  | start starts => exact .start starts
  | step _ step meets ih => exact .step ih step (weaker _ _ meets)

/-- A refresh that no other session comes between. -/
theorem Server.Reachable.refreshed {guard : Server → Event → Prop} {c : Catalog} {publication : List Nat} {names : Nat → String} {ids marked : List Nat}
    {groups : List (List Pending)} {used : List Nat} (reached : Server.Reachable pf settings guard ⟨c, publication, names, [.refresh ids []], groups, used⟩)
    (rows : c.refreshable ids = marked) {id : Nat} (fresh : id ∉ used) (updates : ∀ s, guard s (.updated ids []))
    (commits : guard ⟨c, publication, names, [.marked marked []], groups, used⟩ (.committed (.marked marked []) id)) :
    Server.Reachable pf settings guard ⟨c.markRefreshing marked, publication, names, [], groups, id :: used⟩ := by
  subst rows
  have updated : Server.Reachable pf settings guard ⟨c, publication, names, [.marked (c.refreshable ids) []], groups, used⟩ :=
    .step reached (.updated (.refl _) fun _ _ => List.forall_mem_singleton.mpr rfl) (updates _)
  refine .step updated (.committed (.refl _) fresh ?_) commits
  rw [Call.commit, List.any_nil, if_neg Bool.false_ne_true, List.append_nil]

theorem Catalog.loadPending_single {c : Catalog} {row : ViewRow}
    (single : (c.views.filter fun row => row.status = .initializing ∨ row.status = .refreshing) = [row]) : c.loadPending = [row.pending] := by
  rw [Catalog.loadPending, single, List.mergeSort_singleton, List.map_singleton]

def joinSight (failing : Nat) : Sight where
  table := fun relid => if relid = 1 then ⟨[("id", "text"), ("ref", "text"), ("doc", "jsonb")], []⟩ else ⟨[("id", "text")], []⟩
  validate := fun _ => .ok shopSpec
  fault := fun id => if id = failing then some "canceling statement due to lock timeout" else none

def joinSession (name : String) : Session where
  creationName := fun _ => .ok name
  validate := fun _ => .ok shopSpec
  walLevel := "logical"
  replident := fun _ => "d"
  relationExists := fun _ => false
  regclassText := fun _ => some "public.orders"

def joinRow (id : Nat) (name : String) : ViewRow := .initial id name "select" shopSpec

def joinLate : Pending := { (joinRow 1 "public.a").pending with status := .refreshing, populated := true }

def joinCreated : Catalog := ⟨[joinRow 1 "public.a"], [(1, 1), (1, 2)], []⟩

def joinBuilt : Catalog := joinCreated.populate (joinSight 0) 10 none [(joinRow 1 "public.a").pending]

def joinServer (c : Catalog) (publication : List Nat) (calls : List Call) (groups : List (List Pending)) (used : List Nat) : Server :=
  ⟨c, publication, fun relid => if relid = 1 then "public.orders" else "public.customers", calls, groups, used⟩

/-- What a condition on runs has to allow for the runs that create views of the two tables. -/
structure AllowsJoins (guard : Server → Event → Prop) : Prop where
  began : ∀ s call, guard s (.began call)
  creates : ∀ s name added id, (∀ relid ∈ shopSpec.oids, relid ∈ added ∨ relid ∈ s.publication) →
    guard s (.committed (.create name "select" shopSpec added) id)
  loads : ∀ s, guard s .loaded

theorem AllowsJoins.all : AllowsJoins fun _ _ => True := ⟨fun _ _ => trivial, fun _ _ _ _ _ => trivial, fun _ => trivial⟩

theorem joinLoaded_reachable {guard : Server → Event → Prop} (allows : AllowsJoins guard) :
    (joinServer joinCreated [1, 2] [] [[(joinRow 1 "public.a").pending]] [1]).Reachable pf settings guard := by
  have opened : (joinServer ⟨[], [], []⟩ [] [.create "public.a" "select" shopSpec [1, 2]] [] []).Reachable pf settings guard :=
    .step (.start ⟨rfl, rfl, rfl, rfl, rfl⟩)
      (@Server.Step.createBegan pf settings (joinServer ⟨[], [], []⟩ [] [] [] []) (joinSession "public.a") "a" "select" _ rfl
        fun _ _ other member => absurd member List.not_mem_nil) (allows.began _ _)
  have created : (joinServer joinCreated [1, 2] [] [] [1]).Reachable pf settings guard :=
    .step opened (.committed (.refl _) List.not_mem_nil rfl) (allows.creates _ _ _ _ fun _ reads => .inl reads)
  refine .step created ?_ (e := .loaded) (allows.loads _)
  have groups : group joinCreated.loadPending = [[(joinRow 1 "public.a").pending]] := by
    rw [Catalog.loadPending_single rfl]
    rfl
  rw [← groups]
  exact .loaded rfl

theorem joinBuilt_reachable {guard : Server → Event → Prop} (allows : AllowsJoins guard)
    (first : guard (joinServer joinCreated [1, 2] [] [[(joinRow 1 "public.a").pending]] [1])
      (.built (joinSight 0) 10 none [(joinRow 1 "public.a").pending])) :
    (joinServer joinBuilt [1, 2] [] [] [1]).Reachable pf settings guard :=
  .step (joinLoaded_reachable allows) (@Server.Step.built pf settings _ (joinSight 0) 10 none _ _ rfl) first

theorem joinSecond_reachable {guard : Server → Event → Prop} (allows : AllowsJoins guard)
    (live : (joinServer joinBuilt [1, 2] [] [] [1]).Reachable pf settings guard) :
    (joinServer (joinBuilt.insertView (joinRow 2 "public.b")) [1, 2] [] [[(joinRow 2 "public.b").pending]] [2, 1]).Reachable pf settings guard := by
  have begun : (joinServer joinBuilt [1, 2] [.create "public.b" "select" shopSpec []] [] [1]).Reachable pf settings guard :=
    .step live (@Server.Step.createBegan pf settings (joinServer joinBuilt [1, 2] [] [] [1]) (joinSession "public.b") "b" "select" _ rfl
      fun _ _ other member => absurd member List.not_mem_nil) (allows.began _ _)
  have created : (joinServer (joinBuilt.insertView (joinRow 2 "public.b")) [1, 2] [] [] [2, 1]).Reachable pf settings guard :=
    .step begun (.committed (.refl _) (by decide) rfl : Server.Step pf settings _ (.committed (.create "public.b" "select" shopSpec []) 2) _)
      (allows.creates _ _ _ _ fun _ reads => .inr reads)
  refine .step created ?_ (e := .loaded) (allows.loads _)
  have groups : group (joinBuilt.insertView (joinRow 2 "public.b")).loadPending = [[(joinRow 2 "public.b").pending]] := by
    rw [Catalog.loadPending_single rfl]
    rfl
  rw [← groups]
  exact .loaded rfl

def joinPair : Catalog := (joinBuilt.insertView (joinRow 2 "public.b")).populate (joinSight 0) 20 none [(joinRow 2 "public.b").pending]

theorem joinPair_reachable {guard : Server → Event → Prop} (allows : AllowsJoins guard)
    (first : guard (joinServer joinCreated [1, 2] [] [[(joinRow 1 "public.a").pending]] [1])
      (.built (joinSight 0) 10 none [(joinRow 1 "public.a").pending]))
    (second : guard (joinServer (joinBuilt.insertView (joinRow 2 "public.b")) [1, 2] [] [[(joinRow 2 "public.b").pending]] [2, 1])
      (.built (joinSight 0) 20 none [(joinRow 2 "public.b").pending])) :
    (joinServer joinPair [1, 2] [] [] [2, 1]).Reachable pf settings guard :=
  .step (joinSecond_reachable allows (joinBuilt_reachable allows first)) (@Server.Step.built pf settings _ (joinSight 0) 20 none _ _ rfl) second

theorem joinPair_fed : (joinPair.views.map fun row => (row.id, row.status)) = [(1, .live), (2, .live)] ∧
    ∀ row ∈ joinPair.views, row.status = .live →
      (∀ relid, (row.id, relid) ∈ joinPair.viewRelations ↔ relid ∈ row.spec.oids) ∧ ∀ relid ∈ row.spec.oids, relid ∈ [1, 2] := by
  have resolves : ∀ s point id name, Server.Feeds s (.built (joinSight 0) point none [(joinRow id name).pending]) := by
    refine fun s point id name => ⟨fun view member again => ?_, trivial⟩
    obtain rfl := List.mem_singleton.mp member
    exact absurd again Bool.false_ne_true
  exact ⟨rfl, @Server.Reachable.live_views_fed .basic shopSettings _ (joinPair_reachable
    ⟨fun _ _ => ⟨trivial, trivial⟩, fun _ _ _ _ published => ⟨trivial, published⟩, fun _ => ⟨trivial, trivial⟩⟩ (resolves _ _ _ _) (resolves _ _ _ _))⟩

def idRelation (oid : Nat) : BaseRelation := ⟨oid, 1, "public.items", ["id"], ["id"], ["text"], []⟩

/-- `SELECT id FROM items`, with `items` the given table. -/
def idSpec (oid : Nat) : ViewSpec where
  shape := .projection
  predicate := none
  columns := [⟨.column 0 "id" .text, "id"⟩]
  pkColumns := ["id"]
  pkViewColumns := ["id"]
  countAlias := none
  counts := []
  sums := []
  relations := [idRelation oid]
  selectList := [⟨.column 0 "id" .text, "id"⟩]
  hiddenColumns := []

def idSession (oid : Nat) : Session where
  creationName := fun _ => .ok "public.v"
  validate := fun _ => .ok (idSpec oid)
  walLevel := "logical"
  replident := fun _ => "d"
  relationExists := fun _ => false
  regclassText := fun _ => some "public.items"

def idSight (oid : Nat) : Sight where
  table := fun _ => ⟨[("id", "text")], []⟩
  validate := fun _ => .ok (idSpec oid)
  fault := fun _ => none

def idRow : ViewRow := .initial 1 "public.v" "SELECT id FROM items" (idSpec 1)

def idServer : Server where
  catalog := ⟨[idRow.built 10 false []], [(1, 1)], []⟩
  publication := [1]
  names := fun relid => if relid = 1 then "public.items" else "public.others"
  calls := []
  groups := []
  used := [1]

theorem idServer_reachable : idServer.Reachable pf settings Server.Feeds := by
  have begun : Server.Reachable pf settings Server.Feeds ⟨⟨[], [], []⟩, [], idServer.names,
      [.create "public.v" "SELECT id FROM items" (idSpec 1) [1]], [], []⟩ :=
    .step (.start ⟨rfl, rfl, rfl, rfl, rfl⟩)
      (@Server.Step.createBegan pf settings ⟨⟨[], [], []⟩, [], idServer.names, [], [], []⟩ (idSession 1) "v" "SELECT id FROM items" _ rfl
        fun _ _ other member => absurd member List.not_mem_nil) ⟨trivial, trivial⟩
  have created : Server.Reachable pf settings Server.Feeds ⟨⟨[idRow], [(1, 1)], []⟩, [1], idServer.names, [], [], [1]⟩ :=
    .step begun (.committed (.refl _) List.not_mem_nil rfl) ⟨trivial, fun _ member => .inl member⟩
  have loaded : Server.Reachable pf settings Server.Feeds
      ⟨⟨[idRow], [(1, 1)], []⟩, [1], idServer.names, [], [[idRow.pending]], [1]⟩ := by
    refine .step created ?_ (e := .loaded) ⟨trivial, trivial⟩
    have groups : group (Catalog.loadPending ⟨[idRow], [(1, 1)], []⟩) = [[idRow.pending]] := by
      rw [Catalog.loadPending_single rfl]
      rfl
    rw [← groups]
    exact .loaded rfl
  have populated : Catalog.populate (idSight 1) 10 none [idRow.pending] ⟨[idRow], [(1, 1)], []⟩ = idServer.catalog := rfl
  rw [show idServer = ⟨idServer.catalog, [1], idServer.names, [], [], [1]⟩ from rfl, ← populated]
  refine .step loaded (@Server.Step.built pf settings _ (idSight 1) 10 none _ _ rfl) ⟨?_, trivial⟩
  intro view member again
  obtain rfl := List.mem_singleton.mp member
  exact absurd again Bool.false_ne_true

def renamedServer : Server :=
  { idServer with
    catalog := ⟨[({ idRow.built 10 false [] with status := .refreshing, spec := idSpec 2 } : ViewRow).built 20 true []], [(1, 1)], []⟩
    used := [2, 1] }

theorem renamedServer_reachable : renamedServer.Reachable pf settings fun _ _ => True := by
  have start := @idServer_reachable pf settings
  have live : idServer.Reachable pf settings fun _ _ => True := start.weaken fun _ _ _ => trivial
  have begun : Server.Reachable pf settings (fun _ _ => True) { idServer with calls := [.refresh [1] []] } :=
    .step live (@Server.Step.refreshBegan pf settings idServer (idSession 1) _ _ List.mem_cons_self rfl) trivial
  generalize refreshing : ({ idRow.built 10 false [] with status := .refreshing } : ViewRow) = row
  have committed : Server.Reachable pf settings (fun _ _ => True)
      { idServer with catalog := ⟨[row], [(1, 1)], []⟩, used := [2, 1] } := by
    subst refreshing
    exact begun.refreshed rfl (show 2 ∉ [1] by decide) (fun _ => trivial) trivial
  have loaded : Server.Reachable pf settings (fun _ _ => True)
      { idServer with catalog := ⟨[row], [(1, 1)], []⟩, groups := [[row.pending]], used := [2, 1] } := by
    refine .step committed ?_ (e := .loaded) trivial
    have groups : group (Catalog.loadPending ⟨[row], [(1, 1)], []⟩) = [[row.pending]] := by
      subst refreshing
      rw [Catalog.loadPending_single rfl]
      rfl
    rw [← groups]
    exact .loaded rfl
  have populated : Catalog.populate (idSight 2) 20 none [row.pending] ⟨[row], [(1, 1)], []⟩ = renamedServer.catalog := by
    subst refreshing
    rfl
  rw [show renamedServer = { idServer with catalog := renamedServer.catalog, used := [2, 1] } from rfl, ← populated]
  exact .step loaded (@Server.Step.built pf settings _ (idSight 2) 20 none _ _ rfl) trivial

/-- Its rows are fed from a table that is neither recorded for it nor published. -/
theorem renamedServer_unfed : ¬ ∀ {pf : Platform} {settings : Settings} {s : Server}, s.Reachable pf settings (fun _ _ => True) →
    ∀ row ∈ s.catalog.views, row.status = .live →
      (∀ relid, (row.id, relid) ∈ s.catalog.viewRelations ↔ relid ∈ row.spec.oids) ∧ ∀ relid ∈ row.spec.oids, relid ∈ s.publication := by
  intro always
  have fed := @always .basic shopSettings _ renamedServer_reachable _ List.mem_cons_self rfl
  exact absurd (fed.2 2 List.mem_cons_self) (by decide)

end Nabla
