import Nabla.Standing

/-! Rounds that other sessions run alongside of: a round loads the live views, and what it
writes to their rows by id is committed later. -/
namespace Nabla
open Bags

variable {pf : Platform} {settings : Settings}

/-- A round whose transaction is open: what it loaded, what it makes of that, and the views
whose rows it has updated so far. -/
structure Flight where
  loaded : Catalog
  result : RoundResult
  locked : List Nat

/-- What the round writes for a view it loaded as live. -/
def Flight.written (flight : Flight) (id : Nat) : Option ViewRow :=
  if flight.loaded.views.any fun row => row.id = id && row.status = .live then flight.result.catalog.views.find? (·.id = id)
  else none

/-- The row with the columns only rounds write as the round has them. A status is written
only by `mark_stale` and `record_failure`. -/
def ViewRow.overwritten (row written : ViewRow) : ViewRow :=
  { row with
    storage := written.storage
    frontier := written.frontier
    lastSeq := written.lastSeq
    applyFailures := written.applyFailures
    lastError := written.lastError
    staleReason := written.staleReason
    deltas := written.deltas
    status := if written.status = .stale then .stale else row.status }

def ShadowRow.overwritten (s written : ShadowRow) : ShadowRow := { written with refcount := s.refcount }

/-- What the round's transaction leaves of the rows that are there when it commits. -/
def Flight.commit (flight : Flight) (c : Catalog) : Catalog :=
  { c with
    views := c.views.map fun row => (flight.written row.id).elim row row.overwritten
    shadows := c.shadows.map fun s => (flight.result.catalog.shadows.find? (·.relid = s.relid)).elim s s.overwritten }

structure Racing where
  server : Server
  flight : Option Flight

def Event.Locks (c : Catalog) : Event → Nat → Prop
  | .updated ids _, id => id ∈ c.refreshable ids
  | .committed (.dropView view _) _, id => id = view
  | .committed (.dropTable relid _) _, id => (id, relid) ∈ c.viewRelations
  | _, _ => False

inductive Event.OfSession : Event → Prop
  | renamed (names : Nat → String) : OfSession (.renamed names)
  | began (call : Call) : OfSession (.began call)
  | updated (ids added : List Nat) : OfSession (.updated ids added)
  | committed (call : Call) (id : Nat) : OfSession (.committed call id)
  | aborted (call : Call) : OfSession (.aborted call)

inductive Event.OfWorker : Event → Prop
  | loaded : OfWorker .loaded
  | built (sight : Sight) (point : Nat) (slot : Option Nat) (group : List Pending) : OfWorker (.built sight point slot group)
  | restarted : OfWorker .restarted
  | idled (frontier : Nat) : OfWorker (.idled frontier)
  | lagged : OfWorker .lagged

/-- One step. A session that updates a row the open round has updated waits for the round's
end, and the round waits for a refresh that has updated the row. -/
inductive Racing.Step (pf : Platform) (settings : Settings) : Racing → Option Event → Racing → Prop where
  | session {s s' : Server} {e : Event} {flight : Option Flight} (step : s.Step pf settings e s') (others : e.OfSession)
      (waits : ∀ f, flight = some f → ∀ view ∈ f.locked, ¬ e.Locks s.catalog view) :
      Step pf settings ⟨s, flight⟩ (some e) ⟨s', flight⟩
  | worker {s s' : Server} {e : Event} (step : s.Step pf settings e s') (own : e.OfWorker) : Step pf settings ⟨s, none⟩ (some e) ⟨s', none⟩
  | loads {s : Server} {faults : Faults} {cache : Nat → Option Relation} {txs : List SourceTransaction} {result : RoundResult}
      (done : s.groups = []) (ran : applyRound pf settings faults cache s.catalog txs = .ok result) :
      Step pf settings ⟨s, none⟩ none ⟨s, some ⟨s.catalog, result, []⟩⟩
  | writes {s : Server} {f : Flight} {id : Nat} (unlocked : ∀ call ∈ s.calls, call.holds id = false) :
      Step pf settings ⟨s, some f⟩ none ⟨s, some { f with locked := id :: f.locked }⟩
  | commits {s : Server} {f : Flight} (wrote : ∀ row ∈ f.loaded.views, ∀ w, f.written row.id = some w → w ≠ row → row.id ∈ f.locked) :
      Step pf settings ⟨s, some f⟩ none ⟨{ s with catalog := f.commit s.catalog }, none⟩
  | aborts {s : Server} {f : Flight} : Step pf settings ⟨s, some f⟩ none ⟨s, none⟩

structure Racing.Move where
  before : Racing
  event : Option Event
  after : Racing

/-- A run all of whose steps meet a condition, with its steps. -/
inductive Racing.Run (pf : Platform) (settings : Settings) (guard : Racing → Event → Prop) (start : Racing) : List Move → Racing → Prop where
  | refl : Run pf settings guard start [] start
  | step {s s' : Racing} {e : Option Event} {moves : List Move} (run : Run pf settings guard start moves s) (step : Step pf settings s e s')
      (meets : ∀ event, e = some event → guard s event) : Run pf settings guard start (moves ++ [⟨s, e, s'⟩]) s'

/-- The round marks the view stale, which was live when it was loaded. -/
def Flight.GivesUp (flight : Flight) (id : Nat) : Prop := ∃ w, flight.written id = some w ∧ w.status = .stale

/-- No refresh of a view commits while a round is open that loaded the view as live and
marks it stale. -/
def RefreshApart (s : Racing) (e : Event) : Prop :=
  ∀ ids added id, e = .committed (.marked ids added) id → ∀ f, s.flight = some f → ∀ view ∈ ids, ¬ f.GivesUp view

theorem Flight.written_live {f : Flight} {id : Nat} {w : ViewRow} (written : f.written id = some w) :
    (∃ row ∈ f.loaded.views, row.id = id ∧ row.status = .live) ∧ w ∈ f.result.catalog.views ∧ w.id = id := by
  unfold Flight.written at written
  split at written
  · rename_i loaded
    obtain ⟨row, member, both⟩ := List.any_eq_true.mp loaded
    rw [Bool.and_eq_true, decide_eq_true_eq, decide_eq_true_eq] at both
    have same := List.find?_some written
    rw [decide_eq_true_eq] at same
    exact ⟨⟨row, member, both⟩, List.mem_of_find?_eq_some written, same⟩
  · cases written

theorem ViewRow.overwritten_eq {row w : ViewRow} (fixed : w.id = row.id ∧ w.name = row.name ∧ w.definition = row.definition ∧
    w.spec = row.spec ∧ w.epoch = row.epoch ∧ w.populated = row.populated) (status : w.status = if w.status = .stale then .stale else row.status) :
    row.overwritten w = w := by
  obtain ⟨id, name, definition, spec, epoch, populated⟩ := fixed
  rw [ViewRow.overwritten, ← status, ← id, ← name, ← definition, ← spec, ← epoch, ← populated]

/-- A round leaves every column of a row that only rounds write, and of the status that it
writes nothing but `stale`. -/
theorem applyRound_overwrites {cache : Nat → Option Relation} {c : Catalog} {txs : List SourceTransaction} {faults : Faults}
    {result : RoundResult} (ids : Keyed ViewRow.id c.views) (applied : applyRound pf settings faults cache c txs = .ok result) :
    List.Forall₂ (fun row row' => row'.id = row.id ∧ (row.status ≠ .live → row' = row) ∧ (row.status = .live → row.overwritten row' = row'))
      c.views result.catalog.views := by
  obtain ⟨events, h, events', _, rows⟩ := applyRound_settled ids applied
  rw [rows]
  refine forall₂_map_right _ fun row _ => ?_
  by_cases live : row.status = .live
  · rw [if_pos live]
    obtain ⟨stale, eq⟩ := events' (LiveView.load row)
    rw [eq]
    have same := @replay_same pf settings faults events { LiveView.load row with stale := stale }
    have stands := @settledRow_stands settings _ _ live same (replay_status events _)
    refine ⟨stands.id, fun other => absurd live other, fun _ => ?_⟩
    generalize LiveView.replay pf settings faults events { LiveView.load row with stale := stale } = v at same stands
    have status : (v.settledRow settings).status = if (v.settledRow settings).status = .stale then .stale else row.status := by
      rcases stands.status with as_before | ⟨_, stale⟩
      · rw [as_before, live]
        rfl
      · rw [stale]
        rfl
    refine ViewRow.overwritten_eq ⟨stands.id, stands.name, stands.definition, stands.spec, ?_, stands.populated⟩ status
    have epoch : (v.settledRow settings).epoch = v.row.epoch := by
      unfold LiveView.settledRow
      cases v.absorbed.getLast? <;> rfl
    rw [epoch, same]
    rfl
  · rw [if_neg live]
    exact ⟨rfl, fun _ => rfl, fun other => absurd other live⟩

/-- With nothing committed in between, an open round ends as `apply_round` in one step. -/
theorem Flight.commit_alone {f : Flight} {cache : Nat → Option Relation} {txs : List SourceTransaction} {faults : Faults}
    (ids : Keyed ViewRow.id f.loaded.views) (relids : Keyed ShadowRow.relid f.loaded.shadows)
    (applied : applyRound pf settings faults cache f.loaded txs = .ok f.result) : f.commit f.loaded = f.result.catalog := by
  have rows := applyRound_overwrites ids applied
  have stands := applyRound_stands ids applied
  have ids' : Keyed ViewRow.id f.result.catalog.views := by
    rw [Keyed, stands.ids]
    exact ids
  have relids' : Keyed ShadowRow.relid f.result.catalog.shadows := by
    rw [Keyed, map_eq_of_forall₂ stands.shadows fun _ _ step => step.relid]
    exact relids
  have views : f.loaded.views.map (fun row => (f.written row.id).elim row row.overwritten) = f.result.catalog.views := by
    refine map_eq_of_forall₂_left (forall₂_imp_mem_right (forall₂_imp_mem rows fun row member row' => And.intro member) ?_)
    intro row row' member' both
    obtain ⟨member, id, other, live⟩ := both
    unfold Flight.written
    by_cases status : row.status = .live
    · rw [if_pos (List.any_eq_true.mpr ⟨row, member, by rw [status]; simp only [decide_true, Bool.and_self]⟩), ← id,
        ids'.find_of_mem member']
      exact live status
    · rw [if_neg ?_]
      · exact (other status).symm
      · intro loaded
        obtain ⟨row₁, member₁, both⟩ := List.any_eq_true.mp loaded
        rw [Bool.and_eq_true, decide_eq_true_eq, decide_eq_true_eq] at both
        rw [ids.eq_of_mem member₁ member both.1] at both
        exact status both.2
  have shadows : f.loaded.shadows.map (fun s => (f.result.catalog.shadows.find? (·.relid = s.relid)).elim s s.overwritten) =
      f.result.catalog.shadows := by
    refine map_eq_of_forall₂_left (forall₂_imp_mem_right stands.shadows ?_)
    intro s s' member' step
    rw [← step.relid, relids'.find_of_mem member']
    show s.overwritten s' = s'
    rw [ShadowRow.overwritten, ← step.refcount]
  rw [Flight.commit, views, shadows, ← stands.viewRelations]

theorem Server.Step.grows {s s' : Server} {e : Event} (step : s.Step pf settings e s') : s.used ⊆ s'.used := by
  cases step with
  | committed began fresh writes => exact List.subset_cons_self _ _
  | _ => exact List.Subset.refl _

/-- A row after another session's step: as it was, new, or marked by a refresh. -/
inductive SessionLeaves (s : Server) (e : Event) (row' : ViewRow) : Prop
  | same (before : row' ∈ s.catalog.views)
  | created (status : row'.status = .initializing) (fresh : row'.id ∉ s.used)
  | refreshed (ids added : List Nat) (id : Nat) (commit : e = .committed (.marked ids added) id) (asked : row'.id ∈ ids)
      (status : row'.status = .refreshing) (row : ViewRow) (before : row ∈ s.catalog.views) (same : row'.id = row.id)

theorem Call.commit_leaves {s : Server} {call : Call} {id : Nat} {publication : List Nat} {c : Catalog} (fresh : id ∉ s.used)
    (writes : call.commit s.names id s.publication s.catalog = some (publication, c)) :
    ∀ row' ∈ c.views, SessionLeaves s (.committed call id) row' := by
  intro row' member
  cases call with
  | create name definition spec added =>
      simp only [Call.commit] at writes
      split at writes
      · cases writes
      · obtain ⟨rfl, rfl⟩ := Prod.mk.inj (Option.some.inj writes)
        rcases List.mem_append.mp member with before | new
        · exact .same before
        · rw [List.mem_singleton.mp new]
          exact .created rfl fresh
  | refresh _ _ => cases writes
  | marked ids added =>
      simp only [Call.commit] at writes
      split at writes
      · cases writes
      · obtain ⟨rfl, rfl⟩ := Prod.mk.inj (Option.some.inj writes)
        obtain ⟨row, before, rfl | ⟨asked, rfl⟩⟩ := mem_of_forall₂_right (s.catalog.markRefreshing_views ids) member
        · exact .same before
        · exact .refreshed ids added id rfl asked rfl row before rfl
  | dropView view pruned =>
      obtain ⟨rfl, rfl⟩ := Prod.mk.inj (Option.some.inj writes)
      exact .same (Catalog.mem_forgetView.mp member).1
  | dropTable relid pruned =>
      obtain ⟨rfl, rfl⟩ := Prod.mk.inj (Option.some.inj writes)
      exact .same (Catalog.mem_dropTable.mp member).1
  | dropShadow relid pruned =>
      obtain ⟨rfl, rfl⟩ := Prod.mk.inj (Option.some.inj writes)
      exact .same member

theorem Server.Step.session_leaves {s s' : Server} {e : Event} (step : s.Step pf settings e s') (others : e.OfSession) :
    s'.groups = s.groups ∧ ∀ row' ∈ s'.catalog.views, SessionLeaves s e row' := by
  cases step with
  | committed began fresh writes => exact ⟨rfl, Call.commit_leaves fresh writes⟩
  | renamed => exact ⟨rfl, fun _ before => .same before⟩
  | createBegan => exact ⟨rfl, fun _ before => .same before⟩
  | refreshBegan => exact ⟨rfl, fun _ before => .same before⟩
  | updated => exact ⟨rfl, fun _ before => .same before⟩
  | viewDropBegan => exact ⟨rfl, fun _ before => .same before⟩
  | tableDropBegan => exact ⟨rfl, fun _ before => .same before⟩
  | shadowDropBegan => exact ⟨rfl, fun _ before => .same before⟩
  | aborted => exact ⟨rfl, fun _ before => .same before⟩
  | loaded => cases others
  | built => cases others
  | restarted => cases others
  | applied => cases others
  | idled => cases others
  | lagged => cases others

/-- A row after a step of the worker between its rounds, when it was waiting for a refresh:
untouched, or populated. -/
theorem Server.Step.worker_leaves {s s' : Server} {e : Event} (orderly : s.Orderly) (step : s.Step pf settings e s') (own : e.OfWorker)
    {row row' : ViewRow} (member : row ∈ s.catalog.views) (refreshing : row.status = .refreshing) (member' : row' ∈ s'.catalog.views)
    (same : row'.id = row.id) : row'.status = .refreshing ∨
      (row'.status = .live ∨ row'.status = .failed) ∧ ∃ sight point slot group, e = .built sight point slot group := by
  have standing : s.catalog.Stands s'.catalog → row'.status = .refreshing := by
    intro stands
    obtain ⟨before, within, kept⟩ := stands.row member'
    rw [orderly.ids.eq_of_mem within member (kept.id.symm.trans same)] at kept
    rcases kept.status with as_before | ⟨live, _⟩
    · exact as_before.trans refreshing
    · exact absurd (live.symm.trans refreshing) Status.noConfusion
  cases step with
  | loaded =>
      left
      rw [orderly.ids.eq_of_mem member' member same]
      exact refreshing
  | restarted =>
      left
      rw [orderly.ids.eq_of_mem member' member same]
      exact refreshing
  | idled => exact .inl (standing (s.catalog.idleAdvance_stands _))
  | lagged => exact .inl (standing s.catalog.markLagged_stands)
  | built next =>
      rename_i sight point slot group groups
      obtain ⟨before, within, built, _⟩ := mem_of_forall₂_right (Catalog.populate_views (orderly.head next) slot s.catalog) member'
      obtain rfl := orderly.ids.eq_of_mem within member (built.id.symm.trans same)
      by_cases inside : before.id ∈ group.map Pending.id
      · refine .inr ⟨?_, _, _, _, _, rfl⟩
        rcases built.inside inside with ⟨_, _, _, _, _, rfl⟩ | ⟨_, rfl⟩
        · exact .inl rfl
        · exact .inr rfl
      · left
        rw [built.outside inside]
        exact refreshing
  | renamed => cases own
  | createBegan => cases own
  | refreshBegan => cases own
  | updated => cases own
  | viewDropBegan => cases own
  | tableDropBegan => cases own
  | shadowDropBegan => cases own
  | committed => cases own
  | aborted => cases own
  | applied => cases own

/-- No view that waits for a refresh is about to be marked stale. -/
structure Racing.Sound (s : Racing) : Prop where
  orderly : s.server.Orderly
  idle : ∀ f, s.flight = some f → s.server.groups = []
  apart : ∀ f, s.flight = some f → ∀ row ∈ s.server.catalog.views, row.status = .refreshing → ¬ f.GivesUp row.id

theorem Flight.mem_commit {f : Flight} {c : Catalog} {row w : ViewRow} (member : row ∈ c.views) (written : f.written row.id = some w) :
    row.overwritten w ∈ (f.commit c).views := by
  refine List.mem_map.mpr ⟨row, member, ?_⟩
  rw [written]
  rfl

theorem Flight.commit_row {f : Flight} {c : Catalog} {row' : ViewRow} (member : row' ∈ (f.commit c).views) :
    ∃ row ∈ c.views, row'.id = row.id ∧ (row'.status = row.status ∨ row'.status = .stale ∧ f.GivesUp row.id) := by
  obtain ⟨row, before, rfl⟩ := List.mem_map.mp member
  cases written : f.written row.id with
  | none => exact ⟨row, before, rfl, .inl rfl⟩
  | some w =>
      refine ⟨row, before, rfl, ?_⟩
      by_cases stale : w.status = .stale
      · exact .inr ⟨if_pos stale, w, written, stale⟩
      · left
        show (if w.status = .stale then .stale else row.status) = row.status
        rw [if_neg stale]

theorem Server.Orderly.committed {s : Server} (orderly : s.Orderly) (idle : s.groups = []) (f : Flight) :
    Server.Orderly { s with catalog := f.commit s.catalog } := by
  have ids : (f.commit s.catalog).views.map ViewRow.id = s.catalog.views.map ViewRow.id := by
    refine (List.map_map ..).trans (List.map_congr_left fun row _ => ?_)
    rw [Function.comp_apply]
    cases f.written row.id <;> rfl
  refine ⟨?_, ?_, orderly.recorded, orderly.groups, ?_, fun call holding id holds => ?_⟩
  · rw [Keyed, ids]
    exact orderly.ids
  · intro row' member
    obtain ⟨row, before, same, _⟩ := Flight.commit_row member
    exact same ▸ orderly.used row before
  · intro view member
    rw [idle] at member
    exact absurd member List.not_mem_nil
  · obtain ⟨known, past⟩ := orderly.locked call holding id holds
    refine ⟨known, fun row' member same => ?_⟩
    obtain ⟨row, before, own, status | ⟨stale, _⟩⟩ := Flight.commit_row member
    · exact status ▸ past row before (own.symm.trans same)
    · exact stale ▸ Status.noConfusion

theorem Racing.Step.keeps {s s' : Racing} {e : Option Event} (sound : s.Sound) (step : s.Step pf settings e s')
    (meets : ∀ event, e = some event → RefreshApart s event) : s'.Sound := by
  cases step with
  | session step others waits =>
      obtain ⟨groups, leaves⟩ := step.session_leaves others
      refine ⟨step.orderly sound.orderly, fun f open_ => groups.trans (sound.idle f open_), fun f open_ row' member refreshing => ?_⟩
      cases leaves row' member with
      | same before => exact sound.apart f open_ row' before refreshing
      | created status => exact absurd (status.symm.trans refreshing) Status.noConfusion
      | refreshed ids added id commit asked => exact meets _ rfl ids added id commit f open_ row'.id asked
  | worker step own =>
      exact ⟨step.orderly sound.orderly, fun f none => absurd none.symm (Option.some_ne_none f), fun f none => absurd none.symm (Option.some_ne_none f)⟩
  | loads done ran =>
      refine ⟨sound.orderly, fun _ _ => done, fun f open_ row member refreshing givesUp => ?_⟩
      obtain rfl := Option.some.inj open_
      obtain ⟨w, written, _⟩ := givesUp
      obtain ⟨⟨loaded, within, same, live⟩, _⟩ := Flight.written_live written
      rw [sound.orderly.ids.eq_of_mem within member same] at live
      exact absurd (live.symm.trans refreshing) Status.noConfusion
  | writes =>
      refine ⟨sound.orderly, fun f _ => sound.idle _ rfl, fun f open_ row member refreshing givesUp => ?_⟩
      obtain rfl := Option.some.inj open_
      exact sound.apart _ rfl row member refreshing givesUp
  | commits wrote =>
      exact ⟨sound.orderly.committed (sound.idle _ rfl) _, fun f none => absurd none.symm (Option.some_ne_none f),
        fun f none => absurd none.symm (Option.some_ne_none f)⟩
  | aborts =>
      exact ⟨sound.orderly, fun f none => absurd none.symm (Option.some_ne_none f), fun f none => absurd none.symm (Option.some_ne_none f)⟩

theorem Racing.Run.keeps {start s : Racing} {moves : List Move} (sound : start.Sound) (run : Run pf settings RefreshApart start moves s) :
    s.Sound := by
  induction run with
  | refl => exact sound
  | step _ step meets ih => exact step.keeps ih meets

/-- A step after which the view no longer waits for its refresh is a population. -/
theorem Racing.Step.refreshing {s s' : Racing} {e : Option Event} (sound : s.Sound) (step : s.Step pf settings e s') {row row' : ViewRow}
    (member : row ∈ s.server.catalog.views) (refreshing : row.status = .refreshing) (member' : row' ∈ s'.server.catalog.views)
    (same : row'.id = row.id) : row'.status = .refreshing ∨
      (row'.status = .live ∨ row'.status = .failed) ∧ ∃ sight point slot group, e = some (.built sight point slot group) := by
  have ids := sound.orderly.ids
  cases step with
  | session step others waits =>
      left
      cases (step.session_leaves others).2 row' member' with
      | same before =>
          rw [ids.eq_of_mem before member same]
          exact refreshing
      | created status fresh => exact absurd (same ▸ sound.orderly.used row member) fresh
      | refreshed ids added id commit asked status => exact status
  | worker step own =>
      rcases step.worker_leaves sound.orderly own member refreshing member' same with kept | ⟨populated, sight, point, slot, group, rfl⟩
      · exact .inl kept
      · exact .inr ⟨populated, sight, point, slot, group, rfl⟩
  | commits wrote =>
      left
      obtain ⟨before, within, id, status | ⟨_, givesUp⟩⟩ := Flight.commit_row member'
      · rw [ids.eq_of_mem within member (id.symm.trans same)] at status
        exact status.trans refreshing
      · rw [ids.eq_of_mem within member (id.symm.trans same)] at givesUp
        exact absurd givesUp (sound.apart _ rfl row member refreshing)
  | loads =>
      rw [ids.eq_of_mem member' member same]
      exact .inl refreshing
  | writes =>
      rw [ids.eq_of_mem member' member same]
      exact .inl refreshing
  | aborts =>
      rw [ids.eq_of_mem member' member same]
      exact .inl refreshing

/-- The step is a population that takes the view out of 'refreshing', to 'live' or 'failed'. -/
structure Racing.Move.Populates (move : Move) (id : Nat) : Prop where
  event : ∃ sight point slot group, move.event = some (.built sight point slot group)
  before : ∃ row ∈ move.before.server.catalog.views, row.id = id ∧ row.status = .refreshing
  after : ∃ row ∈ move.after.server.catalog.views, row.id = id ∧ (row.status = .live ∨ row.status = .failed)

theorem Racing.Step.row {s s' : Racing} {e : Option Event} (sound : s.Sound) (step : s.Step pf settings e s') {row' : ViewRow}
    (member : row' ∈ s'.server.catalog.views) : (∃ row ∈ s.server.catalog.views, row'.id = row.id) ∨ row'.id ∉ s.server.used := by
  cases step with
  | session step others =>
      cases (step.session_leaves others).2 row' member with
      | same before => exact .inl ⟨row', before, rfl⟩
      | created _ fresh => exact .inr fresh
      | refreshed _ _ _ _ _ _ row before same => exact .inl ⟨row, before, same⟩
  | worker step own =>
      left
      have standing : ∀ {c c' : Catalog}, c.Stands c' → row' ∈ c'.views → ∃ row ∈ c.views, row'.id = row.id := by
        intro c c' stands within
        obtain ⟨row, before, kept⟩ := stands.row within
        exact ⟨row, before, kept.id⟩
      cases step with
      | loaded => exact ⟨row', member, rfl⟩
      | restarted => exact ⟨row', member, rfl⟩
      | idled => exact standing (Catalog.idleAdvance_stands _ _) member
      | lagged => exact standing (Catalog.markLagged_stands _) member
      | built next =>
          obtain ⟨row, before, built, _⟩ := mem_of_forall₂_right (Catalog.populate_views (sound.orderly.head next) _ _) member
          exact ⟨row, before, built.id⟩
      | renamed => cases own
      | createBegan => cases own
      | refreshBegan => cases own
      | updated => cases own
      | viewDropBegan => cases own
      | tableDropBegan => cases own
      | shadowDropBegan => cases own
      | committed => cases own
      | aborted => cases own
      | applied => cases own
  | commits wrote =>
      obtain ⟨row, before, same, _⟩ := Flight.commit_row member
      exact .inl ⟨row, before, same⟩
  | loads => exact .inl ⟨row', member, rfl⟩
  | writes => exact .inl ⟨row', member, rfl⟩
  | aborts => exact .inl ⟨row', member, rfl⟩

theorem Racing.Step.grows {s s' : Racing} {e : Option Event} (step : s.Step pf settings e s') : s.server.used ⊆ s'.server.used := by
  cases step with
  | session step => exact step.grows
  | worker step => exact step.grows
  | _ => exact List.Subset.refl _

theorem Racing.Run.grows {guard : Racing → Event → Prop} {s s' : Racing} {moves : List Move} (run : Run pf settings guard s moves s') :
    s.server.used ⊆ s'.server.used := by
  induction run with
  | refl => exact List.Subset.refl _
  | step _ step _ ih => exact List.Subset.trans ih step.grows

/-- A refresh that was committed is not lost: where no refresh of a view commits while a
round that marks the view stale is open, a view that is 'refreshing' stays so until a
population makes it 'live' or 'failed'. -/
theorem Racing.Run.refresh_kept {start s s' : Racing} {moves moves' : List Move} (orderly : start.server.Orderly) (calm : start.flight = none)
    (before : Run pf settings RefreshApart start moves s) (run : Run pf settings RefreshApart s moves' s') {row row' : ViewRow}
    (member : row ∈ s.server.catalog.views) (refreshing : row.status = .refreshing) (member' : row' ∈ s'.server.catalog.views)
    (same : row'.id = row.id) : row'.status = .refreshing ∨ ∃ move ∈ moves', move.Populates row.id := by
  have sound : s.Sound := by
    refine before.keeps ⟨orderly, fun f open_ => ?_, fun f open_ => ?_⟩ <;> rw [calm] at open_ <;> cases open_
  induction run generalizing row' with
  | refl =>
      rw [sound.orderly.ids.eq_of_mem member' member same]
      exact .inl refreshing
  | @step s₁ s₂ e moves₁ run step meets ih =>
      have sound₁ := run.keeps sound
      have known : row'.id ∈ s₁.server.used := same ▸ run.grows (sound.orderly.used row member)
      obtain ⟨row₁, member₁, same₁⟩ := (step.row sound₁ member').resolve_right (not_not.mpr known)
      rcases ih member₁ (same₁.symm.trans same) with kept | ⟨move, earlier, populates⟩
      · rcases step.refreshing sound₁ member₁ kept member' same₁ with kept' | ⟨left, event⟩
        · exact .inl kept'
        · exact .inr ⟨⟨s₁, e, s₂⟩, List.mem_append_right _ (List.mem_singleton_self _),
            event, ⟨row₁, member₁, same₁.symm.trans same, kept⟩, ⟨row', member', same, left⟩⟩
      · exact .inr ⟨move, List.mem_append_left _ earlier, populates⟩

/-- The shop with an open call to `nabla.refresh`. -/
def shopServer : Server where
  catalog := shopCatalog
  publication := [1, 2]
  names := fun _ => ""
  calls := [.refresh [7] []]
  groups := []
  used := [7]

theorem shopServer_orderly : shopServer.Orderly where
  ids := List.nodup_singleton _
  used := by
    intro row member
    obtain rfl := List.mem_singleton.mp member
    exact List.mem_singleton_self _
  recorded := by decide
  groups := Keyed.nil _
  loaded := fun view member => absurd member List.not_mem_nil
  locked := by
    intro call member id holds
    obtain rfl := List.mem_singleton.mp member
    exact absurd holds Bool.false_ne_true

def shopEmptied : SourceTransaction := ⟨1, 9, 10, [.truncate [1]]⟩

theorem shop_emptied : ∃ result, applyRound .basic shopSettings Faults.none (some ∘ shopRelation) shopCatalog [shopEmptied] = .ok result ∧
    ∃ row, result.catalog.views = [row] ∧ row.id = 7 ∧ row.status = .stale := ⟨_, rfl, _, rfl, rfl, rfl⟩

def shopUpdated : Server := { shopServer with calls := [.marked [7] []] }

def shopRefreshing : Server := { shopServer with catalog := shopCatalog.markRefreshing [7], calls := [], used := [8, 7] }

theorem shop_updated : shopServer.Step .basic shopSettings (.updated [7] []) shopUpdated :=
  .updated (.refl _) fun _ _ => List.forall_mem_singleton.mpr rfl

theorem shop_committed : shopUpdated.Step .basic shopSettings (.committed (.marked [7] []) 8) shopRefreshing :=
  .committed (.refl _) (by decide) rfl

theorem not_populates {moves : List Racing.Move} (quiet : ∀ move ∈ moves, move.event = none) (id : Nat) :
    ¬ ∃ move ∈ moves, move.Populates id := by
  rintro ⟨move, among, ⟨sight, point, slot, group, event⟩, _, _⟩
  exact absurd ((quiet move among).symm.trans event) (Option.some_ne_none _).symm

/-- A round that starts after the refresh leaves the view waiting for it. -/
theorem shop_refresh_kept : ∃ f : Flight, ∃ row' ∈ (f.commit shopRefreshing.catalog).views, row'.id = 7 ∧ row'.status = .refreshing := by
  obtain ⟨result, ran⟩ : ∃ result, applyRound .basic shopSettings Faults.none (some ∘ shopRelation) shopRefreshing.catalog
      [shopEmptied] = .ok result := ⟨_, rfl⟩
  obtain ⟨moves, asked⟩ : ∃ moves, Racing.Run .basic shopSettings RefreshApart ⟨shopServer, none⟩ moves ⟨shopRefreshing, none⟩ := by
    refine ⟨_, .step (.step .refl (.session shop_updated (.updated _ _) fun f open_ => ?_) fun _ _ _ _ _ _ f open_ => ?_)
      (.session shop_committed (.committed _ _) fun f open_ => ?_) fun _ _ _ _ _ _ f open_ => ?_⟩
    all_goals cases open_
  obtain ⟨moves', quiet, round⟩ : ∃ moves' : List Racing.Move, (∀ move ∈ moves', move.event = none) ∧
      Racing.Run .basic shopSettings RefreshApart ⟨shopRefreshing, none⟩ moves'
        ⟨{ shopRefreshing with catalog := Flight.commit ⟨shopRefreshing.catalog, result, []⟩ shopRefreshing.catalog }, none⟩ := by
    refine ⟨_, ?_, .step (.step .refl (.loads rfl ran) fun _ none => ?_) (.commits fun row member w written => ?_) fun _ none => ?_⟩
    · exact List.forall_mem_append.mpr ⟨List.forall_mem_append.mpr ⟨fun _ none => absurd none List.not_mem_nil, List.forall_mem_singleton.mpr rfl⟩,
        List.forall_mem_singleton.mpr rfl⟩
    · cases none
    · obtain ⟨⟨other, within, _, live⟩, _⟩ := Flight.written_live written
      obtain rfl := List.mem_singleton.mp within
      exact Status.noConfusion live
    · cases none
  refine ⟨⟨shopRefreshing.catalog, result, []⟩, { shopView 0 [] with status := .refreshing }, List.mem_singleton_self _, rfl, ?_⟩
  exact (Racing.Run.refresh_kept shopServer_orderly rfl asked round (List.mem_singleton_self _) rfl (List.mem_singleton_self _)
    rfl).resolve_right (not_populates quiet 7)

/-- A refresh that commits after the round loaded the view is overwritten: the view is
stale, and no population has looked at it. -/
theorem shop_refresh_lost : ¬ ∀ {pf : Platform} {settings : Settings} {start s s' : Racing} {moves moves' : List Racing.Move},
    start.server.Orderly → start.flight = none → Racing.Run pf settings (fun _ _ => True) start moves s →
    Racing.Run pf settings (fun _ _ => True) s moves' s' → ∀ row ∈ s.server.catalog.views, row.status = .refreshing →
    ∀ row' ∈ s'.server.catalog.views, row'.id = row.id → row'.status = .refreshing ∨ ∃ move ∈ moves', move.Populates row.id := by
  intro claim
  obtain ⟨result, ran, w, views, id, stale⟩ := shop_emptied
  obtain ⟨moves, asked⟩ : ∃ moves, Racing.Run .basic shopSettings (fun _ _ => True) ⟨shopServer, none⟩ moves
      ⟨shopRefreshing, some ⟨shopCatalog, result, []⟩⟩ := by
    have loads : Racing.Run .basic shopSettings (fun _ _ => True) ⟨shopServer, none⟩ _ ⟨shopServer, some ⟨shopCatalog, result, []⟩⟩ :=
      .step .refl (.loads rfl ran) fun _ _ => trivial
    have updates := loads.step (.session shop_updated (.updated _ _) fun f open_ view member => ?_) fun _ _ => trivial
    · refine ⟨_, updates.step (.session shop_committed (.committed _ _) fun f open_ view member => ?_) fun _ _ => trivial⟩
      obtain rfl := Option.some.inj open_
      exact absurd member List.not_mem_nil
    · obtain rfl := Option.some.inj open_
      exact absurd member List.not_mem_nil
  obtain ⟨moves', quiet, round⟩ : ∃ moves' : List Racing.Move, (∀ move ∈ moves', move.event = none) ∧
      Racing.Run .basic shopSettings (fun _ _ => True) ⟨shopRefreshing, some ⟨shopCatalog, result, []⟩⟩ moves'
        ⟨{ shopRefreshing with catalog := Flight.commit ⟨shopCatalog, result, [7]⟩ shopRefreshing.catalog }, none⟩ := by
    refine ⟨_, ?_, .step (.step .refl (.writes fun _ member => absurd member List.not_mem_nil) fun _ _ => trivial) (.commits fun row member w written _ => ?_) fun _ _ => trivial⟩
    · exact List.forall_mem_append.mpr ⟨List.forall_mem_append.mpr ⟨fun _ none => absurd none List.not_mem_nil, List.forall_mem_singleton.mpr rfl⟩,
        List.forall_mem_singleton.mpr rfl⟩
    · obtain rfl := List.mem_singleton.mp member
      exact List.mem_singleton_self _
  have written : Flight.written ⟨shopCatalog, result, [7]⟩ 7 = some w := by
    have found : result.catalog.views.find? (·.id = 7) = some w := by
      rw [views]
      exact List.find?_cons_of_pos (decide_eq_true id)
    exact (if_pos rfl).trans found
  have left : ({ shopView 0 [] with status := .refreshing } : ViewRow).overwritten w ∈
      (Flight.commit ⟨shopCatalog, result, [7]⟩ shopRefreshing.catalog).views :=
    Flight.mem_commit (List.mem_singleton_self _) written
  have status : (({ shopView 0 [] with status := .refreshing } : ViewRow).overwritten w).status = .stale := by
    rw [ViewRow.overwritten, stale]
    rfl
  have kept := (claim shopServer_orderly rfl asked round _ (List.mem_singleton_self _) rfl _ left rfl).resolve_right (not_populates quiet 7)
  exact Status.noConfusion (status.symm.trans kept)

end Nabla
