import Nabla.DeltaLog
import Nabla.Regroup
import Nabla.Lifecycle

/-! What the steps of an installation leave as it was: the parts of a catalog that a round
and the idle and lag paths have no say in, and what a refresh, a drop or a build changes. -/
namespace Nabla
open Bags

variable {pf : Platform} {settings : Settings} {faults : Faults}

/-- A row after a round: only a live view is written, and none becomes live. -/
structure ViewRow.Stands (row row' : ViewRow) : Prop where
  id : row'.id = row.id
  name : row'.name = row.name
  definition : row'.definition = row.definition
  spec : row'.spec = row.spec
  populated : row'.populated = row.populated
  status : row'.status = row.status ∨ (row.status = .live ∧ row'.status = .stale)

theorem ViewRow.Stands.refl (row : ViewRow) : row.Stands row := ⟨rfl, rfl, rfl, rfl, rfl, .inl rfl⟩

theorem ViewRow.Stands.live {row row' : ViewRow} (stands : row.Stands row') (live : row'.status = .live) : row.status = .live := by
  rcases stands.status with same | ⟨_, stale⟩
  · exact same.symm.trans live
  · rw [stale] at live
    exact absurd live Status.noConfusion

/-- A shadow after a round keeps its place in the catalog. -/
structure ShadowRow.Stands (s s' : ShadowRow) : Prop where
  relid : s'.relid = s.relid
  refcount : s'.refcount = s.refcount
  failed : s.failed = true → s'.failed = true

theorem ShadowRow.Stands.refl (s : ShadowRow) : s.Stands s := ⟨rfl, rfl, id⟩

theorem ShadowRow.Stands.trans {s s' s'' : ShadowRow} (first : s.Stands s') (second : s'.Stands s'') : s.Stands s'' :=
  ⟨second.relid.trans first.relid, second.refcount.trans first.refcount, second.failed ∘ first.failed⟩

structure Catalog.Stands (c c' : Catalog) : Prop where
  views : List.Forall₂ ViewRow.Stands c.views c'.views
  viewRelations : c'.viewRelations = c.viewRelations
  shadows : List.Forall₂ ShadowRow.Stands c.shadows c'.shadows

theorem executeView_status (tx : SourceTransaction) (v : LiveView) :
    (executeView pf settings faults tx v).row.status = v.row.status ∨ (executeView pf settings faults tx v).row.status = .stale := by
  have failing : ∀ (w : LiveView) (message : String), (w.recordFailure settings message).row.status = w.row.status ∨
      (w.recordFailure settings message).row.status = .stale := by
    intro w message
    simp only [LiveView.recordFailure]
    split
    · exact .inr rfl
    · exact .inl rfl
  unfold executeView
  split
  · exact .inl rfl
  · split
    · exact .inr rfl
    · exact failing v _
    · split
      · exact .inl rfl
      · exact failing { v with ops := [] } _

theorem replay_status (events : List ViewEvent) (v : LiveView) :
    (LiveView.replay pf settings faults events v).row.status = v.row.status ∨
      (LiveView.replay pf settings faults events v).row.status = .stale := by
  induction events generalizing v with
  | nil => exact .inl rfl
  | cons event events ih =>
      have step : (v.handle pf settings faults event).row.status = v.row.status ∨
          (v.handle pf settings faults event).row.status = .stale := by
        cases event with
        | plan e position relid tables rel change old =>
            exact .inl (congrArg _ (planView_kept pf faults e position relid tables rel change old v).row)
        | lost relid rel message => exact .inl (congrArg _ (shadowLost_kept 0 relid rel message v).row)
        | execute tx => exact executeView_status tx v
      rcases ih (v.handle pf settings faults event) with same | stale
      · rcases step with same' | stale'
        · exact .inl (same.trans same')
        · exact .inr (same.trans stale')
      · exact .inr stale

theorem settledRow_stands {v : LiveView} {row : ViewRow} (live : row.status = .live) (same : row.Same v.row)
    (status : v.row.status = row.status ∨ v.row.status = .stale) : row.Stands (v.settledRow settings) := by
  have settled : (v.settledRow settings).name = v.row.name ∧ (v.settledRow settings).definition = v.row.definition ∧
      (v.settledRow settings).populated = v.row.populated := by
    unfold LiveView.settledRow
    cases v.absorbed.getLast? <;> exact ⟨rfl, rfl, rfl⟩
  obtain ⟨id, spec, status'⟩ := @LiveView.settledRow_same settings v
  refine ⟨id.trans same.id, settled.1.trans ?_, settled.2.1.trans ?_, spec.trans same.spec, settled.2.2.trans ?_, ?_⟩
  · rw [same]
  · rw [same]
  · rw [same]
  · rw [status']
    exact status.imp_right fun stale => ⟨live, stale⟩

/-- What a source transaction can do to a shadow, one relation of a change after the other. -/
structure ShadowStep (R : ShadowRow → ShadowRow → Prop) : Prop where
  refl : ∀ s, R s s
  trans : ∀ s s' s'', R s s' → R s' s'' → R s s''
  rows : ∀ s rows, R s { s with rows := rows }
  failure : ∀ s message, R s (recordShadowFailure s message)
  advance : ∀ s e, R s (advanceShadow e s)

theorem updateShadow_related {R : ShadowRow → ShadowRow → Prop} (refl : ∀ s, R s s) (relid : Nat) {f : ShadowRow → ShadowRow}
    (related : ∀ s, s.relid = relid → R s (f s)) (shadows : List ShadowRow) :
    List.Forall₂ R shadows (updateShadow relid f shadows) := by
  refine forall₂_map_right _ fun s _ => ?_
  by_cases here : s.relid = relid
  · rw [if_pos here]
    exact related s here
  · rw [if_neg here]
    exact refl s

theorem ShadowStep.applyTransactions {R : ShadowRow → ShadowRow → Prop} (rule : ShadowStep R) {rels : List (Nat × Relation)}
    {ti : Nat} {txs : List SourceTransaction} {st st' : RoundState} {blockedAt : Option Nat}
    (ran : applyTransactions pf settings faults rels ti txs st = .ok (st', blockedAt)) :
    List.Forall₂ R st.shadows st'.shadows := by
  have planned : ∀ {e changes} {st st' : RoundState}, applyChanges pf faults rels e 0 changes st = .ok st' →
      List.Forall₂ R st.shadows st'.shadows := by
    intro e changes st st' applied
    refine applyChanges_rule (P := fun st st' => List.Forall₂ R st.shadows st'.shadows) ?_ ?_ ?_ applied
    · exact fun st => List.forall₂_same.mpr fun s _ => rule.refl s
    · exact fun first second => forall₂_trans rule.trans first second
    · intro position relid change st st' step
      obtain ⟨rel, _, outcome⟩ := applyRelid_ok step
      cases outcome with
      | unread => exact List.forall₂_same.mpr fun s _ => rule.refl s
      | absorbed => exact updateShadow_related rule.refl relid (fun s _ => rule.rows s _) _
      | lost => exact updateShadow_related rule.refl relid (fun s _ => rule.failure s _) _
  induction txs generalizing ti st blockedAt with
  | nil =>
      obtain ⟨rfl, rfl⟩ := Prod.mk.inj (Except.ok.inj ran)
      exact List.forall₂_same.mpr fun s _ => rule.refl s
  | cons tx txs ih =>
      rw [Nabla.applyTransactions] at ran
      cases first : applyTransaction pf settings faults rels tx st with
      | error message => simp only [first, reduceCtorEq] at ran
      | ok step =>
          obtain ⟨st₁, blocked⟩ := step
          simp only [first] at ran
          obtain ⟨r, rest, same⟩ := ok_of_map ran
          obtain ⟨rfl, _⟩ := Prod.mk.inj same
          unfold applyTransaction at first
          obtain ⟨between, changed, same'⟩ := ok_of_map first
          obtain ⟨rfl, _⟩ := Prod.mk.inj same'
          have advanced : List.Forall₂ R between.shadows (between.shadows.map (advanceShadow tx.endLsn)) :=
            forall₂_map_right _ fun s _ => rule.advance s tx.endLsn
          exact forall₂_trans rule.trans (planned changed) (forall₂_trans rule.trans advanced (ih rest))

theorem shadowStands : ShadowStep ShadowRow.Stands where
  refl := .refl
  trans := fun _ _ _ => .trans
  rows := fun _ _ => ⟨rfl, rfl, id⟩
  failure := fun _ _ => ⟨rfl, rfl, fun _ => rfl⟩
  advance := by
    intro s e
    unfold advanceShadow
    split
    · exact ⟨rfl, rfl, id⟩
    · exact .refl s

theorem shadowDrift_stands (s : ShadowRow) (rel : Relation) (qualified : String) : s.Stands (shadowDrift s rel qualified) := by
  unfold shadowDrift
  dsimp only
  split
  · exact .refl s
  · split
    · exact ⟨rfl, rfl, fun _ => rfl⟩
    · exact ⟨rfl, rfl, id⟩

theorem shadowDrift_frontier (s : ShadowRow) (rel : Relation) (qualified : String) : (shadowDrift s rel qualified).frontier = s.frontier := by
  unfold shadowDrift
  dsimp only
  split
  · rfl
  · split
    · rfl
    · rfl

theorem foldl_driftRelation_stands (roundEnd : Nat) (rels : List (Nat × Relation)) (st : RoundState) :
    List.Forall₂ ShadowRow.Stands st.shadows (rels.foldl (driftRelation roundEnd) st).shadows := by
  induction rels generalizing st with
  | nil => exact List.forall₂_same.mpr fun s _ => .refl s
  | cons described rels ih =>
      refine forall₂_trans (fun _ _ _ => .trans) ?_ (ih _)
      refine updateShadow_related .refl _ (fun s _ => ?_) _
      split
      · exact shadowDrift_stands s _ _
      · exact .refl s

theorem applyRound_stands {cache : Nat → Option Relation} {c : Catalog} {txs : List SourceTransaction} {result : RoundResult}
    (ids : Keyed ViewRow.id c.views) (applied : applyRound pf settings faults cache c txs = .ok result) :
    c.Stands result.catalog where
  views := by
    obtain ⟨events, h, events', _, rows⟩ := applyRound_settled ids applied
    rw [rows]
    refine forall₂_map_right _ fun row _ => ?_
    by_cases live : row.status = .live
    · rw [if_pos live]
      obtain ⟨stale, eq⟩ := events' (LiveView.load row)
      rw [eq]
      have same := @replay_same pf settings faults events { LiveView.load row with stale := stale }
      exact settledRow_stands live same (replay_status events _)
    · rw [if_neg live]
      exact .refl row
  viewRelations := by
    unfold applyRound at applied
    cases collected : collectRelations pf (changedRelids txs) cache [] with
    | error message => simp only [collected, reduceCtorEq] at applied
    | ok described =>
        simp only [collected] at applied
        split at applied
        · simp only [reduceCtorEq] at applied
        · obtain ⟨written, _, rfl⟩ := ok_of_map applied
          rfl
  shadows := by
    unfold applyRound at applied
    cases collected : collectRelations pf (changedRelids txs) cache [] with
    | error message => simp only [collected, reduceCtorEq] at applied
    | ok described =>
        simp only [collected] at applied
        split at applied
        · simp only [reduceCtorEq] at applied
        · rename_i st blockedAt ran
          obtain ⟨written, _, rfl⟩ := ok_of_map applied
          refine forall₂_trans (fun _ _ _ => .trans) ?_ (shadowStands.applyTransactions ran)
          exact foldl_driftRelation_stands _ described.2 ⟨c.liveViews, c.shadows⟩

theorem Catalog.idleAdvance_stands (c : Catalog) (frontier : Nat) : c.Stands (c.idleAdvance frontier) where
  views := by
    refine forall₂_map_right _ fun row _ => ?_
    split
    · exact ⟨rfl, rfl, rfl, rfl, rfl, .inl rfl⟩
    · exact .refl row
  viewRelations := rfl
  shadows := forall₂_map_right _ fun s _ => shadowStands.advance s frontier

theorem Catalog.markLagged_stands (c : Catalog) : c.Stands c.markLagged where
  views := by
    refine forall₂_map_right _ fun row _ => ?_
    split
    · rename_i live
      exact ⟨rfl, rfl, rfl, rfl, rfl, .inr ⟨live, rfl⟩⟩
    · exact .refl row
  viewRelations := rfl
  shadows := List.forall₂_same.mpr fun s _ => .refl s

theorem Catalog.markLagged_views (c : Catalog) :
    List.Forall₂ (fun row row' => row'.id = row.id ∧ row'.frontier = row.frontier ∧
      ((row' = row ∧ row.status ≠ .live) ∨ (row.status = .live ∧ row'.status = .stale))) c.views c.markLagged.views := by
  refine forall₂_map_right _ fun row _ => ?_
  by_cases live : row.status = .live
  · rw [if_pos live]
    exact ⟨rfl, rfl, .inr ⟨live, rfl⟩⟩
  · rw [if_neg live]
    exact ⟨rfl, rfl, .inl ⟨rfl, live⟩⟩

theorem Catalog.markLagged_noneLive (c : Catalog) : ∀ row ∈ c.markLagged.views, row.status ≠ .live := by
  intro row' member live
  obtain ⟨row, _, _, _, ⟨rfl, other⟩ | ⟨_, stale⟩⟩ := mem_of_forall₂_right c.markLagged_views member
  · exact other live
  · exact absurd (stale.symm.trans live) Status.noConfusion

theorem Catalog.Stands.ids {c c' : Catalog} (stands : c.Stands c') : c'.views.map ViewRow.id = c.views.map ViewRow.id :=
  map_eq_of_forall₂ stands.views fun _ _ row => row.id

theorem Catalog.Stands.row {c c' : Catalog} (stands : c.Stands c') {row' : ViewRow} (member : row' ∈ c'.views) :
    ∃ row ∈ c.views, row.Stands row' := mem_of_forall₂_right stands.views member

theorem Catalog.markRefreshing_views (c : Catalog) (ids : List Nat) :
    List.Forall₂ (fun row row' => row' = row ∨ (row.id ∈ ids ∧ row' = { row with status := .refreshing }))
      c.views (c.markRefreshing ids).views := by
  refine forall₂_map_right _ fun row _ => ?_
  split
  · rename_i asked
    exact .inr ⟨List.contains_iff_mem.mp asked, rfl⟩
  · exact .inl rfl

theorem Catalog.mem_refreshable {c : Catalog} {ids : List Nat} {id : Nat} :
    id ∈ c.refreshable ids ↔ id ∈ ids ∧ ∃ row ∈ c.views, row.id = id ∧ row.status ≠ .initializing ∧ row.status ≠ .refreshing := by
  simp only [Catalog.refreshable, List.mem_map, List.mem_filter, Bool.and_eq_true, List.contains_iff_mem, ne_eq, decide_not,
    Bool.not_eq_true', decide_eq_false_iff_not]
  constructor
  · rintro ⟨row, ⟨member, ⟨asked, built⟩, idle⟩, rfl⟩
    exact ⟨asked, row, member, rfl, built, idle⟩
  · rintro ⟨asked, row, member, rfl, built, idle⟩
    exact ⟨row, ⟨member, ⟨asked, built⟩, idle⟩, rfl⟩

theorem Catalog.forgetView_views (c : Catalog) (id : Nat) : (c.forgetView id).views = c.views.filter fun row => !decide (row.id = id) := by
  unfold Catalog.forgetView
  cases found : c.views.find? (·.id = id) with
  | some v => rfl
  | none =>
      refine (List.filter_eq_self.mpr fun row member => ?_).symm
      have other := List.find?_eq_none.mp found row member
      rw [decide_eq_true_eq] at other
      rw [decide_eq_false other, Bool.not_false]

theorem Catalog.mem_forgetView {c : Catalog} {id : Nat} {row : ViewRow} : row ∈ (c.forgetView id).views ↔ row ∈ c.views ∧ row.id ≠ id := by
  rw [Catalog.forgetView_views, List.mem_filter, Bool.not_eq_true', decide_eq_false_iff_not]

theorem Catalog.forgetView_viewRelations {c : Catalog} {id other : Nat} (apart : other ≠ id) (relid : Nat) :
    (other, relid) ∈ (c.forgetView id).viewRelations ↔ (other, relid) ∈ c.viewRelations := by
  unfold Catalog.forgetView
  cases c.views.find? (·.id = id) with
  | none => exact Iff.rfl
  | some v =>
      rw [List.mem_filter, Bool.not_eq_true', decide_eq_false_iff_not]
      exact ⟨fun both => both.1, fun member => ⟨member, apart⟩⟩

theorem Catalog.forgetView_subset (c : Catalog) (id : Nat) : (c.forgetView id).viewRelations ⊆ c.viewRelations := by
  unfold Catalog.forgetView
  cases c.views.find? (·.id = id) with
  | none => exact fun vr member => member
  | some v => exact List.filter_sublist.subset

theorem Catalog.mem_foldl_forgetView {ids : List Nat} {c : Catalog} {row : ViewRow} :
    row ∈ (ids.foldl Catalog.forgetView c).views ↔ row ∈ c.views ∧ row.id ∉ ids := by
  induction ids generalizing c with
  | nil => exact ⟨fun member => ⟨member, List.not_mem_nil⟩, fun both => both.1⟩
  | cons id ids ih =>
      rw [List.foldl_cons, ih, Catalog.mem_forgetView, List.mem_cons, not_or, and_assoc]

theorem Catalog.foldl_forgetView_viewRelations {ids : List Nat} {other : Nat} (apart : other ∉ ids) (c : Catalog) (relid : Nat) :
    (other, relid) ∈ (ids.foldl Catalog.forgetView c).viewRelations ↔ (other, relid) ∈ c.viewRelations := by
  induction ids generalizing c with
  | nil => exact Iff.rfl
  | cons id ids ih =>
      rw [List.mem_cons, not_or] at apart
      rw [List.foldl_cons, ih apart.2, Catalog.forgetView_viewRelations apart.1]

theorem Catalog.foldl_forgetView_subset (ids : List Nat) (c : Catalog) :
    (ids.foldl Catalog.forgetView c).viewRelations ⊆ c.viewRelations := by
  induction ids generalizing c with
  | nil => exact fun vr member => member
  | cons id ids ih => exact fun vr member => c.forgetView_subset id (ih _ member)

theorem Catalog.foldl_forgetView_ids {ids : List Nat} {c : Catalog} (keyed : Keyed ViewRow.id c.views) :
    Keyed ViewRow.id (ids.foldl Catalog.forgetView c).views := by
  induction ids generalizing c with
  | nil => exact keyed
  | cons id ids ih =>
      apply ih
      rw [Catalog.forgetView_views]
      exact keyed.filter _

theorem Catalog.mem_over {c : Catalog} {relid id : Nat} :
    id ∈ (c.viewRelations.filter fun vr => vr.2 = relid).map Prod.fst ↔ (id, relid) ∈ c.viewRelations := by
  rw [List.mem_map]
  constructor
  · rintro ⟨⟨id, r⟩, member, rfl⟩
    obtain ⟨within, here⟩ := List.mem_filter.mp member
    obtain rfl := of_decide_eq_true here
    exact within
  · intro within
    exact ⟨(id, relid), List.mem_filter.mpr ⟨within, decide_eq_true rfl⟩, rfl⟩

/-- The views a DROP of a base table forgets are those over it. -/
theorem Catalog.mem_dropTable {c : Catalog} {relid : Nat} {row : ViewRow} :
    row ∈ (c.dropTable relid).views ↔ row ∈ c.views ∧ (row.id, relid) ∉ c.viewRelations := by
  rw [← Catalog.mem_over]
  exact Catalog.mem_foldl_forgetView

theorem buildShadows_viewRelations {sight : Sight} {point : Nat} (rebuild : Bool) (spec : ViewSpec) (rels : List BaseRelation)
    (done : List Nat) (c : Catalog) : (buildShadows sight point rebuild spec rels done c).1.viewRelations = c.viewRelations := by
  induction rels generalizing done c with
  | nil => rfl
  | cons rel rels ih =>
      rw [buildShadows]
      split
      · exact ih _ _
      · exact ih _ _

theorem BuildStep.viewRelations {sight : Sight} {point : Nat} {view : Pending} {done done' : List Nat} {c c' : Catalog}
    (step : BuildStep sight point view done c c' done') : c'.viewRelations = c.viewRelations := by
  cases step with
  | refused => rfl
  | built spec valid =>
      have respec : (c.respec view spec).viewRelations = c.viewRelations := by
        unfold Catalog.respec
        split <;> rfl
      have reshadow : ((c.respec view spec).reshadow sight point view spec done).1.viewRelations = (c.respec view spec).viewRelations := by
        unfold Catalog.reshadow
        split
        · exact buildShadows_viewRelations _ _ _ _ _
        · rfl
      exact reshadow.trans respec

theorem buildGroup_viewRelations {sight : Sight} {point : Nat} {group : List Pending} {done : List Nat} {c c' : Catalog}
    (built : buildGroup sight point group done c = .ok c') : c'.viewRelations = c.viewRelations := by
  induction group generalizing done c with
  | nil => exact congrArg _ (Except.ok.inj built).symm
  | cons view group ih =>
      rw [buildGroup] at built
      cases one : build sight point view done c with
      | error message => simp only [one, reduceCtorEq] at built
      | ok r =>
          simp only [one] at built
          exact (ih built).trans (build_step one).viewRelations

theorem Catalog.recordFailure_frame (group : List Pending) (message : String) (c : Catalog) :
    (c.recordFailure group message).viewRelations = c.viewRelations ∧ (c.recordFailure group message).shadows = c.shadows := by
  unfold Catalog.recordFailure
  induction group generalizing c with
  | nil => exact ⟨rfl, rfl⟩
  | cons view group ih => exact ih _

theorem Catalog.populate_viewRelations (c : Catalog) (sight : Sight) (point : Nat) (slot : Option Nat) (group : List Pending) :
    (c.populate sight point slot group).viewRelations = c.viewRelations := by
  have outcome := c.populate_cases sight point slot group
  generalize c.populate sight point slot group = c' at outcome
  cases outcome with
  | built _ ok => exact buildGroup_viewRelations ok
  | failed message => exact (c.recordFailure_frame group message).1

theorem Catalog.loadPending_perm (c : Catalog) :
    c.loadPending.Perm ((c.views.filter fun row => row.status = .initializing ∨ row.status = .refreshing).map ViewRow.pending) :=
  (List.mergeSort_perm _ _).map _

theorem Catalog.mem_loadPending {c : Catalog} {view : Pending} : view ∈ c.loadPending ↔
    ∃ row ∈ c.views, (row.status = .initializing ∨ row.status = .refreshing) ∧ row.pending = view := by
  rw [c.loadPending_perm.mem_iff, List.mem_map]
  simp only [List.mem_filter, decide_eq_true_eq, and_assoc]

theorem Catalog.loadPending_ids {c : Catalog} (ids : Keyed ViewRow.id c.views) : Keyed Pending.id c.loadPending := by
  refine (Keyed.perm · c.loadPending_perm.symm) ?_
  rw [Keyed, List.map_map]
  exact ids.filter _

theorem group_flatten {pending : List Pending} (ids : Keyed Pending.id pending) : (group pending).flatten.Perm pending := by
  rw [group_greedy, ← List.flatMap_def]
  exact (Grouping.greedy_grouped ids.nodup).once

/-- Ids are handed out once, what the worker has loaded is still as it was loaded, unless it
was dropped, and a row that an UPDATE has marked is past its first build. -/
structure Server.Orderly (s : Server) : Prop where
  ids : Keyed ViewRow.id s.catalog.views
  used : ∀ row ∈ s.catalog.views, row.id ∈ s.used
  recorded : ∀ vr ∈ s.catalog.viewRelations, vr.1 ∈ s.used
  groups : Keyed Pending.id s.groups.flatten
  loaded : ∀ view ∈ s.groups.flatten, view.id ∈ s.used ∧ (view.status = .initializing ∨ view.status = .refreshing) ∧
    ∀ row ∈ s.catalog.views, row.id = view.id → row.pending = view
  locked : ∀ call ∈ s.calls, ∀ id, call.holds id = true → id ∈ s.used ∧ ∀ row ∈ s.catalog.views, row.id = id → row.status ≠ .initializing

theorem Server.Orderly.head {s : Server} (orderly : s.Orderly) {group : List Pending} {groups : List (List Pending)}
    (next : s.groups = group :: groups) : (group.map Pending.id).Nodup := by
  have all := orderly.groups
  rw [next, List.flatten_cons, Keyed, List.map_append] at all
  exact (List.nodup_append.mp all).1

theorem Server.Orderly.of_rows {s : Server} (orderly : s.Orderly) {c : Catalog} {publication : List Nat} {calls : List Call}
    {used : List Nat} (fewer : calls ⊆ s.calls) (ids : Keyed ViewRow.id c.views) (grown : s.used ⊆ used)
    (rows : ∀ row' ∈ c.views, (row'.id ∈ used ∧ row'.id ∉ s.used) ∨ ∃ row ∈ s.catalog.views, row'.id = row.id ∧
      (row'.status = .initializing → row.status = .initializing) ∧
      (row.status = .initializing ∨ row.status = .refreshing → row'.pending = row.pending))
    (recorded : ∀ vr ∈ c.viewRelations, vr.1 ∈ used) :
    Server.Orderly { s with catalog := c, publication := publication, calls := calls, used := used } where
  ids := ids
  used := by
    intro row' member
    rcases rows row' member with ⟨new, _⟩ | ⟨row, before, same, _, _⟩
    · exact new
    · exact grown (same ▸ orderly.used row before)
  recorded := recorded
  groups := orderly.groups
  loaded := by
    intro view member
    obtain ⟨known, status, asLoaded⟩ := orderly.loaded view member
    refine ⟨grown known, status, fun row' within same => ?_⟩
    rcases rows row' within with ⟨_, new⟩ | ⟨row, before, id, _, kept⟩
    · exact absurd (same ▸ known) new
    · have pending := asLoaded row before (id.symm.trans same)
      rw [kept (by rw [← pending] at status; exact status), pending]
  locked := by
    intro call member id holds
    obtain ⟨known, past⟩ := orderly.locked call (fewer member) id holds
    refine ⟨grown known, fun row' within same => ?_⟩
    rcases rows row' within with ⟨_, new⟩ | ⟨row, before, own, first, _⟩
    · exact absurd (same ▸ known) new
    · exact fun initializing => past row before (own.symm.trans same) (first initializing)

theorem Call.commit_orderly {s : Server} (orderly : s.Orderly) {call : Call} {id : Nat} {publication : List Nat} {c : Catalog}
    {rest : List Call} (began : s.calls.Perm (call :: rest)) (fresh : id ∉ s.used)
    (writes : call.commit s.names id s.publication s.catalog = some (publication, c)) :
    Server.Orderly { s with catalog := c, publication := publication, calls := rest, used := id :: s.used } := by
  have grown : s.used ⊆ id :: s.used := List.subset_cons_self _ _
  have fewer : rest ⊆ s.calls := fun other member => began.mem_iff.mpr (List.mem_cons_of_mem _ member)
  cases call with
  | create name definition spec added =>
      simp only [Call.commit] at writes
      split at writes
      · cases writes
      · obtain ⟨rfl, rfl⟩ := Prod.mk.inj (Option.some.inj writes)
        refine orderly.of_rows fewer ?_ grown ?_ ?_
        · refine orderly.ids.concat fun old => ?_
          obtain ⟨row, member, same⟩ := List.mem_map.mp old
          have known := orderly.used row member
          rw [same] at known
          exact fresh known
        · intro row' member
          rcases List.mem_append.mp member with before | new
          · exact .inr ⟨row', before, rfl, fun first => first, fun _ => rfl⟩
          · rw [List.mem_singleton.mp new]
            exact .inl ⟨List.mem_cons_self, fresh⟩
        · intro vr member
          rcases List.mem_append.mp member with before | new
          · exact grown (orderly.recorded vr before)
          · obtain ⟨relid, _, rfl⟩ := List.mem_map.mp new
            exact List.mem_cons_self
  | refresh ids added => cases writes
  | marked ids added =>
      simp only [Call.commit] at writes
      split at writes
      · cases writes
      · obtain ⟨rfl, rfl⟩ := Prod.mk.inj (Option.some.inj writes)
        have rows := s.catalog.markRefreshing_views ids
        refine orderly.of_rows fewer ?_ grown ?_ fun vr member => grown (orderly.recorded vr member)
        · rw [Keyed, map_eq_of_forall₂ rows fun row row' step => ?_]
          · exact orderly.ids
          · rcases step with rfl | ⟨_, rfl⟩ <;> rfl
        · intro row' member
          obtain ⟨row, before, step⟩ := mem_of_forall₂_right rows member
          rcases step with rfl | ⟨asked, rfl⟩
          · exact .inr ⟨row', before, rfl, fun first => first, fun _ => rfl⟩
          · refine .inr ⟨row, before, rfl, fun first => absurd first Status.noConfusion, fun pending => ?_⟩
            have past := (orderly.locked _ (began.mem_iff.mpr List.mem_cons_self) row.id (List.contains_iff_mem.mpr asked)).2 row before rfl
            rcases pending with initializing | refreshing
            · exact absurd initializing past
            · rw [ViewRow.pending, ViewRow.pending, refreshing]
  | dropView view pruned =>
      obtain ⟨rfl, rfl⟩ := Prod.mk.inj (Option.some.inj writes)
      refine orderly.of_rows fewer ?_ grown ?_ fun vr member => grown (orderly.recorded vr (s.catalog.forgetView_subset view member))
      · rw [Catalog.forgetView_views]
        exact orderly.ids.filter _
      · exact fun row' member => .inr ⟨row', (Catalog.mem_forgetView.mp member).1, rfl, fun first => first, fun _ => rfl⟩
  | dropTable relid pruned =>
      obtain ⟨rfl, rfl⟩ := Prod.mk.inj (Option.some.inj writes)
      refine orderly.of_rows fewer ?_ grown ?_ fun vr member =>
        grown (orderly.recorded vr (Catalog.foldl_forgetView_subset _ s.catalog member))
      · exact Catalog.foldl_forgetView_ids orderly.ids
      · exact fun row' member => .inr ⟨row', (Catalog.mem_dropTable.mp member).1, rfl, fun first => first, fun _ => rfl⟩
  | dropShadow relid pruned =>
      obtain ⟨rfl, rfl⟩ := Prod.mk.inj (Option.some.inj writes)
      refine orderly.of_rows fewer orderly.ids grown ?_ fun vr member => grown (orderly.recorded vr member)
      exact fun row' member => .inr ⟨row', member, rfl, fun first => first, fun _ => rfl⟩

theorem Server.Orderly.of_stands {s : Server} (orderly : s.Orderly) {c : Catalog} (stands : s.catalog.Stands c) :
    Server.Orderly { s with catalog := c } := by
  refine orderly.of_rows (List.Subset.refl _) ?_ (List.Subset.refl _) ?_ ?_
  · rw [Keyed, stands.ids]
    exact orderly.ids
  · intro row' member
    obtain ⟨row, before, kept⟩ := stands.row member
    refine .inr ⟨row, before, kept.id, fun first => ?_, fun pending => ?_⟩
    · rcases kept.status with same | ⟨_, stale⟩
      · exact same.symm.trans first
      · exact absurd (stale.symm.trans first) Status.noConfusion
    have status : row'.status = row.status := by
      rcases kept.status with same | ⟨live, _⟩
      · exact same
      · rcases pending with initializing | refreshing
        · exact absurd (live.symm.trans initializing) Status.noConfusion
        · exact absurd (live.symm.trans refreshing) Status.noConfusion
    rw [ViewRow.pending, ViewRow.pending, kept.id, kept.name, kept.definition, kept.spec, kept.populated, status]
  · intro vr member
    rw [stands.viewRelations] at member
    exact orderly.recorded vr member

theorem Server.Orderly.built {s : Server} (orderly : s.Orderly) {sight : Sight} {point : Nat} {slot : Option Nat}
    {group : List Pending} {groups : List (List Pending)} (next : s.groups = group :: groups) :
    Server.Orderly { s with catalog := s.catalog.populate sight point slot group, groups := groups } := by
  have rows := @Catalog.populate_views sight point group (orderly.head next) slot s.catalog
  have flat := orderly.groups
  rw [next, List.flatten_cons, Keyed, List.map_append, List.nodup_append] at flat
  constructor
  · rw [Keyed, map_eq_of_forall₂ rows fun _ _ step => step.1.id]
    exact orderly.ids
  · intro row' member
    obtain ⟨row, before, step⟩ := mem_of_forall₂_right rows member
    rw [step.1.id]
    exact orderly.used row before
  · intro vr member
    rw [Catalog.populate_viewRelations] at member
    exact orderly.recorded vr member
  · exact flat.2.1
  · intro view member
    have later : view ∈ s.groups.flatten := by
      rw [next, List.flatten_cons]
      exact List.mem_append_right _ member
    obtain ⟨known, status, asLoaded⟩ := orderly.loaded view later
    refine ⟨known, status, fun row' within same => ?_⟩
    obtain ⟨row, before, step⟩ := mem_of_forall₂_right rows within
    have outside : row.id ∉ group.map Pending.id := by
      intro here
      rw [step.1.id] at same
      exact flat.2.2 row.id here view.id (List.mem_map_of_mem member) same
    rw [step.1.outside outside] at same ⊢
    exact asLoaded row before same
  · intro call member id holds
    obtain ⟨known, past⟩ := orderly.locked call member id holds
    refine ⟨known, fun row' within same => ?_⟩
    obtain ⟨row, before, step⟩ := mem_of_forall₂_right rows within
    by_cases inGroup : row.id ∈ group.map Pending.id
    · rcases step.1.inside inGroup with ⟨_, _, _, _, _, rfl⟩ | ⟨_, rfl⟩
      · exact Status.noConfusion
      · exact Status.noConfusion
    · rw [step.1.outside inGroup] at same ⊢
      exact past row before same

theorem Server.Orderly.of_calls {s : Server} (orderly : s.Orderly) {calls : List Call}
    (kept : ∀ call ∈ calls, ∀ id, call.holds id = true → call ∈ s.calls) : Server.Orderly { s with calls := calls } :=
  ⟨orderly.ids, orderly.used, orderly.recorded, orderly.groups, orderly.loaded, fun call member id holds =>
    orderly.locked call (kept call member id holds) id holds⟩

theorem Server.Orderly.began {s : Server} (orderly : s.Orderly) {call : Call} (free : ∀ id, call.holds id = false) :
    Server.Orderly { s with calls := call :: s.calls } := by
  refine orderly.of_calls fun other member id holds => ?_
  rcases List.mem_cons.mp member with rfl | before
  · exact absurd ((free id).symm.trans holds) Bool.false_ne_true
  · exact before

theorem call_of_map {tables : Except ApiError (List Nat)} {asks : List Nat → Call} {call : Call} (read : tables.map asks = .ok call) :
    ∃ added, call = asks added := by
  cases tables with
  | error message => cases read
  | ok added => exact ⟨added, (Except.ok.inj read).symm⟩

theorem createView_holds {session : Session} {publication : List Nat} {c : Catalog} {name definition : String} {call : Call}
    (read : createView session publication c name definition = .ok call) (id : Nat) : call.holds id = false := by
  unfold createView at read
  split at read
  · cases read
  · split at read
    · cases read
    · split at read
      · cases read
      · split at read
        · cases read
        · split at read
          · cases read
          · split at read
            · cases read
            · obtain ⟨added, rfl⟩ := call_of_map read
              rfl

theorem refresh_holds {session : Session} {publication : List Nat} {c : Catalog} {view : ViewRow} {call : Call}
    (read : refresh session publication c view = .ok call) (id : Nat) : call.holds id = false := by
  unfold refresh at read
  split at read
  · cases read
  · obtain ⟨added, rfl⟩ := call_of_map read
    rfl

/-- The UPDATE of a refresh marks rows that are past their first build. -/
theorem Server.Orderly.updated {s : Server} (orderly : s.Orderly) {ids added : List Nat} {rest : List Call}
    (began : s.calls.Perm (.refresh ids added :: rest)) :
    Server.Orderly { s with calls := .marked (s.catalog.refreshable ids) added :: rest } := by
  refine ⟨orderly.ids, orderly.used, orderly.recorded, orderly.groups, orderly.loaded, fun call member id holds => ?_⟩
  rcases List.mem_cons.mp member with rfl | before
  · obtain ⟨_, row, known, rfl, past, _⟩ := Catalog.mem_refreshable.mp (List.contains_iff_mem.mp holds)
    refine ⟨orderly.used row known, fun row' within same => ?_⟩
    rw [orderly.ids.eq_of_mem within known same]
    exact past
  · exact orderly.locked call (began.mem_iff.mpr (List.mem_cons_of_mem _ before)) id holds

theorem Server.Step.orderly {s s' : Server} {e : Event} (orderly : s.Orderly) (step : s.Step pf settings e s') : s'.Orderly := by
  cases step with
  | renamed => exact ⟨orderly.ids, orderly.used, orderly.recorded, orderly.groups, orderly.loaded, orderly.locked⟩
  | createBegan read => exact orderly.began (createView_holds read)
  | refreshBegan _ read => exact orderly.began (refresh_holds read)
  | updated began => exact orderly.updated began
  | viewDropBegan => exact orderly.began fun _ => rfl
  | tableDropBegan => exact orderly.began fun _ => rfl
  | shadowDropBegan => exact orderly.began fun _ => rfl
  | committed began fresh writes => exact Call.commit_orderly orderly began fresh writes
  | aborted began => exact orderly.of_calls fun other member _ _ => began.mem_iff.mpr (List.mem_cons_of_mem _ member)
  | loaded done =>
      have ids := Catalog.loadPending_ids orderly.ids
      refine ⟨orderly.ids, orderly.used, orderly.recorded, ids.perm (group_flatten ids).symm, fun view member => ?_, orderly.locked⟩
      obtain ⟨row, before, status, rfl⟩ := Catalog.mem_loadPending.mp ((group_flatten ids).mem_iff.mp member)
      refine ⟨orderly.used row before, status, fun row' within same => ?_⟩
      rw [orderly.ids.eq_of_mem within before same]
  | built next => exact orderly.built next
  | restarted =>
      refine ⟨orderly.ids, orderly.used, orderly.recorded, Keyed.nil _, fun view member => ?_, orderly.locked⟩
      exact absurd member List.not_mem_nil
  | applied done ran => exact orderly.of_stands (applyRound_stands orderly.ids ran)
  | idled => exact orderly.of_stands (s.catalog.idleAdvance_stands _)
  | lagged => exact orderly.of_stands s.catalog.markLagged_stands

theorem Server.Starts.orderly {s : Server} (starts : s.Starts) : s.Orderly := by
  constructor
  · rw [starts.views]
    exact Keyed.nil _
  · rw [starts.views]
    exact fun row member => absurd member List.not_mem_nil
  · rw [starts.viewRelations]
    exact fun vr member => absurd member List.not_mem_nil
  · rw [starts.groups]
    exact Keyed.nil _
  · rw [starts.groups]
    exact fun view member => absurd member List.not_mem_nil
  · rw [starts.calls]
    exact fun call member => absurd member List.not_mem_nil

theorem Server.Reachable.orderly {guard : Server → Event → Prop} {s : Server} (reached : s.Reachable pf settings guard) : s.Orderly := by
  induction reached with
  | start starts => exact starts.orderly
  | step _ step _ ih => exact step.orderly ih

end Nabla
