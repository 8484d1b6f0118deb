import Nabla.Sequences

/-! A round, transaction by transaction: the row of a view right after each of them follows the
one before by what the view logs for it. -/
namespace Nabla
open Bags

variable {pf : Platform} {settings : Settings} {faults : Faults} {first : ViewRow}

/-- The views of a round right after each of its transactions, the latest first. -/
def passages (pf : Platform) (settings : Settings) (faults : Faults) (rels : List (Nat × Relation)) :
    List SourceTransaction → RoundState → List LiveView
  | [], _ => []
  | tx :: txs, st =>
    match applyTransaction pf settings faults rels tx st with
    | .error _ => []
    | .ok (st', _) => passages pf settings faults rels txs st' ++ st'.views

/-- Of one view among those of a round. -/
def ofView (id : Nat) (views : List LiveView) : List LiveView := Bags.group (fun v : LiveView => v.row.id) id views

/-- The row of a view right after each transaction of a round, as it is written when the round
ends there. -/
def roundMoments (pf : Platform) (settings : Settings) (faults : Faults) (cache : Nat → Option Relation) (c : Catalog)
    (txs : List SourceTransaction) (id : Nat) : List ViewRow :=
  match roundStart pf cache c txs with
  | .error _ => []
  | .ok (rels, start) =>
    (ofView id (passages pf settings faults rels txs start)).map (LiveView.settledRow settings)

/-- A view in a round that began with a given row. -/
structure LiveView.Underway (first : ViewRow) (v : LiveView) : Prop where
  carries : v.Carries first
  tidy : v.Tidy
  live : v.dead = false → v.row.status = .live ∧ v.failedThisRound = false

theorem LiveView.Kept.settledRow {e : Nat} {v v' : LiveView} (kept : v.Kept e v') : v'.settledRow settings = v.settledRow settings := by
  rw [kept.same]
  rfl

theorem LiveView.Underway.kept {e : Nat} {v v' : LiveView} (underway : v.Underway first) (kept : v.Kept e v') (carries : v'.Carries first) :
    v'.Underway first := by
  refine ⟨carries, kept.sameWork.tidy underway.tidy, ?_⟩
  rw [kept.same]
  exact underway.live

/-- A view that did nothing in a step leaves the row it would have left before. -/
theorem LiveView.SameWork.follows {v v' : LiveView} (work : v.SameWork v') (tidy : v.Tidy)
    (status : v'.row.status = v.row.status ∨ v'.row.status = .stale) : (v.settledRow settings).Follows [] (v'.settledRow settings) := by
  obtain ⟨id, spec, status₀⟩ := @LiveView.settledRow_same settings v
  obtain ⟨id', spec', status'⟩ := @LiveView.settledRow_same settings v'
  obtain ⟨epoch, populated, storage⟩ := @LiveView.settledRow_rest settings v
  obtain ⟨epoch', populated', storage'⟩ := @LiveView.settledRow_rest settings v'
  obtain ⟨lastSeq, frontier, _⟩ := @LiveView.Tidy.settled settings v tidy
  obtain ⟨lastSeq', frontier', _⟩ := @LiveView.Tidy.settled settings v' (work.tidy tidy)
  have deltas : (v'.settledRow settings).deltas = (v.settledRow settings).deltas := by
    have rows : v'.row.deltas = v.row.deltas := by rw [work.row]
    unfold LiveView.settledRow LiveView.logged
    rw [work.absorbed, work.pending, work.lastSeq, rows]
    cases v.absorbed.getLast? with
    | none => exact rows
    | some e => rfl
  refine .of_quiet ?_ ?_ ?_ ?_ ?_ ?_ deltas ?_ ?_
  · rw [id', id, work.row.id]
  · rw [spec', spec, work.row]
  · rw [epoch', epoch, work.row]
  · rw [populated', populated, work.row]
  · rw [status', status₀]
    rcases status with same | stale
    · exact .inl same
    · exact .inr ⟨stale ▸ Status.noConfusion, stale ▸ Status.noConfusion⟩
  · rw [lastSeq', lastSeq, work.lastSeq]
  · rw [frontier', frontier, work.frontier]
  · rw [storage', storage, work.storage]

/-- A view that absorbs a transaction: the row it leaves then follows the one it left before,
as it would in a round of its own. -/
theorem LiveView.Underway.absorb {v : LiveView} (underway : v.Underway first) (alive : v.dead = false) (retain : 1 ≤ settings.retainDeltas)
    {tx : SourceTransaction} (ahead : v.frontier < tx.endLsn) {storage : List Record} {deltas : List Delta} (held : v.row.spec.Held storage)
    (patches : Patches (v.row.spec.shown v.row.storage) (v.row.spec.shownEvents (numberDeltas tx v.lastSeq deltas)) (v.row.spec.shown storage)) :
    (v.settledRow settings).Follows (numberDeltas tx v.lastSeq deltas)
      ((v.absorb storage (numberDeltas tx v.lastSeq deltas) tx.endLsn).settledRow settings) := by
  obtain ⟨live, sound⟩ := underway.live alive
  obtain ⟨_, spec, status⟩ := @LiveView.settledRow_same settings v
  obtain ⟨_, _, stored⟩ := @LiveView.settledRow_rest settings v
  obtain ⟨lastSeq, frontier, _⟩ := @LiveView.Tidy.settled settings v underway.tidy
  have settled : ((v.settle settings).absorb storage (numberDeltas tx v.lastSeq deltas) tx.endLsn).settledRow settings =
      (v.absorb storage (numberDeltas tx v.lastSeq deltas) tx.endLsn).settledRow settings := congrArg LiveView.row
    (@LiveView.Tidy.settle_absorb settings v underway.tidy storage (numberDeltas tx v.lastSeq deltas) tx.endLsn sound)
  have logs : (v.settle settings).Logs :=
    ⟨⟨[], rfl, .nil, fun _ none => absurd none List.not_mem_nil⟩, lastSeq.symm, frontier.le⟩
  have tidy : ((v.settle settings).absorb storage (numberDeltas tx v.lastSeq deltas) tx.endLsn).Tidy :=
    ⟨fun none => absurd none (List.concat_ne_nil _ _), fun e last => Option.some.inj (List.getLast?_concat.symm.trans last)⟩
  have carries : ((v.settle settings).absorb storage (numberDeltas tx v.lastSeq deltas) tx.endLsn).Carries (v.settledRow settings) := by
    refine ⟨rfl, fun _ none => absurd none List.not_mem_nil, ?_, ?_⟩
    · rw [spec]
      exact held
    · rw [spec, stored]
      exact patches
  have follows := @LiveView.Carries.settled settings _ _ carries rfl (status.trans live) (.inl rfl) (logs.absorb tx ahead storage deltas) tidy retain
  rw [← settled]
  exact follows

/-- The row of a view after some transactions, the latest first: each follows the one before by
what the view logs at its position. -/
inductive ViewRow.Passes (row : ViewRow) : List ViewRow → ViewRow → Prop where
  | start : row.Passes [] row
  | next {rows : List ViewRow} {last row' : ViewRow} {new : List LoggedDelta} (passes : row.Passes rows last)
      (follows : last.Follows new row') (here : ∀ d ∈ new, d.lsn = row'.frontier) : row.Passes (row' :: rows) row'

theorem ViewRow.Passes.trans {row mid row' : ViewRow} {rows rows' : List ViewRow} (passes : row.Passes rows mid)
    (later : mid.Passes rows' row') : row.Passes (rows' ++ rows) row' := by
  induction later with
  | start => exact passes
  | next _ follows here ih => exact ih.next follows here

theorem executeView_passes (tabled : first.spec.Tabled) (retain : 1 ≤ settings.retainDeltas) (tx : SourceTransaction) {v : LiveView}
    (underway : v.Underway first) (clean : v.Faithful pf) :
    (executeView pf settings faults tx v).Underway first ∧
      (v.settledRow settings).Passes [(executeView pf settings faults tx v).settledRow settings]
        ((executeView pf settings faults tx v).settledRow settings) := by
  have carries := @LiveView.Carries.execute pf settings faults first tabled v underway.carries tx clean
  have tidy := @executeView_tidy pf settings faults tx v underway.tidy
  have nothing : ∀ {row : ViewRow}, ∀ d ∈ ([] : List LoggedDelta), d.lsn = row.frontier := fun _ none => absurd none List.not_mem_nil
  cases dead : (executeView pf settings faults tx v).dead with
  | true =>
      have work := executeView_sameWork dead
      refine ⟨⟨carries, tidy, fun alive => absurd (alive.symm.trans dead) Bool.false_ne_true⟩, ?_⟩
      exact .next .start (work.follows underway.tidy (executeView_status tx v)) nothing
  | false =>
      by_cases skipped : (v.dead || decide (tx.endLsn ≤ v.frontier)) = true
      · have same : executeView pf settings faults tx v = v := by
          unfold executeView
          rw [if_pos skipped]
        rw [same]
        exact ⟨underway, .next .start (.refl _) nothing⟩
      · unfold executeView at dead carries tidy ⊢
        rw [if_neg skipped] at dead carries tidy ⊢
        cases stale : v.stale with
        | some reason => simp only [stale, LiveView.markStale, reduceCtorEq] at dead
        | none =>
            cases failed : v.failed with
            | some message => simp only [stale, failed, LiveView.recordFailure, reduceCtorEq] at dead
            | none =>
                cases executed : inSubtransaction (faults.executing v.row.id tx.endLsn v.ops)
                    (execute pf v.row.spec v.row.storage v.ops) with
                | error message => simp only [stale, failed, executed, LiveView.recordFailure, reduceCtorEq] at dead
                | ok result =>
                    simp only [Bool.or_eq_true, decide_eq_true_eq, not_or, Nat.not_le, Bool.not_eq_true] at skipped
                    obtain ⟨alive, ahead⟩ := skipped
                    obtain ⟨held, patches⟩ := underway.carries.executed tabled tx clean (inSubtransaction_ok executed)
                    rw [← underway.carries.spec] at held patches
                    have follows := underway.absorb alive retain ahead held patches
                    simp only [stale, failed, executed] at dead carries tidy ⊢
                    refine ⟨⟨carries, tidy, fun _ => underway.live alive⟩, .next .start follows fun d logged => ?_⟩
                    exact (mem_numberDeltas logged).2.2.trans tidy.settled.2.1.symm

/-- Planning keeps what a view leaves when the round ends there. -/
def LiveView.Prepares (first : ViewRow) (e : Nat) (v v' : LiveView) : Prop := v.Kept e v' ∧ (v.Underway first → v'.Underway first)

theorem LiveView.Prepares.trans {e : Nat} {v v' v'' : LiveView} (before : v.Prepares first e v') (after : v'.Prepares first e v'') :
    v.Prepares first e v'' := ⟨before.1.trans after.1, after.2 ∘ before.2⟩

theorem applyChanges_prepares (tabled : first.spec.Tabled) {rels : List (Nat × Relation)} {e position : Nat} {changes : List Change}
    {st st' : RoundState} (applied : applyChanges pf faults rels e position changes st = .ok st') :
    List.Forall₂ (LiveView.Prepares first e) st.views st'.views := by
  refine applyChanges_rule (P := fun st st' => List.Forall₂ (LiveView.Prepares first e) st.views st'.views) ?_ ?_ ?_ applied
  · exact fun st => List.forall₂_same.mpr fun v _ => ⟨.refl e v, id⟩
  · exact fun before after => forall₂_trans (fun _ _ _ left right => left.trans right) before after
  · intro position relid change st st' applied
    obtain ⟨rel, _, step⟩ := applyRelid_ok applied
    have planned : List.Forall₂ (LiveView.Prepares first e) st.views (plannedViews pf faults e position relid rel change st) := by
      refine forall₂_map_right _ fun v _ => ?_
      have kept := planView_kept pf faults e position relid (shadowTable st.shadows) rel change (oldRowRead pf faults e position relid rel change st.shadows) v
      exact ⟨kept, fun underway => underway.kept kept (underway.carries.plan tabled e position relid _ rel change _)⟩
    cases step with
    | unread => exact planned
    | absorbed => exact planned
    | lost =>
        refine forall₂_trans (fun _ _ _ left right => left.trans right) planned (forall₂_map_right _ fun v _ => ?_)
        exact ⟨shadowLost_kept e relid rel _ v, fun underway =>
          underway.kept (shadowLost_kept e relid rel _ v) (underway.carries.lost relid rel _)⟩

theorem ofView_append (id : Nat) (views views' : List LiveView) : ofView id (views ++ views') = ofView id views ++ ofView id views' :=
  List.filter_append _ _

theorem ofView_related {R : LiveView → LiveView → Prop} (sameId : ∀ {v v' : LiveView}, R v v' → v'.row.id = v.row.id) {views views' : List LiveView}
    (related : List.Forall₂ R views views') {id : Nat} {v : LiveView} (only : ofView id views = [v]) : ∃ v', ofView id views' = [v'] ∧ R v v' := by
  have filtered : List.Forall₂ R (ofView id views) (ofView id views') := by
    refine List.rel_filter (fun v v' one => ?_) related
    show decide (v.row.id = id) = true ↔ decide (v'.row.id = id) = true
    rw [sameId one]
  rw [only, List.forall₂_cons_left_iff] at filtered
  obtain ⟨v', rest, one, none, eq⟩ := filtered
  obtain rfl := List.forall₂_nil_left_iff.mp none
  exact ⟨v', eq, one⟩

theorem ofView_map {f : LiveView → LiveView} (sameId : ∀ v, (f v).row.id = v.row.id) (id : Nat) (views : List LiveView) :
    ofView id (views.map f) = (ofView id views).map f := by
  rw [ofView, ofView, Bags.group, Bags.group, List.filter_map]
  congr 1
  refine List.filter_congr fun v _ => ?_
  rw [Function.comp_apply, sameId]

theorem executeView_id (tx : SourceTransaction) (v : LiveView) : (executeView pf settings faults tx v).row.id = v.row.id :=
  (executeView_outcome pf settings faults rfl (LiveView.Kept.refl tx.endLsn v)).same.id

/-- A view in the transactions of a round: right after each it is what it was after the one
before, with what it logged there. -/
theorem applyTransactions_passes (tabled : first.spec.Tabled) (retain : 1 ≤ settings.retainDeltas) {rels : List (Nat × Relation)} {ti : Nat}
    {txs : List SourceTransaction} {st st' : RoundState} {blockedAt : Option Nat}
    (ran : applyTransactions pf settings faults rels ti txs st = .ok (st', blockedAt)) {id : Nat} {v : LiveView} (only : ofView id st.views = [v])
    (underway : v.Underway first) (clean : ∀ v ∈ executions pf settings faults rels txs st, v.row.id = id → v.Faithful pf) :
    ∃ v', ofView id st'.views = [v'] ∧
      (v.settledRow settings).Passes ((ofView id (passages pf settings faults rels txs st)).map (LiveView.settledRow settings)) (v'.settledRow settings) := by
  induction txs generalizing ti st blockedAt v with
  | nil =>
      obtain ⟨rfl, rfl⟩ := Prod.mk.inj (Except.ok.inj ran)
      exact ⟨v, only, .start⟩
  | cons tx txs ih =>
      rw [applyTransactions] at ran
      rw [executions] at clean
      rw [passages]
      cases applied : applyTransaction pf settings faults rels tx st with
      | error message => simp only [applied, reduceCtorEq] at ran
      | ok step =>
          obtain ⟨st₁, blocked⟩ := step
          simp only [applied] at ran ⊢
          obtain ⟨r, rest, same⟩ := ok_of_map ran
          obtain ⟨rfl, _⟩ := Prod.mk.inj same
          unfold applyTransaction at applied
          obtain ⟨planned, changed, same'⟩ := ok_of_map applied
          obtain ⟨rfl, _⟩ := Prod.mk.inj same'
          simp only [changed] at clean
          obtain ⟨v₁, only₁, kept, prepares⟩ := ofView_related (fun prepared => congrArg ViewRow.id prepared.1.row)
            (@applyChanges_prepares pf faults first tabled _ _ _ _ _ _ changed) only
          have within := List.mem_filter.mp (only₁ ▸ List.mem_cons_self : v₁ ∈ ofView id planned.views)
          have faithful := clean v₁ (List.mem_append_left _ within.1) (of_decide_eq_true within.2)
          obtain ⟨underway', passes⟩ := executeView_passes tabled retain tx (prepares underway) faithful
          have only' : ofView id (planned.views.map (executeView pf settings faults tx)) = [executeView pf settings faults tx v₁] := by
            rw [ofView_map (executeView_id tx), only₁]
            rfl
          obtain ⟨v', last, later⟩ := ih rest only' underway' fun v member => clean v (List.mem_append_right _ member)
          refine ⟨v', last, ?_⟩
          rw [ofView_append, only', List.map_append]
          rw [kept.settledRow] at passes
          exact passes.trans later

theorem mem_passages {rels : List (Nat × Relation)} {txs : List SourceTransaction} {st : RoundState} {v : LiveView}
    (member : v ∈ passages pf settings faults rels txs st) : ∃ v₀ ∈ st.views, v.row.id = v₀.row.id := by
  induction txs generalizing st with
  | nil => exact absurd member List.not_mem_nil
  | cons tx txs ih =>
      rw [passages] at member
      cases applied : applyTransaction pf settings faults rels tx st with
      | error message =>
          simp only [applied] at member
          exact absurd member List.not_mem_nil
      | ok step =>
          simp only [applied] at member
          have here : ∀ v' ∈ step.1.views, ∃ v₀ ∈ st.views, v'.row.id = v₀.row.id := by
            intro v' within
            obtain ⟨v₀, before, stepped⟩ := mem_of_forall₂_right (applyTransaction_views applied) within
            exact ⟨v₀, before, stepped.outcome.same.id⟩
          rcases List.mem_append.mp member with later | now
          · obtain ⟨v', within, same⟩ := ih later
            obtain ⟨v₀, before, same'⟩ := here v' within
            exact ⟨v₀, before, same.trans same'⟩
          · exact here v now

theorem roundStart_views {cache : Nat → Option Relation} {c : Catalog} {txs : List SourceTransaction} {rels : List (Nat × Relation)} {start : RoundState}
    (started : roundStart pf cache c txs = .ok (rels, start)) : ∃ drift : LiveView → LiveView,
      (∀ v, ∃ stale, drift v = { v with stale := stale }) ∧ start.views = c.liveViews.map drift := by
  obtain ⟨described, _, same⟩ := ok_of_map started
  obtain ⟨rfl, rfl⟩ := Prod.mk.inj same
  exact ⟨_, fun v => ⟨_, foldl_driftBy _ _ v⟩, foldl_driftRelation_views _ _ _⟩

theorem mem_roundMoments {cache : Nat → Option Relation} {c : Catalog} {txs : List SourceTransaction} {id : Nat} {m : ViewRow}
    (moment : m ∈ roundMoments pf settings faults cache c txs id) : ∃ row ∈ c.views, row.status = .live ∧ row.id = id := by
  rw [roundMoments] at moment
  cases started : roundStart pf cache c txs with
  | error message =>
      rw [started] at moment
      exact absurd moment List.not_mem_nil
  | ok begun =>
      rw [started] at moment
      obtain ⟨v, passed, rfl⟩ := List.mem_map.mp moment
      obtain ⟨passed, own⟩ := mem_group.mp passed
      obtain ⟨v₀, within, same⟩ := mem_passages passed
      obtain ⟨drift, only, views⟩ := roundStart_views started
      rw [views] at within
      obtain ⟨v₁, inLive, rfl⟩ := List.mem_map.mp within
      obtain ⟨row, inCatalog, live, rfl⟩ := Catalog.mem_liveViews inLive
      obtain ⟨stale, eq⟩ := only (LiveView.load row)
      rw [eq] at same
      exact ⟨row, inCatalog, live, same.symm.trans own⟩

theorem applyRound_started {cache : Nat → Option Relation} {c : Catalog} {txs : List SourceTransaction} {result : RoundResult}
    (applied : applyRound pf settings faults cache c txs = .ok result) : ∃ rels start blockedAt st, roundStart pf cache c txs = .ok (rels, start) ∧
      applyTransactions pf settings faults rels 0 txs start = .ok (st, blockedAt) ∧ result.views = st.views := by
  unfold applyRound at applied
  unfold roundStart
  cases collected : collectRelations pf (changedRelids txs) cache [] with
  | error message => simp only [collected, reduceCtorEq] at applied
  | ok described =>
      simp only [collected] at applied
      cases ran : applyTransactions pf settings faults described.2 0 txs (described.2.foldl
          (driftRelation ((txs.getLast?.map SourceTransaction.endLsn).getD 0)) ⟨c.liveViews, c.shadows⟩) with
      | error message => simp only [ran, reduceCtorEq] at applied
      | ok done =>
          simp only [ran] at applied
          obtain ⟨written, _, rfl⟩ := ok_of_map applied
          exact ⟨_, _, _, _, rfl, ran, rfl⟩

/-- What a round makes of the row of a view, it makes of it one transaction after the other. -/
theorem applyRound_passes {cache : Nat → Option Relation} {c : Catalog} {txs : List SourceTransaction} {result : RoundResult}
    (ids : Keyed ViewRow.id c.views) (applied : applyRound pf settings faults cache c txs = .ok result) {row row' : ViewRow} (member : row ∈ c.views)
    (member' : row' ∈ result.catalog.views) (sameRow : row'.id = row.id) (retain : 1 ≤ settings.retainDeltas)
    (tabled : row.status = .live → row.spec.Tabled) (held : row.status = .live → row.spec.Held row.storage)
    (faithful : ∀ v ∈ roundExecutions pf settings faults cache c txs, v.row.id = row.id → v.Faithful pf) :
    row.Passes (roundMoments pf settings faults cache c txs row.id) row' := by
  rcases applyRound_row ids applied member member' sameRow with ⟨other, rfl⟩ | ⟨live, v, within, rfl, same, _⟩
  · have none : roundMoments pf settings faults cache c txs row'.id = [] := by
      refine List.eq_nil_iff_forall_not_mem.mpr fun m moment => ?_
      obtain ⟨row, inCatalog, live, own⟩ := mem_roundMoments moment
      exact other (ids.eq_of_mem inCatalog member own ▸ live)
    rw [none]
    exact .start
  · obtain ⟨rels, start, blockedAt, st, started, ran, views⟩ := applyRound_started applied
    obtain ⟨drift, only, begun⟩ := roundStart_views started
    rw [roundMoments, started]
    rw [roundExecutions, started] at faithful
    dsimp only at faithful ⊢
    obtain ⟨stale, eq⟩ := only (LiveView.load row)
    have loaded : ofView row.id start.views = [{ LiveView.load row with stale := stale }] := by
      have names : start.views.map (fun v : LiveView => v.row.id) = (c.views.filter fun row => decide (row.status = .live)).map ViewRow.id := by
        rw [begun, Catalog.liveViews, List.map_map, List.map_map]
        refine List.map_congr_left fun row₀ _ => ?_
        obtain ⟨stale₀, eq₀⟩ := only (LiveView.load row₀)
        rw [Function.comp_apply, Function.comp_apply, eq₀]
        rfl
      have keyed : Keyed (fun v : LiveView => v.row.id) start.views := by
        rw [Keyed, names]
        exact ids.sublist (List.filter_sublist.map _)
      have within : { LiveView.load row with stale := stale } ∈ start.views := by
        rw [begun, ← eq]
        exact List.mem_map_of_mem (List.mem_map_of_mem (List.mem_filter.mpr ⟨member, decide_eq_true live⟩))
      exact keyed.group_of_mem within
    have underway : LiveView.Underway row { LiveView.load row with stale := stale } :=
      ⟨.load (held live) _, LiveView.load_tidy row _, fun _ => ⟨live, rfl⟩⟩
    obtain ⟨v', last, passes⟩ := applyTransactions_passes (tabled live) retain ran loaded underway faithful
    have one : v ∈ ofView row.id st.views := List.mem_filter.mpr ⟨views ▸ within, decide_eq_true same.id⟩
    rw [last] at one
    obtain rfl := List.mem_singleton.mp one
    exact passes

/-- The rows of a view right after each transaction of the round that a step is. -/
def Server.moments (pf : Platform) (settings : Settings) (s : Server) (id : Nat) : Event → List ViewRow
  | .applied faults cache txs => roundMoments pf settings faults cache s.catalog txs id
  | _ => []

/-- Every logged delta is of a transaction after which the view was seen. -/
def Chronicle.Marked (ch : Chronicle) (moments : List ViewRow) : Prop :=
  ∀ e, ∀ d ∈ (ch.written e).deltas, ∃ m ∈ moments, m.populated = true ∧ m.epoch = e ∧ m.frontier = d.lsn

theorem Chronicle.Marked.later {ch : Chronicle} {moments : List ViewRow} (marked : ch.Marked moments) (more : List ViewRow) : ch.Marked (more ++ moments) := by
  intro e d logged
  obtain ⟨m, moment, known⟩ := marked e d logged
  exact ⟨m, List.mem_append_right _ moment, known⟩

def Chronicle.Laid (ch : Chronicle) : Prop := ∀ e, (ch.written e).Laid

theorem Chronicle.Quiet.marked {ch ch' : Chronicle} (quiet : ch.Quiet ch') {moments : List ViewRow} (marked : ch.Marked moments) : ch'.Marked moments := by
  intro e d logged
  rcases quiet e with same | none
  · exact marked e d (same ▸ logged)
  · rw [none] at logged
    exact absurd logged List.not_mem_nil

theorem Chronicle.Quiet.laid {ch ch' : Chronicle} (quiet : ch.Quiet ch') (laid : ch.Laid) : ch'.Laid := by
  intro e
  rcases quiet e with same | none
  · rw [same]
    exact laid e
  · exact .nil none

theorem Chronicle.mem_log {ch : Chronicle} {new : List LoggedDelta} {e : Nat} {d : LoggedDelta} (logged : d ∈ ((ch.log new).written e).deltas) :
    d ∈ (ch.written e).deltas ∨ e = ch.epoch ∧ d ∈ new := by
  by_cases here : e = ch.epoch
  · subst here
    have written : (ch.log new).written ch.epoch = (ch.written ch.epoch).append new := Function.update_self _ _ _
    rw [written] at logged
    exact (List.mem_append.mp logged).imp_right fun later => ⟨rfl, later⟩
  · have other : (ch.log new).written e = ch.written e := Function.update_of_ne here _ _
    exact .inl (other ▸ logged)

/-- The chronicle of a view goes on transaction by transaction. -/
theorem Chronicle.Current.passes {ch : Chronicle} {past moments : List ViewRow} {row row' : ViewRow} {rows : List ViewRow} (current : ch.Current past row)
    (told : ch.Past past) (marked : ch.Marked moments) (laid : ch.Laid) (passes : row.Passes rows row') :
    ∃ ch', (Relation.ReflTransGen Chronicle.Next ch ch' ∧ ch'.Marked (rows ++ moments) ∧ ch'.Laid) ∧
      ch'.Past (rows ++ past) ∧ ch'.Current (rows ++ past) row' := by
  induction passes with
  | start => exact ⟨ch, ⟨.refl, marked, laid⟩, told, current⟩
  | @next rows last row' new _ follows here ih =>
      obtain ⟨ch₁, ⟨chain, marked₁, laid₁⟩, told₁, current₁⟩ := ih
      obtain ⟨next, told', current'⟩ := current₁.follows told₁ follows
      refine ⟨ch₁.log new, ⟨chain.tail next, fun e d logged => ?_, fun e => ?_⟩, told', current'⟩
      · rcases Chronicle.mem_log logged with before | ⟨rfl, later⟩
        · obtain ⟨m, moment, known⟩ := marked₁ e d before
          exact ⟨m, List.mem_cons_of_mem _ moment, known⟩
        · have live := follows.logs (List.ne_nil_of_mem later)
          refine ⟨row', List.mem_cons_self, ?_, current'.epoch, (here d later).symm⟩
          rw [follows.populated]
          exact current₁.ready.live live
      · by_cases own : e = ch₁.epoch
        · subst own
          exact current'.keeps.laid
        · have other : (ch₁.log new).written e = ch₁.written e := Function.update_of_ne own _ _
          rw [other]
          exact laid₁ e

/-- The chronicle of a view against all its states known: those between the steps of an
installation, and the moments of its rounds. -/
structure Chronicle.Traces (ch : Chronicle) (id : Nat) (s : Server) (all moments : List ViewRow) : Prop where
  records : ch.Records id s all
  known : moments ⊆ all
  marked : ch.Marked moments
  laid : ch.Laid

theorem Server.Starts.traces {id : Nat} {s : Server} (starts : s.Starts) : Chronicle.start.Traces id s [] [] where
  records := starts.records
  known := List.Subset.refl _
  marked := fun _ _ logged => absurd logged List.not_mem_nil
  laid := fun _ => .nil rfl

theorem Server.Step.moments_none {s s' : Server} {e : Event} (step : s.Step pf settings e s') {id : Nat}
    (still : ∀ faults cache txs, e ≠ .applied faults cache txs) : s.moments pf settings id e = [] := by
  cases step with
  | applied done ran => exact absurd rfl (still _ _ _)
  | renamed | createBegan | refreshBegan | updated | viewDropBegan | tableDropBegan | shadowDropBegan | committed | aborted | loaded | built
  | restarted | idled | lagged => rfl

/-- Only a view that is there before a round and after it has moments in it. -/
theorem Server.Step.moments {s s' : Server} {e : Event} (orderly : s.Orderly) (step : s.Step pf settings e s') {id : Nat}
    (gone : s'.rows id = [] ∨ id ∉ s.used) : s.moments pf settings id e = [] := by
  by_cases round : ∃ faults cache txs, e = .applied faults cache txs
  · obtain ⟨faults, cache, txs, rfl⟩ := round
    refine List.eq_nil_iff_forall_not_mem.mpr fun m moment => ?_
    cases step with
    | @applied _ _ _ result done ran =>
        obtain ⟨row, member, _, own⟩ := mem_roundMoments moment
        rcases gone with none | unused
        · obtain ⟨row', member', stands⟩ := mem_of_forall₂ (applyRound_stands orderly.ids ran).views member
          have within : row' ∈ Server.rows { s with catalog := result.catalog } id := Server.mem_rows.mpr ⟨member', stands.id.trans own⟩
          rw [none] at within
          exact List.not_mem_nil within
        · exact unused (own ▸ orderly.used row member)
  · exact step.moments_none fun faults cache txs same => round ⟨faults, cache, txs, same⟩

/-- A step takes the row of a view there is to the row of it after the step, by way of the
moments between. -/
theorem Chronicle.Traces.goes {ch : Chronicle} {id : Nat} {s s' : Server} {e : Event} {all moments : List ViewRow} (traces : ch.Traces id s all moments)
    (retain : 1 ≤ settings.retainDeltas) (step : s.Step pf settings e s') (faithful : s.Faithful pf settings id e) {row' : ViewRow}
    (member' : row' ∈ s'.catalog.views) (own' : row'.id = id) :
    (id ∉ s.used ∧ ∃ name definition spec, row' = .initial id name definition spec) ∨
      ∃ ch', (Relation.ReflTransGen Chronicle.Next ch ch' ∧ ch'.Marked (s.moments pf settings id e ++ moments) ∧ ch'.Laid) ∧
        ch'.Past (row' :: (s.moments pf settings id e ++ all)) ∧ ch'.Current (row' :: (s.moments pf settings id e ++ all)) row' := by
  have orderly := traces.records.orderly
  by_cases round : ∃ faults cache txs, e = .applied faults cache txs
  · obtain ⟨faults, cache, txs, rfl⟩ := round
    cases step with
    | applied done ran =>
        obtain ⟨row, member, stands⟩ := (applyRound_stands orderly.ids ran).row member'
        obtain rfl : row.id = id := stands.id.symm.trans own'
        have current := traces.records.current row member rfl
        have passes := applyRound_passes orderly.ids ran member member' own' retain (fun live => current.ready.tabled (current.ready.live live))
          (fun live => current.ready.held (current.ready.live live)) faithful
        obtain ⟨ch', chain, told', current'⟩ := current.passes traces.records.told traces.marked traces.laid passes
        have after := current'.follows told' (.refl row')
        rw [ch'.log_nil] at after
        exact .inr ⟨ch', chain, after.2⟩
  · have other : ∀ faults cache txs, e ≠ .applied faults cache txs := fun faults cache txs same => round ⟨faults, cache, txs, same⟩
    rw [step.moments_none other]
    rcases step.stays orderly faithful other (fun row member own => (traces.records.current row member own).ready) row' member' own' with
      new | ⟨row, member, own, stays⟩
    · exact .inl new
    · have current := traces.records.current row member own
      cases stays with
      | follows follows =>
          have after := current.follows traces.records.told follows
          rw [ch.log_nil] at after
          exact .inr ⟨ch, ⟨.refl, traces.marked, traces.laid⟩, after.2⟩
      | renewed renewed =>
          obtain ⟨ch', next, quiet, after⟩ := current.renewed traces.records.told renewed
          exact .inr ⟨ch', ⟨.single next, quiet.marked traces.marked, quiet.laid traces.laid⟩, after⟩

theorem Chronicle.Traces.step {ch : Chronicle} {id : Nat} {s s' : Server} {e : Event} {all moments : List ViewRow} (traces : ch.Traces id s all moments)
    (retain : 1 ≤ settings.retainDeltas) (step : s.Step pf settings e s') (faithful : s.Faithful pf settings id e) :
    ∃ ch', Relation.ReflTransGen Chronicle.Next ch ch' ∧
      ch'.Traces id s' (s'.rows id ++ (s.moments pf settings id e ++ all)) (s.moments pf settings id e ++ moments) := by
  obtain ⟨ch', ⟨chain, marked, laid⟩, records⟩ := traces.records.advance step
    ⟨.refl, traces.marked.later (s.moments pf settings id e), traces.laid⟩ (step.moments traces.records.orderly) fun row' member' own' =>
      traces.goes retain step faithful member' own'
  refine ⟨ch', chain, records, ?_, marked, laid⟩
  exact fun m moment => List.mem_append_right _ ((List.mem_append.mp moment).elim (List.mem_append_left _) fun known =>
    List.mem_append_right _ (traces.known known))

end Nabla
