import Nabla.Lib.Window
import Nabla.Slot
import Nabla.Incremental

/-! Exactly-once absorption: what the transactions of a peek make of a view's
frontier, and what the rounds of the worker, crashes included, make of it. -/
namespace Nabla
open Bags

variable {pf : Platform} {settings : Settings} {faults : Faults} {rels : List (Nat × Relation)}

theorem applyRelid_views {e position relid : Nat} {change : Change} {st st' : RoundState}
    (applied : applyRelid pf faults rels e position change relid st = .ok st') :
    List.Forall₂ (LiveView.Kept e) st.views st'.views := by
  obtain ⟨rel, _, step⟩ := applyRelid_ok applied
  have planned := plannedViews_kept pf faults e position relid rel change st
  cases step with
  | unread => exact planned
  | absorbed => exact planned
  | lost =>
      exact forall₂_trans (fun _ _ _ first second => first.trans second) planned
        (forall₂_map_right _ fun v _ => shadowLost_kept e relid rel _ v)

theorem applyChanges_views {e position : Nat} {changes : List Change} {st st' : RoundState}
    (applied : applyChanges pf faults rels e position changes st = .ok st') :
    List.Forall₂ (LiveView.Kept e) st.views st'.views := by
  apply applyChanges_rule (P := fun st st' => List.Forall₂ (LiveView.Kept e) st.views st'.views) _ _ _ applied
  · exact fun st => List.forall₂_same.mpr fun v _ => LiveView.Kept.refl e v
  · exact fun first second => forall₂_trans (fun _ _ _ left right => left.trans right) first second
  · exact applyRelid_views

/-- A view that drops out of the round here and stays live holds the slot back. -/
structure LiveView.Stepped (e : Nat) (blocked : Bool) (v v' : LiveView) : Prop where
  outcome : v.Outcome e v'
  held : v.dead = false → v'.dead = true → v'.row.status = .live → blocked = true

theorem applyTransaction_views {tx : SourceTransaction} {st st' : RoundState} {blocked : Bool}
    (applied : applyTransaction pf settings faults rels tx st = .ok (st', blocked)) :
    List.Forall₂ (LiveView.Stepped tx.endLsn blocked) st.views st'.views := by
  unfold applyTransaction at applied
  cases changed : applyChanges pf faults rels tx.endLsn 0 tx.changes st with
  | error message => simp only [changed, Except.map, reduceCtorEq] at applied
  | ok planned =>
      simp only [changed, Except.map, Except.ok.injEq, Prod.mk.injEq] at applied
      obtain ⟨rfl, rfl⟩ := applied
      rw [List.forall₂_map_right_iff]
      apply forall₂_imp_mem_right (applyChanges_views changed)
      intro v₀ v member kept
      have outcome := executeView_outcome pf settings faults rfl kept
      refine ⟨outcome, fun alive dead live => ?_⟩
      rw [List.any_eq_true]
      refine ⟨(v, executeView pf settings faults tx v), mem_zip_map _ member, ?_⟩
      · have retried : (executeView pf settings faults tx v).failedThisRound = true := by
          cases outcome with
          | skipped _ dead' => exact absurd (alive.symm.trans (dead'.symm.trans dead)) Bool.false_ne_true
          | dropped _ _ _ _ _ _ _ retried => exact retried live
          | absorbed _ _ _ dead' => exact absurd (dead'.symm.trans dead) Bool.false_ne_true
        simp only [mustRetry, kept.dead, alive, Bool.not_false, retried, live, beq_self_eq_true, Bool.and_self]

/-- What the transactions that end at `ends` make of a view that is in the round: it
absorbs those past its frontier up to some point, and holds the slot back there when it
drops out and stays live. -/
structure LiveView.Ran (ti : Nat) (ends : List Nat) (blockedAt : Option Nat) (v v' : LiveView) : Prop where
  same : v.row.Same v'.row
  absorbs : v.dead = false → ∃ n ≤ ends.length,
    v'.absorbed = v.absorbed ++ (ends.take n).filter (v.frontier < ·) ∧
    v'.frontier = ((ends.take n).filter (v.frontier < ·)).getLast?.getD v.frontier ∧
    (v'.dead = false → n = ends.length) ∧
    (v'.dead = true → v'.row.status = .live → ∃ k, blockedAt = some k ∧ k ≤ ti + n)
  dropped : v.dead = true → v'.dead = true ∧ v'.absorbed = v.absorbed ∧ v'.frontier = v.frontier ∧ v'.row = v.row

theorem LiveView.Ran.refl (ti : Nat) (v : LiveView) : v.Ran ti [] none v where
  same := ViewRow.Same.of_eq rfl
  absorbs := by
    intro alive
    refine ⟨0, le_refl _, (List.append_nil _).symm, rfl, fun _ => rfl, fun dead => ?_⟩
    exact absurd (alive.symm.trans dead) Bool.false_ne_true
  dropped := fun dead => ⟨dead, rfl, rfl, rfl⟩

/-- One more transaction at the front. -/
theorem LiveView.Ran.cons {ti e : Nat} {ends : List Nat} {blocked : Bool} {blockedAt : Option Nat} {v v₁ v' : LiveView}
    (step : v.Stepped e blocked v₁) (ran : v₁.Ran (ti + 1) ends blockedAt v') (after : ∀ x ∈ ends, e < x) :
    v.Ran ti (e :: ends) (if blocked then some ti else blockedAt) v' := by
  have later : ∀ {n : Nat}, (∃ k, blockedAt = some k ∧ k ≤ ti + 1 + n) →
      ∃ k, (if blocked then some ti else blockedAt) = some k ∧ k ≤ ti + (n + 1) := by
    rintro n ⟨k, eq, le⟩
    cases blocked with
    | true => exact ⟨ti, rfl, by omega⟩
    | false => exact ⟨k, eq, by omega⟩
  refine ⟨step.outcome.same.trans ran.same, ?_, ?_⟩
  · intro alive
    cases step.outcome with
    | skipped idle dead row frontier absorbed _ _ _ =>
        have reached : ¬ v.frontier < e := Nat.not_lt.mpr (idle.resolve_left (by rw [alive]; exact Bool.false_ne_true))
        obtain ⟨n, le, absorbed', frontier', whole, held⟩ := ran.absorbs (dead.trans alive)
        refine ⟨n + 1, Nat.succ_le_succ le, ?_, ?_, fun alive' => congrArg (· + 1) (whole alive'),
          fun dead' live => later (held dead' live)⟩
        · rw [List.take_succ_cons, List.filter_cons_of_neg (by rwa [decide_eq_true_eq]), absorbed', absorbed, frontier]
        · rw [List.take_succ_cons, List.filter_cons_of_neg (by rwa [decide_eq_true_eq]), frontier', frontier]
    | dropped _ _ dead _ _ frontier absorbed _ =>
        obtain ⟨dead', absorbed', frontier', row⟩ := ran.dropped dead
        refine ⟨0, Nat.zero_le _, ?_, ?_, fun alive' => absurd (alive'.symm.trans dead') Bool.false_ne_true, ?_⟩
        · rw [List.take_zero, List.filter_nil, List.append_nil, absorbed', absorbed]
        · rw [List.take_zero, List.filter_nil, List.getLast?_nil, Option.getD_none, frontier', frontier]
        · intro _ live
          rw [row] at live
          rw [step.held alive dead live]
          exact ⟨ti, rfl, le_refl _⟩
    | absorbed _ behind _ dead _ _ _ _ _ frontier absorbed =>
        obtain ⟨n, le, absorbed', frontier', whole, held⟩ := ran.absorbs dead
        have all : ∀ p, p ≤ e → (ends.take n).filter (p < ·) = ends.take n := by
          intro p le
          rw [List.filter_eq_self]
          intro x member
          rw [decide_eq_true_eq]
          exact le.trans_lt (after x (List.mem_of_mem_take member))
        refine ⟨n + 1, Nat.succ_le_succ le, ?_, ?_, fun alive' => congrArg (· + 1) (whole alive'),
          fun dead' live => later (held dead' live)⟩
        · rw [List.take_succ_cons, List.filter_cons_of_pos (by rwa [decide_eq_true_eq]), absorbed', absorbed, frontier,
            all e (le_refl e), all v.frontier behind.le, List.append_assoc, List.singleton_append]
        · rw [List.take_succ_cons, List.filter_cons_of_pos (by rwa [decide_eq_true_eq]), frontier', frontier,
            all e (le_refl e), all v.frontier behind.le, List.getLast?_cons, Option.getD_some]
  · intro dead
    cases step.outcome with
    | skipped _ dead₁ row frontier absorbed _ _ _ =>
        obtain ⟨dead', absorbed', frontier', row'⟩ := ran.dropped (dead₁.trans dead)
        exact ⟨dead', absorbed'.trans absorbed, frontier'.trans frontier, row'.trans row⟩
    | dropped alive => exact absurd (alive.symm.trans dead) Bool.false_ne_true
    | absorbed alive => exact absurd (alive.symm.trans dead) Bool.false_ne_true

theorem applyTransactions_ran {ti : Nat} {txs : List SourceTransaction} {st st' : RoundState} {blockedAt : Option Nat}
    (ordered : txs.Pairwise fun t u => t.endLsn < u.endLsn)
    (ran : applyTransactions pf settings faults rels ti txs st = .ok (st', blockedAt)) :
    List.Forall₂ (LiveView.Ran ti (txs.map SourceTransaction.endLsn) blockedAt) st.views st'.views := by
  induction txs generalizing ti st blockedAt with
  | nil =>
      obtain ⟨rfl, rfl⟩ := Prod.mk.inj (Except.ok.inj ran)
      exact List.forall₂_same.mpr fun v _ => LiveView.Ran.refl ti v
  | cons tx txs ih =>
      rw [applyTransactions] at ran
      cases first : applyTransaction pf settings faults rels tx st with
      | error message => simp only [first, reduceCtorEq] at ran
      | ok step =>
          obtain ⟨st₁, blocked⟩ := step
          cases rest : applyTransactions pf settings faults rels (ti + 1) txs st₁ with
          | error message => simp only [first, rest, Except.map, reduceCtorEq] at ran
          | ok result =>
              simp only [first, rest, Except.map, Except.ok.injEq, Prod.mk.injEq] at ran
              obtain ⟨rfl, rfl⟩ := ran
              obtain ⟨earlier, ordered'⟩ := List.pairwise_cons.mp ordered
              refine forall₂_trans (fun v v₁ v' step ran => ran.cons step ?_) (applyTransaction_views first)
                (ih ordered' rest)
              intro x member
              obtain ⟨u, within, rfl⟩ := List.mem_map.mp member
              exact earlier u within

/-- A view that gets through the transactions keeps its status; one that drops out does so
before the end of one of them. -/
structure LiveView.Fell (ends : List Nat) (v v' : LiveView) : Prop where
  stays : v'.dead = false → v'.row.status = v.row.status
  falls : v.dead = false → v'.dead = true → ∃ e ∈ ends, v'.frontier < e

theorem LiveView.Fell.cons {e : Nat} {ends : List Nat} {blocked : Bool} {v v₁ v' : LiveView} (step : v.Stepped e blocked v₁)
    (dropped : v₁.dead = true → v'.dead = true ∧ v'.frontier = v₁.frontier) (fell : v₁.Fell ends v') : v.Fell (e :: ends) v' := by
  cases step.outcome with
  | skipped _ dead row frontier =>
      refine ⟨fun alive' => (fell.stays alive').trans (congrArg _ row), fun alive dead' => ?_⟩
      obtain ⟨e', within, low⟩ := fell.falls (dead.trans alive) dead'
      exact ⟨e', List.mem_cons_of_mem _ within, low⟩
  | dropped _ behind dead _ _ frontier =>
      obtain ⟨dead', same⟩ := dropped dead
      refine ⟨fun alive' => absurd (alive'.symm.trans dead') Bool.false_ne_true, fun _ _ => ⟨e, List.mem_cons_self, ?_⟩⟩
      rwa [same, frontier]
  | absorbed _ _ _ dead _ _ _ _ status =>
      refine ⟨fun alive' => (fell.stays alive').trans status, fun _ dead' => ?_⟩
      obtain ⟨e', within, low⟩ := fell.falls dead dead'
      exact ⟨e', List.mem_cons_of_mem _ within, low⟩

theorem applyTransactions_fell {ti : Nat} {txs : List SourceTransaction} {st st' : RoundState} {blockedAt : Option Nat}
    (ordered : txs.Pairwise fun t u => t.endLsn < u.endLsn)
    (ran : applyTransactions pf settings faults rels ti txs st = .ok (st', blockedAt)) :
    List.Forall₂ (LiveView.Fell (txs.map SourceTransaction.endLsn)) st.views st'.views := by
  induction txs generalizing ti st blockedAt with
  | nil =>
      obtain ⟨rfl, rfl⟩ := Prod.mk.inj (Except.ok.inj ran)
      exact List.forall₂_same.mpr fun v _ =>
        ⟨fun _ => rfl, fun alive dead => absurd (alive.symm.trans dead) Bool.false_ne_true⟩
  | cons tx txs ih =>
      rw [applyTransactions] at ran
      cases first : applyTransaction pf settings faults rels tx st with
      | error message => simp only [first, reduceCtorEq] at ran
      | ok step =>
          obtain ⟨st₁, blocked⟩ := step
          cases rest : applyTransactions pf settings faults rels (ti + 1) txs st₁ with
          | error message => simp only [first, rest, Except.map, reduceCtorEq] at ran
          | ok result =>
              simp only [first, rest, Except.map, Except.ok.injEq, Prod.mk.injEq] at ran
              obtain ⟨rfl, rfl⟩ := ran
              have ordered' := (List.pairwise_cons.mp ordered).2
              refine forall₂_trans ?_ (applyTransaction_views first)
                (forall₂_both (ih ordered' rest) (applyTransactions_ran ordered' rest))
              intro v v₁ v' step both
              refine LiveView.Fell.cons step (fun dead => ?_) both.1
              obtain ⟨dead', _, frontier, _⟩ := both.2.dropped dead
              exact ⟨dead', frontier⟩

def RoundResult.absorbed (result : RoundResult) (id : Nat) : List Nat :=
  ((result.views.find? (·.row.id = id)).map LiveView.absorbed).getD []

theorem driftRelation_loaded (roundEnd : Nat) (st : RoundState) (p : Nat × Relation) :
    List.Forall₂ (fun v v' => v' = { v with stale := v'.stale }) st.views (driftRelation roundEnd st p).views := by
  apply forall₂_map_right
  intro v _
  split <;> rfl

theorem foldl_driftRelation_loaded (roundEnd : Nat) (described : List (Nat × Relation)) (st : RoundState) :
    List.Forall₂ (fun v v' => v' = { v with stale := v'.stale }) st.views
      (described.foldl (driftRelation roundEnd) st).views := by
  induction described generalizing st with
  | nil => exact List.forall₂_same.mpr fun _ _ => rfl
  | cons p described ih =>
      refine forall₂_trans (fun v v₁ v' first second => ?_) (driftRelation_loaded roundEnd st p) (ih _)
      rw [second, first]

/-- What a round leaves of a live row: it absorbed the transactions past its frontier,
all of them or those before one that holds the slot back. -/
structure ViewRow.Delivered (txs : List SourceTransaction) (result : RoundResult) (row row' : ViewRow) : Prop where
  live : row.status = .live
  id : row'.id = row.id
  through : ∃ n ≤ txs.length,
    result.absorbed row'.id = ((txs.map SourceTransaction.endLsn).take n).filter (row.frontier < ·) ∧
    row'.frontier = (result.absorbed row'.id).getLast?.getD row.frontier ∧
    (n = txs.length ∨ ∃ k, result.blockedAt = some k ∧ k ≤ n)

structure ViewRow.Went (txs : List SourceTransaction) (result : RoundResult) (row row' : ViewRow) : Prop where
  id : row'.id = row.id
  other : row.status ≠ .live → row' = row ∧ result.absorbed row.id = []
  through : row.status = .live → ∃ n ≤ txs.length,
    result.absorbed row.id = ((txs.map SourceTransaction.endLsn).take n).filter (row.frontier < ·) ∧
    row'.frontier = (result.absorbed row.id).getLast?.getD row.frontier ∧
    (row'.status = .live → n = txs.length ∨ ∃ k, result.blockedAt = some k ∧ k ≤ n)
  fell : row.status = .live → row'.status ≠ .live → ∃ tx ∈ txs, row'.frontier < tx.endLsn

/-- What a committed round makes of a row: a live one goes through the round in memory and
is written back, every other one stays as it is. -/
inductive ViewRow.Handled (settings : Settings) (R : LiveView → LiveView → Prop) (result : RoundResult) (row row' : ViewRow) : Prop
  | live (v v' : LiveView) (status : row.status = .live) (loaded : v = { LiveView.load row with stale := v.stale }) (went : R v v')
      (found : result.views.find? (·.row.id = row.id) = some v') (finished : v'.finish settings = .ok row')
  | other (status : row.status ≠ .live) (same : row' = row) (absent : result.views.find? (·.row.id = row.id) = none)

theorem applyRound_rows {R : LiveView → LiveView → Prop} (sameId : ∀ {v v' : LiveView}, R v v' → v'.row.id = v.row.id)
    {cache : Nat → Option Relation} {c : Catalog} {txs : List SourceTransaction} {result : RoundResult}
    (through : ∀ {cache' : Nat → Option Relation} {rels : List (Nat × Relation)} {start st : RoundState},
      collectRelations pf (changedRelids txs) cache [] = .ok (cache', rels) →
      applyTransactions pf settings faults rels 0 txs start = .ok (st, result.blockedAt) → List.Forall₂ R start.views st.views)
    (ids : Keyed ViewRow.id c.views) (applied : applyRound pf settings faults cache c txs = .ok result) :
    result.catalog.views.map ViewRow.id = c.views.map ViewRow.id ∧
      ∀ row' ∈ result.catalog.views, ∃ row ∈ c.views, row'.id = row.id ∧ row.Handled settings R result row' := by
  unfold applyRound at applied
  cases collected : collectRelations pf (changedRelids txs) cache [] with
  | error message => simp only [collected, reduceCtorEq] at applied
  | ok described =>
      obtain ⟨cache', rels⟩ := described
      simp only [collected] at applied
      have drifted := foldl_driftRelation_loaded ((txs.getLast?.map SourceTransaction.endLsn).getD 0) rels
        ⟨c.liveViews, c.shadows⟩
      generalize rels.foldl (driftRelation ((txs.getLast?.map SourceTransaction.endLsn).getD 0))
        ⟨c.liveViews, c.shadows⟩ = start at applied drifted
      cases ran : applyTransactions pf settings faults rels 0 txs start with
      | error message => simp only [ran, reduceCtorEq] at applied
      | ok done =>
          obtain ⟨st, blockedAt⟩ := done
          simp only [ran] at applied
          obtain ⟨written, finishing, rfl⟩ := ok_of_map applied
          have went := through collected ran
          have finished := finishViews_iff.mp finishing
          have loaded : List.Forall₂ (fun v v' => v'.row.id = v.row.id) c.liveViews st.views :=
            forall₂_trans (fun v v₁ v' first second => by rw [sameId second, first]) drifted went
          have writtenIds := Catalog.written_ids loaded (finished.imp fun _ _ => LiveView.finish_ok)
          have liveIds : st.views.map (fun v => v.row.id) = (c.views.filter (·.status = .live)).map ViewRow.id := by
            rw [map_eq_of_forall₂ loaded fun _ _ same => same, Catalog.liveViews, List.map_map]
            rfl
          have keyed : Keyed (·.row.id) st.views := by
            rw [Keyed, liveIds]
            exact List.Nodup.sublist (List.filter_sublist.map _) ids
          refine ⟨c.writeBack_ids _ _, fun row' member => ?_⟩
          rcases Catalog.mem_writeBack member with inWritten | ⟨before, absent⟩
          · obtain ⟨v', inRound, done⟩ := mem_of_forall₂_right finished inWritten
            obtain ⟨v, inStart, step⟩ := mem_of_forall₂_right went inRound
            obtain ⟨v₀, inLive, eq⟩ := mem_of_forall₂_right drifted inStart
            obtain ⟨row, inCatalog, live, rfl⟩ := Catalog.mem_liveViews inLive
            have rowId : v'.row.id = row.id := by
              rw [sameId step, eq]
              rfl
            refine ⟨row, inCatalog, (LiveView.finish_ok done).id.trans rowId, .live v v' live eq step ?_ done⟩
            rw [← rowId]
            exact keyed.find_of_mem inRound
          · rw [writtenIds] at absent
            have other : row'.status ≠ .live := by
              intro live
              refine absent (List.mem_map_of_mem ?_)
              rw [List.mem_filter, decide_eq_true_eq]
              exact ⟨before, live⟩
            refine ⟨row', before, rfl, .other other rfl ?_⟩
            rw [List.find?_eq_none]
            intro v within eq
            have listed := List.mem_map_of_mem (f := fun v : LiveView => v.row.id) within
            rw [liveIds] at listed
            obtain ⟨row, isLive, same⟩ := List.mem_map.mp listed
            rw [List.mem_filter, decide_eq_true_eq] at isLive
            rw [ids.eq_of_mem isLive.1 before (same.trans (of_decide_eq_true eq))] at isLive
            exact other isLive.2

theorem applyRound_went {cache : Nat → Option Relation} {c : Catalog} {txs : List SourceTransaction}
    {result : RoundResult} (ids : Keyed ViewRow.id c.views)
    (ordered : txs.Pairwise fun t u => t.endLsn < u.endLsn)
    (applied : applyRound pf settings faults cache c txs = .ok result) :
    result.catalog.views.map ViewRow.id = c.views.map ViewRow.id ∧
      ∀ row' ∈ result.catalog.views, ∃ row ∈ c.views, row.Went txs result row' := by
  have through : ∀ {cache' : Nat → Option Relation} {rels : List (Nat × Relation)} {start st : RoundState},
      collectRelations pf (changedRelids txs) cache [] = .ok (cache', rels) →
      applyTransactions pf settings faults rels 0 txs start = .ok (st, result.blockedAt) →
      List.Forall₂ (fun v v' => v.Ran 0 (txs.map SourceTransaction.endLsn) result.blockedAt v' ∧
        v.Fell (txs.map SourceTransaction.endLsn) v') start.views st.views := fun _ ran =>
    forall₂_both (applyTransactions_ran ordered ran) (applyTransactions_fell ordered ran)
  obtain ⟨same, rows⟩ := applyRound_rows (fun step => step.1.same.id) through ids applied
  refine ⟨same, fun row' member => ?_⟩
  obtain ⟨row, inCatalog, rowId, handled⟩ := rows row' member
  refine ⟨row, inCatalog, ?_⟩
  cases handled with
  | other status same absent =>
      refine ⟨rowId, fun _ => ⟨same, ?_⟩, fun live => absurd live status, fun live => absurd live status⟩
      rw [RoundResult.absorbed, absent]
      rfl
  | live v v' status loaded went found finished =>
      obtain ⟨ran, fell⟩ := went
      have done := LiveView.finish_ok finished
      have alive : v.dead = false := by rw [loaded]; rfl
      have wasLive : v.row.status = .live := by rw [loaded]; exact status
      have frontier : v.frontier = row.frontier := by rw [loaded]; rfl
      have none : v.absorbed = [] := by rw [loaded]; rfl
      have rowFrontier : v'.row.frontier = row.frontier := by rw [ran.same.frontier, loaded]; rfl
      obtain ⟨n, le, absorbed, reached, whole, held⟩ := ran.absorbs alive
      rw [none, List.nil_append, frontier] at absorbed
      refine ⟨rowId, fun other => absurd status other, fun _ => ⟨n, ?_, ?_, ?_, ?_⟩, ?_⟩
      · rwa [List.length_map] at le
      · rw [RoundResult.absorbed, found, Option.map_some, Option.getD_some, absorbed]
      · rw [RoundResult.absorbed, found, Option.map_some, Option.getD_some, done.frontier, rowFrontier]
      · intro live
        cases dead : v'.dead with
        | false =>
            left
            rw [whole dead, List.length_map]
        | true =>
            right
            obtain ⟨k, blocked, le⟩ := held dead (done.status ▸ live)
            exact ⟨k, blocked, le.trans_eq (Nat.zero_add n)⟩
      · intro _ left
        have dead : v'.dead = true := by
          rw [← Bool.not_eq_false]
          exact fun alive' => left (done.status.trans ((fell.stays alive').trans wasLive))
        obtain ⟨e, within, low⟩ := fell.falls alive dead
        obtain ⟨tx, inTxs, rfl⟩ := List.mem_map.mp within
        refine ⟨tx, inTxs, ?_⟩
        rw [done.frontier, rowFrontier, absorbed]
        rw [reached, frontier] at low
        exact low

theorem applyRound_delivered {cache : Nat → Option Relation} {c : Catalog} {txs : List SourceTransaction}
    {result : RoundResult} (ids : Keyed ViewRow.id c.views)
    (ordered : txs.Pairwise fun t u => t.endLsn < u.endLsn)
    (applied : applyRound pf settings faults cache c txs = .ok result) :
    result.catalog.views.map ViewRow.id = c.views.map ViewRow.id ∧
      ∀ row' ∈ result.catalog.views, row'.status = .live → ∃ row ∈ c.views, row.Delivered txs result row' := by
  obtain ⟨same, went⟩ := applyRound_went ids ordered applied
  refine ⟨same, fun row' member live => ?_⟩
  obtain ⟨row, inCatalog, went⟩ := went row' member
  have wasLive : row.status = .live := by
    by_contra other
    exact other ((went.other other).1 ▸ live)
  obtain ⟨n, le, absorbed, frontier, stopped⟩ := went.through wasLive
  exact ⟨row, inCatalog, wasLive, went.id, n, le, went.id ▸ absorbed, went.id ▸ frontier, stopped live⟩

/-- The peek returns the published transactions after the confirmed position up to a
cut between two of them, and all of those up to the target when it was drained. -/
def Peek.Reads (stream : List SourceTransaction) (confirmed : Nat) (peek : Peek) : Prop :=
  ∃ cut, peek.transactions = stream.filter (fun tx => decide (confirmed < tx.endLsn) && decide (tx.endLsn ≤ cut)) ∧
    (peek.drained = true → peek.target ≤ cut)

theorem ends_filter (stream : List SourceTransaction) (a b : Nat) :
    (stream.filter fun tx => decide (a < tx.endLsn) && decide (tx.endLsn ≤ b)).map SourceTransaction.endLsn =
      window (stream.map SourceTransaction.endLsn) a b := by
  rw [window, List.filter_map]
  rfl

/-- The states of a round that commits `result`. -/
inductive RoundStates (result : RoundResult) (peek : Peek) (confirmed : Nat) (last : SourceTransaction) :
    Durable → Prop where
  | committed : RoundStates result peek confirmed last ⟨result.catalog, some confirmed⟩
  | held {k : Nat} {tx : SourceTransaction} (blocked : result.blockedAt = some (k + 1))
      (before : peek.transactions[k]? = some tx) :
      RoundStates result peek confirmed last ⟨result.catalog, some (max tx.endLsn confirmed)⟩
  | advanced (free : result.blockedAt = none) :
      RoundStates result peek confirmed last ⟨result.catalog, some (max (max confirmed last.endLsn) confirmed)⟩
  | idle {d : Durable} (free : result.blockedAt = none)
      (state : d ∈ Durable.idle ⟨result.catalog, some (max (max confirmed last.endLsn) confirmed)⟩ peek
        (max confirmed last.endLsn)) :
      RoundStates result peek confirmed last d

theorem mem_runRound {cache : Nat → Option Relation} {peek : Peek} {c : Catalog} {confirmed : Nat} {d' : Durable}
    (lag : peek.lag ≤ settings.maxSlotLagBytes) (state : d' ∈ runRound pf settings faults cache peek ⟨c, some confirmed⟩) :
    (peek.transactions = [] ∧ d' ∈ Durable.idle ⟨c, some confirmed⟩ peek confirmed) ∨
    ∃ last result, peek.transactions.getLast? = some last ∧
      applyRound pf settings faults cache c peek.transactions = .ok result ∧
      RoundStates result peek confirmed last d' := by
  simp only [runRound, if_neg (not_lt.mpr lag)] at state
  by_cases quiet : peek.quiet = true
  · rw [if_pos quiet] at state
    exact absurd state List.not_mem_nil
  rw [if_neg quiet] at state
  cases final : peek.transactions.getLast? with
  | none =>
      rw [final] at state
      exact Or.inl ⟨List.getLast?_eq_none_iff.mp final, state⟩
  | some last =>
      simp only [final] at state
      right
      cases applied : applyRound pf settings faults cache c peek.transactions with
      | error message =>
          simp only [applied] at state
          exact absurd state List.not_mem_nil
      | ok result =>
          simp only [applied] at state
          refine ⟨last, result, rfl, rfl, ?_⟩
          cases blocked : result.blockedAt with
          | none =>
              simp only [blocked, List.mem_cons] at state
              rcases state with rfl | rfl | state
              · exact .committed
              · exact .advanced blocked
              · exact .idle blocked state
          | some k =>
              cases k with
              | zero =>
                  simp only [blocked, List.mem_singleton] at state
                  subst state
                  exact .committed
              | succ k =>
                  simp only [blocked, List.mem_cons, Option.mem_toList, Option.map_eq_some_iff] at state
                  rcases state with rfl | ⟨tx, before, rfl⟩
                  · exact .committed
                  · exact .held blocked before

/-- What a view absorbed since it was populated at `since`. -/
structure Absorption where
  since : Nat
  ends : List Nat

/-- The view absorbed every transaction after its population point up to its frontier,
once and in commit order, and the slot stands behind the first one it has not. -/
structure ViewRow.ExactlyOnce (ends : List Nat) (a : Absorption) (confirmed : Nat) (row : ViewRow) : Prop where
  populated : a.since ≤ row.frontier
  absorbed : a.ends = window ends a.since row.frontier
  safe : ∀ x ∈ ends, x ≤ confirmed → x ≤ row.frontier

variable {ends : List Nat} {a : Absorption} {confirmed : Nat}

theorem ViewRow.ExactlyOnce.slot {row : ViewRow} (once : row.ExactlyOnce ends a confirmed) {moved : Nat}
    (safe : ∀ x ∈ ends, x ≤ moved → x ≤ row.frontier) : row.ExactlyOnce ends a moved :=
  ⟨once.populated, once.absorbed, safe⟩

theorem ViewRow.Delivered.exactlyOnce {txs : List SourceTransaction} {result : RoundResult} {row row' : ViewRow}
    (delivered : row.Delivered txs result row') (ordered : ends.Pairwise (· < ·)) {cut : Nat}
    (peeked : txs.map SourceTransaction.endLsn = window ends confirmed cut) (once : row.ExactlyOnce ends a confirmed) :
    row'.ExactlyOnce ends ⟨a.since, a.ends ++ result.absorbed row'.id⟩ confirmed ∧
    ∃ n, (∀ x ∈ (window ends confirmed cut).take n, x ≤ row'.frontier) ∧
      (n = (window ends confirmed cut).length ∨ ∃ k, result.blockedAt = some k ∧ k ≤ n) := by
  obtain ⟨n, _, fresh, frontier, stopped⟩ := delivered.through
  rw [peeked] at fresh
  obtain ⟨onward, read, within⟩ := window_resume ordered once.safe cut n fresh frontier
  refine ⟨⟨once.populated.trans onward, ?_, fun x member low => (once.safe x member low).trans onward⟩, n, within, ?_⟩
  · show a.ends ++ result.absorbed row'.id = window ends a.since row'.frontier
    rw [read, once.absorbed, window_append ordered once.populated onward]
  · rwa [← peeked, List.length_map]

theorem idle_exactlyOnce {c : Catalog} {d : Durable} {peek : Peek} {lastEnd : Nat} {ledger : Nat → Absorption}
    (behind : confirmed ≤ lastEnd) (state : d ∈ Durable.idle ⟨c, some confirmed⟩ peek lastEnd)
    (once : ∀ row ∈ c.views, row.status = .live → row.ExactlyOnce ends (ledger row.id) confirmed)
    (caught : ∀ row ∈ c.views, row.status = .live →
      ∀ x ∈ ends, peek.drained = true → x ≤ max peek.target lastEnd → x ≤ row.frontier) :
    ∃ moved, d.slot = some moved ∧ d.catalog.views.map ViewRow.id = c.views.map ViewRow.id ∧
      ∀ row ∈ d.catalog.views, row.status = .live → row.ExactlyOnce ends (ledger row.id) moved := by
  unfold Durable.idle at state
  by_cases drained : peek.drained = true
  · rw [if_pos drained] at state
    simp only [List.mem_cons, List.not_mem_nil, or_false] at state
    have reached : max (max peek.target lastEnd) confirmed = max peek.target lastEnd :=
      max_eq_left (behind.trans (le_max_right _ _))
    have settled : ∀ row ∈ c.views, row.status = .live →
        row.ExactlyOnce ends (ledger row.id) (max peek.target lastEnd) := fun row member live =>
      (once row member live).slot fun x inEnds low => caught row member live x inEnds drained low
    refine ⟨max peek.target lastEnd, ?_⟩
    rcases state with rfl | rfl
    · exact ⟨congrArg some reached, rfl, settled⟩
    · refine ⟨congrArg some reached, c.idleAdvance_ids _, ?_⟩
      intro row' member live
      obtain ⟨row, inViews, ⟨rfl, _⟩ | ⟨rfl, wasLive, low⟩⟩ := Catalog.idleAdvance_row member
      · exact settled row' inViews live
      · have done := settled row inViews wasLive
        refine ⟨done.populated.trans low.le, done.absorbed.trans (window_congr ?_), fun x _ le => le⟩
        intro x inEnds
        exact ⟨fun inside => ⟨inside.1, inside.2.trans low.le⟩,
          fun inside => ⟨inside.1, done.safe x inEnds inside.2⟩⟩
  · rw [if_neg drained] at state
    exact absurd state List.not_mem_nil

def absorbedBy (pf : Platform) (settings : Settings) (faults : Faults) (cache : Nat → Option Relation) (c : Catalog)
    (txs : List SourceTransaction) (id : Nat) : List Nat :=
  if txs = [] then []
  else ((applyRound pf settings faults cache c txs).toOption.map (·.absorbed id)).getD []

/-- The durable states of the worker over a stream of source transactions, with what
each view absorbed: `others` is what other sessions and the populating worker do to
the views (a view becomes live only at a point the slot has not passed), `round` a
round or the part of one before a crash. -/
inductive Delivers (pf : Platform) (stream : List SourceTransaction) : Durable → (Nat → Absorption) → Prop where
  | start {c : Catalog} {confirmed : Nat} {ledger : Nat → Absorption} (ids : Keyed ViewRow.id c.views)
      (none : ∀ row ∈ c.views, row.status ≠ .live) : Delivers pf stream ⟨c, some confirmed⟩ ledger
  | others {d : Durable} {c : Catalog} {ledger ledger' : Nat → Absorption} (run : Delivers pf stream d ledger)
      (ids : Keyed ViewRow.id c.views)
      (views : ∀ row' ∈ c.views, row'.status = .live →
        (∃ row ∈ d.catalog.views, row.status = .live ∧ row.id = row'.id ∧ row.frontier = row'.frontier ∧
          ledger' row'.id = ledger row'.id) ∨
        (ledger' row'.id = ⟨row'.frontier, []⟩ ∧ ∀ confirmed, d.slot = some confirmed → confirmed ≤ row'.frontier)) :
      Delivers pf stream { d with catalog := c } ledger'
  | round {d d' : Durable} {settings : Settings} {faults : Faults} {cache : Nat → Option Relation} {peek : Peek}
      {confirmed : Nat} {ledger : Nat → Absorption} (run : Delivers pf stream d ledger)
      (slot : d.slot = some confirmed) (lag : peek.lag ≤ settings.maxSlotLagBytes) (reads : peek.Reads stream confirmed)
      (state : d' ∈ runRound pf settings faults cache peek d) :
      Delivers pf stream d' fun id =>
        ⟨(ledger id).since, (ledger id).ends ++ absorbedBy pf settings faults cache d.catalog peek.transactions id⟩

structure Durable.ExactlyOnce (ends : List Nat) (ledger : Nat → Absorption) (confirmed : Nat) (d : Durable) : Prop where
  slot : d.slot = some confirmed
  ids : Keyed ViewRow.id d.catalog.views
  views : ∀ row ∈ d.catalog.views, row.status = .live → row.ExactlyOnce ends (ledger row.id) confirmed

theorem absorbedBy_ok {cache : Nat → Option Relation} {c : Catalog} {txs : List SourceTransaction} {result : RoundResult}
    (some : txs ≠ []) (applied : applyRound pf settings faults cache c txs = .ok result) (id : Nat) :
    absorbedBy pf settings faults cache c txs id = result.absorbed id := by
  rw [absorbedBy, if_neg some, applied]
  rfl

theorem RoundStates.exactlyOnce {result : RoundResult} {peek : Peek}
    {last : SourceTransaction} {c : Catalog} {d : Durable} {ledger : Nat → Absorption} {cut : Nat} (peeked : peek.transactions.map SourceTransaction.endLsn = window ends confirmed cut)
    (all : peek.drained = true → peek.target ≤ cut) (final : peek.transactions.getLast? = some last)
    (ids : result.catalog.views.map ViewRow.id = c.views.map ViewRow.id) (keyed : Keyed ViewRow.id c.views)
    (step : ∀ row' ∈ result.catalog.views, row'.status = .live →
      row'.ExactlyOnce ends (ledger row'.id) confirmed ∧
      ∃ n, (∀ x ∈ (window ends confirmed cut).take n, x ≤ row'.frontier) ∧
        (n = (window ends confirmed cut).length ∨ ∃ k, result.blockedAt = some k ∧ k ≤ n))
    (states : RoundStates result peek confirmed last d) : ∃ moved, d.ExactlyOnce ends ledger moved := by
  have keyed' : Keyed ViewRow.id result.catalog.views := by rw [Keyed, ids]; exact keyed
  have once : ∀ row' ∈ result.catalog.views, row'.status = .live → row'.ExactlyOnce ends (ledger row'.id) confirmed :=
    fun row' member live => (step row' member live).1
  -- when nothing is held back every view is past the whole peek
  have whole : result.blockedAt = none → ∀ row' ∈ result.catalog.views, row'.status = .live →
      ∀ x ∈ window ends confirmed cut, x ≤ row'.frontier := by
    intro free row' member live x inWindow
    obtain ⟨_, n, within, stopped⟩ := step row' member live
    rcases stopped with rfl | ⟨k, blocked, _⟩
    · rw [List.take_length] at within
      exact within x inWindow
    · exact absurd (blocked.symm.trans free) (Option.some_ne_none k)
  have lastIn : last.endLsn ∈ window ends confirmed cut :=
    peeked ▸ List.mem_map_of_mem (List.mem_of_getLast? final)
  have upToLast : result.blockedAt = none → ∀ row' ∈ result.catalog.views, row'.status = .live →
      ∀ x ∈ ends, x ≤ max confirmed last.endLsn → x ≤ row'.frontier := by
    intro free row' member live x inEnds low
    by_cases old : x ≤ confirmed
    · exact (once row' member live).safe x inEnds old
    · have upTo : x ≤ last.endLsn := (le_max_iff.mp low).resolve_left old
      exact whole free row' member live x
        (mem_window.mpr ⟨inEnds, not_le.mp old, upTo.trans (mem_window.mp lastIn).2.2⟩)
  cases states with
  | committed => exact ⟨confirmed, rfl, keyed', once⟩
  | @held k tx blocked before =>
      refine ⟨max tx.endLsn confirmed, rfl, keyed', fun row' member live => ?_⟩
      obtain ⟨done, n, within, stopped⟩ := step row' member live
      refine done.slot fun x inEnds low => ?_
      by_cases old : x ≤ confirmed
      · exact done.safe x inEnds old
      have upTo : x ≤ tx.endLsn := (le_max_iff.mp low).resolve_right old
      have at_k : (window ends confirmed cut)[k]? = some tx.endLsn := by
        rw [← peeked, List.getElem?_map, before, Option.map_some]
      have reached : k < n := by
        rcases stopped with rfl | ⟨j, same, le⟩
        · exact (List.getElem?_eq_some_iff.mp at_k).1
        · rw [blocked, Option.some.injEq] at same
          omega
      refine upTo.trans (within tx.endLsn (List.mem_of_getElem? (i := k) ?_))
      rw [List.getElem?_take_of_lt reached, at_k]
  | advanced free =>
      refine ⟨_, rfl, keyed', fun row' member live => (once row' member live).slot fun x inEnds low => ?_⟩
      exact upToLast free row' member live x inEnds (low.trans (max_le (le_refl _) (le_max_left _ _)))
  | idle free state =>
      have moved : max (max confirmed last.endLsn) confirmed = max confirmed last.endLsn := max_eq_left (le_max_left _ _)
      rw [moved] at state
      have caught : ∀ row' ∈ result.catalog.views, row'.status = .live → ∀ x ∈ ends, peek.drained = true →
          x ≤ max peek.target (max confirmed last.endLsn) → x ≤ row'.frontier := by
        intro row' member live x inEnds drained low
        by_cases old : x ≤ max confirmed last.endLsn
        · exact upToLast free row' member live x inEnds old
        · have upTo : x ≤ peek.target := (le_max_iff.mp low).resolve_right old
          refine whole free row' member live x (mem_window.mpr ⟨inEnds, ?_, upTo.trans (all drained)⟩)
          exact (le_max_left _ _).trans_lt (not_le.mp old)
      obtain ⟨reached, slot, ids', views⟩ := idle_exactlyOnce (le_refl _) state
        (fun row' member live => (once row' member live).slot (upToLast free row' member live)) caught
      exact ⟨reached, slot, by rw [Keyed, ids']; exact keyed', views⟩

section Round

variable {stream : List SourceTransaction} {ledger : Nat → Absorption} {cache : Nat → Option Relation} {peek : Peek}

theorem Durable.ExactlyOnce.committed {c : Catalog} {d' : Durable} {last : SourceTransaction} {result : RoundResult}
    (ordered : stream.Pairwise fun t u => t.endLsn < u.endLsn)
    (once : Durable.ExactlyOnce (stream.map SourceTransaction.endLsn) ledger confirmed ⟨c, some confirmed⟩)
    (reads : peek.Reads stream confirmed) (final : peek.transactions.getLast? = some last)
    (applied : applyRound pf settings faults cache c peek.transactions = .ok result)
    (states : RoundStates result peek confirmed last d') :
    ∃ moved, d'.ExactlyOnce (stream.map SourceTransaction.endLsn) (fun id =>
      ⟨(ledger id).since, (ledger id).ends ++ absorbedBy pf settings faults cache c peek.transactions id⟩) moved := by
  obtain ⟨cut, peeked, all⟩ := reads
  have increasing : (stream.map SourceTransaction.endLsn).Pairwise (· < ·) := List.pairwise_map.mpr ordered
  have sorted : peek.transactions.Pairwise fun t u => t.endLsn < u.endLsn := peeked ▸ ordered.filter _
  have ends : peek.transactions.map SourceTransaction.endLsn =
      window (stream.map SourceTransaction.endLsn) confirmed cut := by rw [peeked, ends_filter]
  have some : peek.transactions ≠ [] := fun empty => by rw [empty] at final; cases final
  obtain ⟨ids, delivered⟩ := applyRound_delivered once.ids sorted applied
  refine states.exactlyOnce ends all final ids once.ids ?_
  intro row' member live
  obtain ⟨row, inViews, delivered⟩ := delivered row' member live
  have step := delivered.exactlyOnce increasing ends (once.views row inViews delivered.live)
  simp only [absorbedBy_ok some applied]
  rw [delivered.id] at step ⊢
  exact step

/-- Nothing to decode: only the idle advance. -/
theorem Durable.ExactlyOnce.quiet {c : Catalog} {d' : Durable}
    (once : Durable.ExactlyOnce (stream.map SourceTransaction.endLsn) ledger confirmed ⟨c, some confirmed⟩)
    (reads : peek.Reads stream confirmed) (empty : peek.transactions = [])
    (state : d' ∈ Durable.idle ⟨c, some confirmed⟩ peek confirmed) :
    ∃ moved, d'.ExactlyOnce (stream.map SourceTransaction.endLsn) ledger moved := by
  obtain ⟨cut, peeked, all⟩ := reads
  have ends : peek.transactions.map SourceTransaction.endLsn =
      window (stream.map SourceTransaction.endLsn) confirmed cut := by rw [peeked, ends_filter]
  have caught : ∀ row ∈ c.views, row.status = .live → ∀ x ∈ stream.map SourceTransaction.endLsn,
      peek.drained = true → x ≤ max peek.target confirmed → x ≤ row.frontier := by
    intro row member live x inEnds drained low
    refine (once.views row member live).safe x inEnds (not_lt.mp fun above => ?_)
    have inWindow : x ∈ window (stream.map SourceTransaction.endLsn) confirmed cut := by
      refine mem_window.mpr ⟨inEnds, above, ?_⟩
      rcases le_max_iff.mp low with le | le
      · exact le.trans (all drained)
      · exact absurd above (not_lt.mpr le)
    rw [← ends, empty] at inWindow
    exact List.not_mem_nil inWindow
  obtain ⟨moved, slot, ids, views⟩ := idle_exactlyOnce (le_refl _) state once.views caught
  exact ⟨moved, slot, by rw [Keyed, ids]; exact once.ids, views⟩

theorem Durable.ExactlyOnce.round {d d' : Durable} (ordered : stream.Pairwise fun t u => t.endLsn < u.endLsn)
    (once : d.ExactlyOnce (stream.map SourceTransaction.endLsn) ledger confirmed)
    (lag : peek.lag ≤ settings.maxSlotLagBytes) (reads : peek.Reads stream confirmed)
    (state : d' ∈ runRound pf settings faults cache peek d) :
    ∃ moved, d'.ExactlyOnce (stream.map SourceTransaction.endLsn) (fun id =>
      ⟨(ledger id).since, (ledger id).ends ++ absorbedBy pf settings faults cache d.catalog peek.transactions id⟩)
      moved := by
  obtain ⟨c, slot⟩ := d
  obtain rfl : slot = some confirmed := once.slot
  rcases mem_runRound lag state with ⟨empty, state⟩ | ⟨last, result, final, applied, states⟩
  · obtain ⟨moved, quiet⟩ := once.quiet reads empty state
    refine ⟨moved, quiet.slot, quiet.ids, fun row member live => ?_⟩
    simp only [absorbedBy, empty, if_true, List.append_nil]
    exact quiet.views row member live
  · exact once.committed ordered reads final applied states

end Round

theorem Delivers.invariant {stream : List SourceTransaction} {d : Durable} {ledger : Nat → Absorption}
    (ordered : stream.Pairwise fun t u => t.endLsn < u.endLsn) (run : Delivers pf stream d ledger) :
    ∃ confirmed, d.ExactlyOnce (stream.map SourceTransaction.endLsn) ledger confirmed := by
  induction run with
  | start ids none => exact ⟨_, rfl, ids, fun row member live => absurd live (none row member)⟩
  | others run ids views ih =>
      obtain ⟨confirmed, once⟩ := ih
      refine ⟨confirmed, once.slot, ids, ?_⟩
      intro row' member live
      rcases views row' member live with ⟨row, inViews, wasLive, id, frontier, same⟩ | ⟨fresh, ahead⟩
      · obtain ⟨populated, absorbed, safe⟩ := once.views row inViews wasLive
        rw [same, ← id]
        exact ⟨frontier ▸ populated, frontier ▸ absorbed, frontier ▸ safe⟩
      · rw [fresh]
        exact ⟨le_refl _, (window_self _ _).symm, fun x _ low => low.trans (ahead confirmed once.slot)⟩
  | round run slot lag reads state ih =>
      obtain ⟨confirmed, once⟩ := ih
      obtain rfl := Option.some.inj (once.slot.symm.trans slot)
      exact once.round ordered lag reads state

/-- Exactly-once absorption: in every state a crash can leave, a live view absorbed the
transactions after its population point up to its frontier, each once and in commit
order, and the slot is never past one it has neither absorbed nor been populated with. -/
theorem Delivers.exactly_once {stream : List SourceTransaction} {d : Durable} {ledger : Nat → Absorption}
    (ordered : stream.Pairwise fun t u => t.endLsn < u.endLsn) (run : Delivers pf stream d ledger) {row : ViewRow}
    (member : row ∈ d.catalog.views) (live : row.status = .live) :
    (ledger row.id).ends =
        (stream.map SourceTransaction.endLsn).filter
          (fun x => decide ((ledger row.id).since < x) && decide (x ≤ row.frontier)) ∧
      ∀ confirmed, d.slot = some confirmed → ∀ tx ∈ stream, tx.endLsn ≤ confirmed →
        tx.endLsn ≤ (ledger row.id).since ∨ tx.endLsn ∈ (ledger row.id).ends := by
  obtain ⟨confirmed, once⟩ := run.invariant ordered
  have view := once.views row member live
  refine ⟨view.absorbed, ?_⟩
  intro confirmed' slot tx inStream low
  obtain rfl := Option.some.inj (once.slot.symm.trans slot)
  have inEnds := List.mem_map_of_mem (f := SourceTransaction.endLsn) inStream
  by_cases old : tx.endLsn ≤ (ledger row.id).since
  · exact Or.inl old
  · exact Or.inr (view.absorbed ▸ mem_window.mpr ⟨inEnds, not_le.mp old, view.safe _ inEnds low⟩)

def shopPeek : Peek := ⟨0, 12, [shopDecoded .null], true, false⟩

/-- The view goes live at the slot's position, and the worker gets through one round. -/
theorem shop_exactly_once : ∃ d ledger row, Delivers .basic [shopDecoded .null] d ledger ∧ row ∈ d.catalog.views ∧
    row.status = .live ∧ row.frontier = 12 ∧ (ledger row.id).ends = [10] ∧
      ∀ confirmed, d.slot = some confirmed → ∀ tx ∈ [shopDecoded .null], tx.endLsn ≤ confirmed →
        tx.endLsn ≤ (ledger row.id).since ∨ tx.endLsn ∈ (ledger row.id).ends := by
  have empty : Delivers .basic [shopDecoded .null] ⟨{ shopCatalog with views := [] }, some 0⟩ fun _ => ⟨0, []⟩ :=
    .start (Keyed.nil _) fun row member => absurd member List.not_mem_nil
  have populated : Delivers .basic [shopDecoded .null] ⟨shopCatalog, some 0⟩ fun _ => ⟨0, []⟩ := by
    refine .others empty (show [7].Nodup by decide) fun row member _ => Or.inr ?_
    obtain rfl := List.mem_singleton.mp member
    exact ⟨rfl, fun _ _ => Nat.le_of_eq (Option.some.inj ‹some 0 = some _›).symm⟩
  obtain ⟨d, state, views⟩ : ∃ d ∈ runRound .basic shopSettings Faults.none (some ∘ shopRelation) shopPeek
      ⟨shopCatalog, some 0⟩, ∃ row, d.catalog.views = [row] ∧ row.status = .live ∧ row.frontier = 12 ∧ row.id = 7 :=
    ⟨_, List.mem_of_getElem? (i := 3) rfl, _, rfl, rfl, rfl, rfl⟩
  obtain ⟨row, views, live, frontier, id⟩ := views
  have run := Delivers.round populated rfl (show (0 : Int) ≤ 1000000 by decide)
    ⟨12, rfl, fun _ => le_refl 12⟩ state
  have member : row ∈ d.catalog.views := views ▸ List.mem_singleton_self row
  have once := run.exactly_once (List.pairwise_singleton _ _) member live
  refine ⟨d, _, row, run, member, live, frontier, ?_, once.2⟩
  rw [once.1, frontier]
  rfl

end Nabla
