import Nabla.Trace
import Nabla.Delivery

/-! Failure isolation: a view that fails in a round changes nothing for the others, and
keeps what it absorbed before the transaction it failed at. -/
namespace Nabla
open Bags

variable {pf : Platform} {settings : Settings} {faults : Faults}

/-- The catalog without the views that `hidden` names. -/
def Catalog.without (hidden : Nat → Bool) (c : Catalog) : Catalog :=
  { c with views := c.views.filter fun row => !hidden row.id }

theorem Catalog.without_liveViews (hidden : Nat → Bool) (c : Catalog) :
    (c.without hidden).liveViews = c.liveViews.filter fun v => !hidden v.row.id := by
  rw [Catalog.liveViews, Catalog.liveViews, Catalog.without, List.filter_map, List.filter_filter, List.filter_filter]
  refine congrArg _ (List.filter_congr fun row _ => ?_)
  exact Bool.and_comm _ _

theorem replay_same (events : List ViewEvent) (v : LiveView) :
    v.row.Same (LiveView.replay pf settings faults events v).row := by
  induction events generalizing v with
  | nil => exact ViewRow.Same.of_eq rfl
  | cons event events ih =>
      refine ViewRow.Same.trans ?_ (ih (v.handle pf settings faults event))
      cases event with
      | plan e position relid tables rel change old =>
          exact ViewRow.Same.of_eq (planView_kept pf faults e position relid tables rel change old v).row
      | lost relid rel message => exact ViewRow.Same.of_eq (shadowLost_kept 0 relid rel message v).row
      | execute tx => exact (executeView_outcome pf settings faults rfl (LiveView.Kept.refl _ v)).same

theorem Catalog.writeBack_without {c : Catalog} {written : List ViewRow} {shadows shadows' : List ShadowRow}
    (hidden : Nat → Bool) : ((c.without hidden).writeBack (written.filter fun row => !hidden row.id) shadows').views =
      (c.writeBack written shadows).views.filter fun row => !hidden row.id := by
  have ids : ∀ row : ViewRow, ((written.find? (·.id = row.id)).getD row).id = row.id := by
    intro row
    cases found : written.find? (·.id = row.id) with
    | none => rfl
    | some new =>
        have same := List.find?_some found
        rwa [decide_eq_true_eq] at same
  rw [Catalog.writeBack, Catalog.writeBack, Catalog.without, List.filter_map]
  have visible : (c.views.filter ((fun row => !hidden row.id) ∘ fun row => (written.find? (·.id = row.id)).getD row)) =
      c.views.filter fun row => !hidden row.id :=
    List.filter_congr fun row _ => by rw [Function.comp_apply, ids]
  dsimp only
  rw [visible]
  refine List.map_congr_left fun row member => ?_
  rw [List.mem_filter] at member
  have found : (written.filter fun row => !hidden row.id).find? (·.id = row.id) = written.find? (·.id = row.id) := by
    rw [List.find?_filter]
    refine congrArg (fun p => written.find? p) ?_
    funext new
    by_cases same : new.id = row.id
    · simp only [same, decide_true, member.2, and_self]
    · simp only [same, decide_false, Bool.false_eq_true, and_false]
  rw [found]

theorem applyRound_without {cache : Nat → Option Relation} {c : Catalog} {txs : List SourceTransaction}
    {result : RoundResult} (hidden : Nat → Bool) (applied : applyRound pf settings faults cache c txs = .ok result) :
    ∃ alone, applyRound pf settings faults cache (c.without hidden) txs = .ok alone ∧
      alone.catalog.views = result.catalog.views.filter (fun row => !hidden row.id) ∧
      List.Forall₂ ShadowRow.Like result.catalog.shadows alone.catalog.shadows := by
  have same : List.Forall₂ ShadowRow.Like c.shadows c.shadows := List.forall₂_same.mpr fun s _ => ShadowRow.Like.refl s
  rcases applyRound_separates pf settings faults cache txs c.shadows with ⟨message, failed⟩ | ⟨drift, events, left, drifts, done⟩
  · rw [failed c same] at applied
    exact absurd applied (by simp only [reduceCtorEq, not_false_iff])
  · obtain ⟨left₁, cache₁, blocked₁, like₁, whole⟩ := done c same
    obtain ⟨left₂, cache₂, blocked₂, like₂, part⟩ := done (c.without hidden) same
    rw [whole] at applied
    cases finishing : finishViews settings (c.liveViews.map (LiveView.replay pf settings faults events ∘ drift)) with
    | error message => simp only [finishing, Except.map, reduceCtorEq] at applied
    | ok written =>
        simp only [finishing, Except.map, Except.ok.injEq] at applied
        subst applied
        have run : ∀ v, ((LiveView.replay pf settings faults events ∘ drift) v).row.id = v.row.id := by
          intro v
          rw [Function.comp_apply, (replay_same events (drift v)).id, drifts v]
        have views : (c.without hidden).liveViews.map (LiveView.replay pf settings faults events ∘ drift) =
            (c.liveViews.map (LiveView.replay pf settings faults events ∘ drift)).filter fun v => !hidden v.row.id := by
          rw [Catalog.without_liveViews, List.filter_map]
          refine congrArg _ (List.filter_congr fun v _ => ?_)
          rw [Function.comp_apply, run]
        have finishing' : finishViews settings ((c.without hidden).liveViews.map
            (LiveView.replay pf settings faults events ∘ drift)) = .ok (written.filter fun row => !hidden row.id) := by
          rw [views, finishViews_iff]
          refine forall₂_filter (finishViews_iff.mp finishing) fun v row done => ?_
          rw [(LiveView.finish_ok done).id]
        rw [finishing'] at part
        refine ⟨_, part, Catalog.writeBack_without hidden, ?_⟩
        refine forall₂_trans (fun s₁ s s₂ first second => ?_) like₁.flip like₂
        obtain ⟨reason, rfl⟩ := first
        obtain ⟨reason', rfl⟩ := second
        exact ⟨reason', rfl⟩

/-- What a round did for a view so far: its storage, its position and its log. -/
structure LiveView.SameWork (v v' : LiveView) : Prop where
  row : v.row.Same v'.row
  storage : v'.row.storage = v.row.storage
  frontier : v'.frontier = v.frontier
  lastSeq : v'.lastSeq = v.lastSeq
  pending : v'.pending = v.pending
  absorbed : v'.absorbed = v.absorbed

theorem LiveView.SameWork.refl (v : LiveView) : v.SameWork v := ⟨ViewRow.Same.of_eq rfl, rfl, rfl, rfl, rfl, rfl⟩

theorem LiveView.SameWork.trans {v v' v'' : LiveView} (first : v.SameWork v') (second : v'.SameWork v'') :
    v.SameWork v'' where
  row := first.row.trans second.row
  storage := second.storage.trans first.storage
  frontier := second.frontier.trans first.frontier
  lastSeq := second.lastSeq.trans first.lastSeq
  pending := second.pending.trans first.pending
  absorbed := second.absorbed.trans first.absorbed

theorem LiveView.Kept.sameWork {e : Nat} {v v' : LiveView} (kept : v.Kept e v') : v.SameWork v' := by
  rw [kept.same]
  exact ⟨ViewRow.Same.of_eq rfl, rfl, rfl, rfl, rfl, rfl⟩

/-- A view that is out of the round after executing a transaction has done nothing in it. -/
theorem executeView_sameWork {tx : SourceTransaction} {v : LiveView}
    (dead : (executeView pf settings faults tx v).dead = true) : v.SameWork (executeView pf settings faults tx v) := by
  unfold executeView at dead ⊢
  by_cases skipped : (v.dead || decide (tx.endLsn ≤ v.frontier)) = true
  · rw [if_pos skipped]
    exact LiveView.SameWork.refl v
  · rw [if_neg skipped] at dead ⊢
    cases stale : v.stale with
    | some reason => exact ⟨rfl, rfl, rfl, rfl, rfl, rfl⟩
    | none =>
        cases failed : v.failed with
        | some message => exact ⟨rfl, rfl, rfl, rfl, rfl, rfl⟩
        | none =>
            simp only [stale, failed] at dead
            cases executed : inSubtransaction (faults.executing v.row.id tx.endLsn v.ops)
                (execute pf v.row.spec v.row.storage v.ops) with
            | error message => exact ⟨rfl, rfl, rfl, rfl, rfl, rfl⟩
            | ok result =>
                simp only [executed] at dead
                rw [Bool.or_eq_true, not_or] at skipped
                exact absurd dead skipped.1

theorem applyTransaction_sameWork {rels : List (Nat × Relation)} {tx : SourceTransaction} {st st' : RoundState}
    {blocked : Bool} (applied : applyTransaction pf settings faults rels tx st = .ok (st', blocked)) :
    List.Forall₂ (fun v v' : LiveView => v.row.id = v'.row.id ∧ (v'.dead = true → v.SameWork v') ∧
      (v.dead = true → v'.dead = true)) st.views st'.views := by
  unfold applyTransaction at applied
  cases changed : applyChanges pf faults rels tx.endLsn 0 tx.changes st with
  | error message => simp only [changed, Except.map, reduceCtorEq] at applied
  | ok planned =>
      simp only [changed, Except.map, Except.ok.injEq, Prod.mk.injEq] at applied
      obtain ⟨rfl, rfl⟩ := applied
      rw [List.forall₂_map_right_iff]
      refine (applyChanges_views changed).imp fun v planned kept => ?_
      have outcome := executeView_outcome pf settings faults rfl kept
      refine ⟨outcome.same.id.symm, fun dead => kept.sameWork.trans (executeView_sameWork dead), fun dead => ?_⟩
      cases outcome with
      | skipped _ same => exact same.trans dead
      | dropped _ _ dead' => exact dead'
      | absorbed alive => exact absurd (alive.symm.trans dead) Bool.false_ne_true

theorem applyTransactions_dead {rels : List (Nat × Relation)} {ti : Nat} {txs : List SourceTransaction}
    {st st' : RoundState} {blockedAt : Option Nat}
    (ran : applyTransactions pf settings faults rels ti txs st = .ok (st', blockedAt)) :
    List.Forall₂ (fun v v' : LiveView => v.row.id = v'.row.id ∧ (v.dead = true → v.SameWork v' ∧ v'.dead = true))
      st.views st'.views := by
  induction txs generalizing ti st blockedAt with
  | nil =>
      obtain ⟨rfl, rfl⟩ := Prod.mk.inj (Except.ok.inj ran)
      exact List.forall₂_same.mpr fun v _ => ⟨rfl, fun dead => ⟨LiveView.SameWork.refl v, dead⟩⟩
  | cons tx txs ih =>
      rw [applyTransactions] at ran
      cases first : applyTransaction pf settings faults rels tx st with
      | error message => simp only [first, reduceCtorEq] at ran
      | ok step =>
          obtain ⟨st₁, blocked⟩ := step
          cases rest : applyTransactions pf settings faults rels (ti + 1) txs st₁ with
          | error message => simp only [first, rest, Except.map, reduceCtorEq] at ran
          | ok result =>
              simp only [first, rest, Except.map, Except.ok.injEq, Prod.mk.injEq] at ran
              obtain ⟨rfl, rfl⟩ := ran
              refine forall₂_trans (fun v v₁ v' step later => ?_) (applyTransaction_sameWork first) (ih rest)
              refine ⟨step.1.trans later.1, fun dead => ?_⟩
              have dead₁ := step.2.2 dead
              exact ⟨(step.2.1 dead₁).trans (later.2 dead₁).1, (later.2 dead₁).2⟩

def stateAfter (pf : Platform) (settings : Settings) (faults : Faults) (rels : List (Nat × Relation))
    (start : RoundState) (txs : List SourceTransaction) (n : Nat) : Except String RoundState :=
  (applyTransactions pf settings faults rels 0 (txs.take n) start).map Prod.fst

theorem applyTransactions_index (rels : List (Nat × Relation)) (ti tj : Nat) (txs : List SourceTransaction)
    (st : RoundState) : (applyTransactions pf settings faults rels ti txs st).map Prod.fst =
      (applyTransactions pf settings faults rels tj txs st).map Prod.fst := by
  induction txs generalizing ti tj st with
  | nil => rfl
  | cons tx txs ih =>
      rw [applyTransactions, applyTransactions]
      cases applyTransaction pf settings faults rels tx st with
      | error message => rfl
      | ok step =>
          have rest := ih (ti + 1) (tj + 1) step.1
          dsimp only
          revert rest
          cases applyTransactions pf settings faults rels (ti + 1) txs step.1 <;>
            cases applyTransactions pf settings faults rels (tj + 1) txs step.1 <;> exact id

theorem stateAfter_succ {rels : List (Nat × Relation)} {tx : SourceTransaction} {txs : List SourceTransaction}
    {st st₁ : RoundState} {blocked : Bool} (first : applyTransaction pf settings faults rels tx st = .ok (st₁, blocked))
    (n : Nat) : stateAfter pf settings faults rels st (tx :: txs) (n + 1) =
      stateAfter pf settings faults rels st₁ txs n := by
  rw [stateAfter, stateAfter, applyTransactions_index rels 0 1 (txs.take n), List.take_succ_cons, applyTransactions, first]
  dsimp only
  cases applyTransactions pf settings faults rels (0 + 1) (txs.take n) st₁ <;> rfl

/-- Every view that enters the round keeps exactly what the transactions before its first
failing one did for it. -/
theorem applyTransactions_stop {rels : List (Nat × Relation)} {ti : Nat} {txs : List SourceTransaction}
    {st st' : RoundState} {blockedAt : Option Nat}
    (ran : applyTransactions pf settings faults rels ti txs st = .ok (st', blockedAt)) :
    List.Forall₂ (fun v v' : LiveView => v.dead = false → ∃ n ≤ txs.length,
      (∃ before, stateAfter pf settings faults rels st txs n = .ok before ∧
        ∃ w ∈ before.views, w.row.id = v.row.id ∧ w.dead = false ∧ w.SameWork v') ∧
      (n = txs.length ∨ ∃ after, stateAfter pf settings faults rels st txs (n + 1) = .ok after ∧
        ∃ w ∈ after.views, w.row.id = v.row.id ∧ w.dead = true)) st.views st'.views := by
  induction txs generalizing ti st blockedAt with
  | nil =>
      obtain ⟨rfl, rfl⟩ := Prod.mk.inj (Except.ok.inj ran)
      refine List.forall₂_same.mpr fun v member alive => ⟨0, le_refl _, ⟨st, rfl, v, member, rfl, alive, ?_⟩, Or.inl rfl⟩
      exact LiveView.SameWork.refl v
  | cons tx txs ih =>
      rw [applyTransactions] at ran
      cases first : applyTransaction pf settings faults rels tx st with
      | error message => simp only [first, reduceCtorEq] at ran
      | ok step =>
          obtain ⟨st₁, blocked⟩ := step
          cases rest : applyTransactions pf settings faults rels (ti + 1) txs st₁ with
          | error message => simp only [first, rest, Except.map, reduceCtorEq] at ran
          | ok result =>
              simp only [first, rest, Except.map, Except.ok.injEq, Prod.mk.injEq] at ran
              obtain ⟨rfl, rfl⟩ := ran
              have step : List.Forall₂ (fun v v₁ => v ∈ st.views ∧ v₁ ∈ st₁.views ∧ v.row.id = v₁.row.id ∧
                  (v₁.dead = true → v.SameWork v₁)) st.views st₁.views :=
                forall₂_imp_mem (forall₂_imp_mem_right (applyTransaction_sameWork first)
                  (S := fun v v₁ => v₁ ∈ st₁.views ∧ v.row.id = v₁.row.id ∧ (v₁.dead = true → v.SameWork v₁))
                  fun v v₁ member step => ⟨member, step.1, step.2.1⟩) fun v member v₁ step => ⟨member, step⟩
              refine forall₂_trans (fun v v₁ v' step later alive => ?_) step
                (forall₂_both (applyTransactions_dead rest) (ih rest))
              obtain ⟨inViews, inNext, id, stops⟩ := step
              obtain ⟨⟨_, stopped⟩, goes⟩ := later
              cases dead : v₁.dead with
              | true =>
                  refine ⟨0, Nat.zero_le _, ⟨st, rfl, v, inViews, rfl, alive, (stops dead).trans (stopped dead).1⟩, Or.inr ?_⟩
                  refine ⟨st₁, ?_, v₁, inNext, id.symm, dead⟩
                  rw [stateAfter_succ first]
                  rfl
              | false =>
                  obtain ⟨n, le, ⟨before, ran, w, inBefore, same, alive', work⟩, stops⟩ := goes dead
                  refine ⟨n + 1, Nat.succ_le_succ le, ⟨before, ?_, w, inBefore, same.trans id.symm, alive', work⟩, ?_⟩
                  · rw [stateAfter_succ first, ran]
                  · rcases stops with whole | ⟨after, ran', w', inAfter, same', dead'⟩
                    · exact Or.inl (congrArg (· + 1) whole)
                    · refine Or.inr ⟨after, ?_, w', inAfter, same'.trans id.symm, dead'⟩
                      rw [stateAfter_succ first, ran']

/-- A view that has absorbed nothing in the round stands as it was loaded, and one that
has stands at the last transaction it absorbed. -/
structure LiveView.Tidy (v : LiveView) : Prop where
  idle : v.absorbed = [] → v.frontier = v.row.frontier ∧ v.lastSeq = v.row.lastSeq ∧ v.pending = []
  position : ∀ e, v.absorbed.getLast? = some e → v.frontier = e

theorem LiveView.load_tidy (row : ViewRow) (stale : Option String) :
    LiveView.Tidy { LiveView.load row with stale := stale } :=
  ⟨fun _ => ⟨rfl, rfl, rfl⟩, fun e last => absurd last (Option.some_ne_none e).symm⟩

theorem LiveView.SameWork.tidy {v v' : LiveView} (work : v.SameWork v') (tidy : v.Tidy) : v'.Tidy := by
  have lastSeq : v'.row.lastSeq = v.row.lastSeq := by rw [work.row]
  constructor
  · rw [work.absorbed, work.frontier, work.lastSeq, work.pending, work.row.frontier, lastSeq]
    exact tidy.idle
  · rw [work.absorbed, work.frontier]
    exact tidy.position

theorem executeView_tidy {tx : SourceTransaction} {v : LiveView} (tidy : v.Tidy) :
    (executeView pf settings faults tx v).Tidy := by
  unfold executeView
  by_cases skipped : (v.dead || decide (tx.endLsn ≤ v.frontier)) = true
  · rw [if_pos skipped]
    exact tidy
  · rw [if_neg skipped]
    cases v.stale with
    | some reason => exact ⟨tidy.idle, tidy.position⟩
    | none =>
        cases v.failed with
        | some message => exact ⟨tidy.idle, tidy.position⟩
        | none =>
            dsimp only
            cases inSubtransaction (faults.executing v.row.id tx.endLsn v.ops) (execute pf v.row.spec v.row.storage v.ops) with
            | error message => exact ⟨tidy.idle, tidy.position⟩
            | ok result =>
                constructor
                · intro none
                  exact absurd none (List.append_ne_nil_of_right_ne_nil _ (List.cons_ne_nil _ _))
                · intro e last
                  rw [List.getLast?_append, List.getLast?_singleton, Option.some_or, Option.some.injEq] at last
                  exact last

theorem replay_tidy (events : List ViewEvent) {v : LiveView} (tidy : v.Tidy) :
    (LiveView.replay pf settings faults events v).Tidy := by
  induction events generalizing v with
  | nil => exact tidy
  | cons event events ih =>
      refine ih ?_
      cases event with
      | plan e position relid tables rel change old =>
          exact (planView_kept pf faults e position relid tables rel change old v).sameWork.tidy tidy
      | lost relid rel message => exact (shadowLost_kept 0 relid rel message v).sameWork.tidy tidy
      | execute tx => exact executeView_tidy tidy

theorem applyTransactions_tidy {rels : List (Nat × Relation)} {ti : Nat} {txs : List SourceTransaction}
    {st st' : RoundState} {blockedAt : Option Nat} (tidy : ∀ v ∈ st.views, v.Tidy)
    (ran : applyTransactions pf settings faults rels ti txs st = .ok (st', blockedAt)) : ∀ v ∈ st'.views, v.Tidy := by
  have same : List.Forall₂ ShadowRow.Like st.shadows st.shadows := List.forall₂_same.mpr fun s _ => ShadowRow.Like.refl s
  rcases @applyTransactions_traced pf settings faults rels ti txs st.shadows with ⟨message, failed⟩ | ⟨events, left, done⟩
  · have views := failed st.shadows same st.views
    simp only [ran, Except.map, reduceCtorEq] at views
  · obtain ⟨left', _, done⟩ := done st.shadows same
    have views := done st.views
    simp only [ran, Except.map, Except.ok.injEq] at views
    subst views
    intro v' member
    obtain ⟨v, inViews, rfl⟩ := List.mem_map.mp member
    exact replay_tidy events (tidy v inViews)

/-- The log of a view after the round: what it had and its new rows, less what is too old. -/
def LiveView.logged (settings : Settings) (v : LiveView) : List LoggedDelta :=
  if v.pending = [] then v.row.deltas
  else (v.row.deltas ++ v.pending).filter fun d => !decide (d.seq + settings.retainDeltas ≤ v.lastSeq)

theorem LiveView.Tidy.finish {v : LiveView} (tidy : v.Tidy) {row : ViewRow} (done : v.finish settings = .ok row) :
    row.storage = v.row.storage ∧ row.frontier = v.frontier ∧ row.lastSeq = v.lastSeq ∧
      row.deltas = v.logged settings := by
  unfold LiveView.finish at done
  cases absorbed : v.absorbed.getLast? with
  | none =>
      obtain ⟨frontier, lastSeq, pending⟩ := tidy.idle (List.getLast?_eq_none_iff.mp absorbed)
      simp only [absorbed, Except.ok.injEq] at done
      subst done
      exact ⟨rfl, frontier.symm, lastSeq.symm, by rw [LiveView.logged, if_pos pending]⟩
  | some e =>
      have position := tidy.position e absorbed
      simp only [absorbed] at done
      cases pending : v.pending.getLast? with
      | none =>
          simp only [pending, Except.ok.injEq] at done
          subst done
          exact ⟨rfl, position.symm, rfl, by rw [LiveView.logged, if_pos (List.getLast?_eq_none_iff.mp pending)]⟩
      | some last =>
          have some : v.pending ≠ [] := fun none => by rw [none] at pending; cases pending
          simp only [pending] at done
          cases sent : notify s!"nabla:{v.row.name}" s!"{last.seq}:{formatLsn last.lsn}" with
          | error message => simp only [sent, Except.map, reduceCtorEq] at done
          | ok _ =>
              simp only [sent, Except.map, Except.ok.injEq] at done
              subst done
              exact ⟨rfl, position.symm, rfl, by rw [LiveView.logged, if_neg some]⟩

def roundStart (pf : Platform) (cache : Nat → Option Relation) (c : Catalog) (txs : List SourceTransaction) :
    Except String (List (Nat × Relation) × RoundState) :=
  (collectRelations pf (changedRelids txs) cache []).map fun described =>
    (described.2, described.2.foldl (driftRelation ((txs.getLast?.map SourceTransaction.endLsn).getD 0))
      ⟨c.liveViews, c.shadows⟩)

/-- The state of the round in memory after its first `n` transactions. -/
def roundAfter (pf : Platform) (settings : Settings) (faults : Faults) (cache : Nat → Option Relation) (c : Catalog)
    (txs : List SourceTransaction) (n : Nat) : Except String RoundState :=
  match roundStart pf cache c txs with
  | .error e => .error e
  | .ok (rels, start) => stateAfter pf settings faults rels start txs n

/-- What the round leaves of a live row is the work of the first `n` transactions; it is
all of them unless the view drops out at the next one. -/
structure ViewRow.KeepsWork (states : Nat → Except String RoundState) (settings : Settings) (length n : Nat)
    (row row' : ViewRow) : Prop where
  le : n ≤ length
  work : ∃ before, states n = .ok before ∧ ∃ v ∈ before.views, v.row.id = row.id ∧ v.dead = false ∧
    row'.storage = v.row.storage ∧ row'.frontier = v.frontier ∧ row'.lastSeq = v.lastSeq ∧
    row'.deltas = v.logged settings
  stops : n = length ∨ ∃ after, states (n + 1) = .ok after ∧ ∃ v ∈ after.views, v.row.id = row.id ∧ v.dead = true

theorem applyRound_keepsWork {cache : Nat → Option Relation} {c : Catalog} {txs : List SourceTransaction}
    {result : RoundResult} (ids : Keyed ViewRow.id c.views)
    (applied : applyRound pf settings faults cache c txs = .ok result) {row : ViewRow} (member : row ∈ c.views)
    (live : row.status = .live) :
    ∃ row' ∈ result.catalog.views, row'.id = row.id ∧
      ∃ n, row.KeepsWork (roundAfter pf settings faults cache c txs) settings txs.length n row' := by
  unfold applyRound at applied
  cases collected : collectRelations pf (changedRelids txs) cache [] with
  | error message => simp only [collected, reduceCtorEq] at applied
  | ok described =>
      obtain ⟨cache', rels⟩ := described
      simp only [collected] at applied
      generalize roundEnd : (txs.getLast?.map SourceTransaction.endLsn).getD 0 = e at applied
      generalize starts : rels.foldl (driftRelation e) ⟨c.liveViews, c.shadows⟩ = start at applied
      have states : ∀ n, roundAfter pf settings faults cache c txs n = stateAfter pf settings faults rels start txs n := by
        intro n
        simp only [roundAfter, roundStart, collected, Except.map, roundEnd, starts]
      cases ran : applyTransactions pf settings faults rels 0 txs start with
      | error message => simp only [ran, reduceCtorEq] at applied
      | ok done =>
          obtain ⟨st, blockedAt⟩ := done
          simp only [ran] at applied
          cases finishing : finishViews settings st.views with
          | error message => simp only [finishing, Except.map, reduceCtorEq] at applied
          | ok written =>
              simp only [finishing, Except.map, Except.ok.injEq] at applied
              subst applied
              have views : start.views = c.liveViews.map fun v => rels.foldl (LiveView.driftBy e) v := by
                rw [← starts, foldl_driftRelation_views]
              have finished := finishViews_iff.mp finishing
              have loaded : List.Forall₂ (fun v v' : LiveView => v'.row.id = v.row.id) c.liveViews st.views := by
                have drifted : List.Forall₂ (fun v v' : LiveView => v'.row.id = v.row.id) c.liveViews start.views := by
                  rw [views]
                  exact forall₂_map_right _ fun v _ => by rw [foldl_driftBy e rels v]
                exact forall₂_trans (fun v v₁ v' first second => second.1.symm.trans first) drifted
                  (applyTransactions_dead ran)
              -- the view of the row, through the start of the round to its end
              have inStart : rels.foldl (LiveView.driftBy e) (LiveView.load row) ∈ start.views := by
                rw [views]
                refine List.mem_map_of_mem (List.mem_map_of_mem ?_)
                rw [List.mem_filter, decide_eq_true_eq]
                exact ⟨member, live⟩
              have entering := foldl_driftBy e rels (LiveView.load row)
              generalize rels.foldl (LiveView.driftBy e) (LiveView.load row) = v at inStart entering
              have alive : v.dead = false := by rw [entering]; rfl
              have id : v.row.id = row.id := by rw [entering]; rfl
              have tidy : ∀ u ∈ start.views, u.Tidy := by
                rw [views]
                intro u member
                obtain ⟨u₀, inLive, rfl⟩ := List.mem_map.mp member
                obtain ⟨r, _, _, rfl⟩ := Catalog.mem_liveViews inLive
                rw [foldl_driftBy e rels]
                exact LiveView.load_tidy r _
              obtain ⟨v', inRound, stopped, same, _⟩ :=
                mem_of_forall₂ (forall₂_both (applyTransactions_stop ran) (applyTransactions_dead ran)) inStart
              obtain ⟨n, le, ⟨before, reached, w, inBefore, same', alive', work⟩, stops⟩ := stopped alive
              obtain ⟨row', inWritten, done⟩ := mem_of_forall₂ finished inRound
              obtain ⟨storage, frontier, lastSeq, deltas⟩ := (applyTransactions_tidy tidy ran v' inRound).finish done
              have rowId : row'.id = row.id := (LiveView.finish_ok done).id.trans (same.symm.trans id)
              have kept : v'.row.deltas = w.row.deltas := by rw [work.row]
              refine ⟨row', Catalog.writeBack_written loaded (finishViews_ok finishing) ids inWritten member rowId, rowId,
                n, le, ⟨before, (states n).trans reached, w, inBefore, same'.trans id, alive',
                  storage.trans work.storage, frontier.trans work.frontier, lastSeq.trans work.lastSeq, ?_⟩, ?_⟩
              · rw [deltas, LiveView.logged, LiveView.logged, work.pending, work.lastSeq, kept]
              · rw [states]
                rcases stops with whole | ⟨after, reached', w', inAfter, same'', dead⟩
                · exact Or.inl whole
                · exact Or.inr ⟨after, reached', w', inAfter, same''.trans id, dead⟩

/-- Failure isolation: without the views that `failing` names the round leaves the other
views and the shadows the same, and each view of the round keeps exactly the work of the
transactions before its first failing one. -/
theorem applyRound_isolated {cache : Nat → Option Relation} {c : Catalog} {txs : List SourceTransaction}
    {result : RoundResult} (ids : Keyed ViewRow.id c.views)
    (applied : applyRound pf settings faults cache c txs = .ok result) (failing : Nat → Bool) :
    (∃ alone, applyRound pf settings faults cache (c.without failing) txs = .ok alone ∧
      alone.catalog.views = result.catalog.views.filter (fun row => !failing row.id) ∧
      List.Forall₂ ShadowRow.Like result.catalog.shadows alone.catalog.shadows) ∧
    ∀ row ∈ c.views, row.status = .live → ∃ row' ∈ result.catalog.views, row'.id = row.id ∧
      ∃ n, row.KeepsWork (roundAfter pf settings faults cache c txs) settings txs.length n row' :=
  ⟨applyRound_without failing applied, fun _ member live => applyRound_keepsWork ids applied member live⟩

def shopPair : Catalog := { shopCatalog with views := shopCatalog.views ++ shopCatalog.views.map ({ · with id := 8 }) }

def shopFaults : Faults := { Faults.none with execute := fun view _ => if view = 8 then some "lock timeout" else none }

theorem shop_isolated : ∃ result alone,
    applyRound .basic shopSettings shopFaults (some ∘ shopRelation) shopPair [shopDecoded .null] = .ok result ∧
    applyRound .basic shopSettings shopFaults (some ∘ shopRelation) (shopPair.without (· = 8)) [shopDecoded .null] =
      .ok alone ∧
    alone.catalog.views = result.catalog.views.filter (fun row => !decide (row.id = 8)) ∧
    result.blockedAt = some 0 := by
  obtain ⟨result, applied, blocked⟩ : ∃ result, applyRound .basic shopSettings shopFaults (some ∘ shopRelation) shopPair
      [shopDecoded .null] = .ok result ∧ result.blockedAt = some 0 := ⟨_, rfl, rfl⟩
  obtain ⟨⟨alone, ran, views, _⟩, _⟩ := applyRound_isolated (c := shopPair) (show [7, 8].Nodup by decide) applied (· = 8)
  exact ⟨result, alone, applied, ran, views, blocked⟩

end Nabla
