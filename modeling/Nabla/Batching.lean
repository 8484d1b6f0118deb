import Nabla.Dependents

/-! Batching: one round over a list of source transactions leaves the catalog that any
sequence of rounds over its parts leaves. -/
namespace Nabla
open Bags

variable {pf : Platform} {settings : Settings} {faults : Faults}

def LiveView.settledRow (settings : Settings) (v : LiveView) : ViewRow :=
  match v.absorbed.getLast? with
  | none => v.row
  | some absorbedEnd =>
    { v.row with
      frontier := absorbedEnd
      lastSeq := v.lastSeq
      applyFailures := if v.failedThisRound then v.row.applyFailures else 0
      lastError := if v.failedThisRound then v.row.lastError else none
      deltas := v.logged settings }

def LiveView.settle (settings : Settings) (v : LiveView) : LiveView :=
  { v with
    row := v.settledRow settings
    applyFailures := (v.settledRow settings).applyFailures
    pending := []
    absorbed := [] }

theorem LiveView.finish_settledRow {v : LiveView} {row : ViewRow} (done : v.finish settings = .ok row) :
    row = v.settledRow settings := by
  unfold LiveView.finish at done
  unfold LiveView.settledRow LiveView.logged
  cases absorbed : v.absorbed.getLast? with
  | none =>
      simp only [absorbed, Except.ok.injEq] at done
      exact done.symm
  | some e =>
      simp only [absorbed] at done
      cases pending : v.pending.getLast? with
      | none =>
          simp only [pending, Except.ok.injEq] at done
          rw [← done]
          dsimp only
          rw [if_pos (List.getLast?_eq_none_iff.mp pending)]
      | some last =>
          have some : v.pending ≠ [] := fun none => by rw [none] at pending; cases pending
          simp only [pending] at done
          cases sent : notify s!"nabla:{v.row.name}" s!"{last.seq}:{formatLsn last.lsn}" with
          | error message => simp only [sent, Except.map, reduceCtorEq] at done
          | ok _ =>
              simp only [sent, Except.map, Except.ok.injEq] at done
              rw [← done]
              dsimp only
              rw [if_neg some]

/-- Collecting a log's garbage twice is collecting it once, at the later sequence number. -/
theorem collect_twice {log more : List LoggedDelta} {retain first second : Nat} (later : first ≤ second) :
    ((log.filter fun d => !decide (d.seq + retain ≤ first)) ++ more).filter (fun d => !decide (d.seq + retain ≤ second)) =
      (log ++ more).filter fun d => !decide (d.seq + retain ≤ second) := by
  rw [List.filter_append, List.filter_append, List.filter_filter]
  congr 1
  apply List.filter_congr
  intro d _
  by_cases old : d.seq + retain ≤ first
  · simp only [old, old.trans later, decide_true, Bool.not_true, Bool.and_self]
  · simp only [old, decide_false, Bool.not_false, Bool.and_true]

theorem LiveView.settle_form (settings : Settings) (v : LiveView) : ∃ frontier lastSeq failures error deltas,
    v.settle settings = { v with
      row := { v.row with
        frontier := frontier, lastSeq := lastSeq, applyFailures := failures, lastError := error, deltas := deltas }
      applyFailures := failures
      pending := []
      absorbed := [] } := by
  unfold LiveView.settle LiveView.settledRow
  cases v.absorbed.getLast? with
  | none => exact ⟨_, _, _, _, _, rfl⟩
  | some e => exact ⟨_, _, _, _, _, rfl⟩

structure LiveView.Agrees (v w : LiveView) : Prop where
  id : w.row.id = v.row.id
  spec : w.row.spec = v.row.spec
  definition : w.row.definition = v.row.definition
  storage : w.row.storage = v.row.storage
  frontier : w.frontier = v.frontier
  lastSeq : w.lastSeq = v.lastSeq
  ops : w.ops = v.ops
  failed : w.failed = v.failed
  stale : w.stale = v.stale
  dead : w.dead = v.dead

theorem LiveView.settle_agrees (v : LiveView) : v.Agrees (v.settle settings) := by
  obtain ⟨frontier, lastSeq, failures, error, deltas, form⟩ := v.settle_form settings
  rw [form]
  exact ⟨rfl, rfl, rfl, rfl, rfl, rfl, rfl, rfl, rfl, rfl⟩

theorem LiveView.Agrees.planChange {v w : LiveView} (agrees : v.Agrees w) (tables : Nat → Option (List BaseRow))
    (rel : Relation) (change : Change) (old : Option Tuple) :
    planChange pf tables w rel change old = planChange pf tables v rel change old := by
  unfold Nabla.planChange planJoinChange planSingleChange
  rw [agrees.spec, agrees.definition]

theorem LiveView.Agrees.planView {v w : LiveView} (agrees : v.Agrees w) (e position relid : Nat)
    (tables : Nat → Option (List BaseRow)) (rel : Relation) (change : Change) (old : Except String (Option Tuple)) :
    (planView pf faults e position relid tables rel change old w).ops =
        (planView pf faults e position relid tables rel change old v).ops ∧
      (planView pf faults e position relid tables rel change old w).stale =
        (planView pf faults e position relid tables rel change old v).stale ∧
      (planView pf faults e position relid tables rel change old w).failed =
        (planView pf faults e position relid tables rel change old v).failed := by
  unfold Nabla.planView LiveView.activeFor
  rw [agrees.dead, agrees.failed, agrees.stale, agrees.frontier, agrees.spec, agrees.id, agrees.ops,
    agrees.planChange]
  split
  · exact ⟨agrees.ops, agrees.stale, agrees.failed⟩
  · split
    · exact ⟨rfl, rfl, rfl⟩
    · split <;> exact ⟨rfl, rfl, rfl⟩

theorem LiveView.Agrees.shadowLost {v w : LiveView} (agrees : v.Agrees w) (relid : Nat) (rel : Relation)
    (message : String) : (shadowLost relid rel message w).stale = (shadowLost relid rel message v).stale := by
  unfold Nabla.shadowLost
  rw [agrees.dead, agrees.stale, agrees.spec]
  split
  · rfl
  · exact agrees.stale

theorem shadowLost_same (relid : Nat) (rel : Relation) (message : String) (v : LiveView) :
    shadowLost relid rel message v = { v with stale := (shadowLost relid rel message v).stale } := by
  unfold shadowLost
  split <;> rfl

/-- What an event that is not the execution does to a view, it does to the settled view. -/
theorem settle_handle_planned (v : LiveView) {event : ViewEvent} (planned : ∀ tx, event ≠ .execute tx) :
    (v.settle settings).handle pf settings faults event = (v.handle pf settings faults event).settle settings := by
  cases event with
  | plan e position relid tables rel change old =>
      have before := (planView_kept pf faults e position relid tables rel change old v).same
      have after := (planView_kept pf faults e position relid tables rel change old (v.settle settings)).same
      obtain ⟨ops, stale, failed⟩ := (@LiveView.settle_agrees settings v).planView e position relid tables rel change old
      rw [ops, stale, failed] at after
      simp only [LiveView.handle]
      rw [after, before]
      rfl
  | lost relid rel message =>
      have before := shadowLost_same relid rel message v
      have after := shadowLost_same relid rel message (v.settle settings)
      rw [(@LiveView.settle_agrees settings v).shadowLost relid rel message] at after
      simp only [LiveView.handle]
      rw [after, before]
      rfl
  | execute tx => exact absurd rfl (planned tx)

/-- New rows of the log, added to the settled view or to the view itself. -/
theorem LiveView.Tidy.logged {v : LiveView} (tidy : v.Tidy) {new : List LoggedDelta} {lastSeq : Nat}
    (later : v.lastSeq ≤ lastSeq) (same : new = [] → lastSeq = v.lastSeq) :
    (if new = [] then (v.settledRow settings).deltas
      else ((v.settledRow settings).deltas ++ new).filter fun d => !decide (d.seq + settings.retainDeltas ≤ lastSeq)) =
    if v.pending ++ new = [] then v.row.deltas
    else (v.row.deltas ++ (v.pending ++ new)).filter fun d => !decide (d.seq + settings.retainDeltas ≤ lastSeq) := by
  unfold LiveView.settledRow
  cases absorbed : v.absorbed.getLast? with
  | none =>
      obtain ⟨_, _, none⟩ := tidy.idle (List.getLast?_eq_none_iff.mp absorbed)
      rw [none, List.nil_append]
  | some e =>
      dsimp only
      unfold LiveView.logged
      by_cases none : new = []
      · rw [if_pos none, none, List.append_nil, same none]
      · have some : v.pending ++ new ≠ [] := List.append_ne_nil_of_right_ne_nil _ none
        rw [if_neg none, if_neg some]
        by_cases quiet : v.pending = []
        · rw [if_pos quiet, quiet, List.nil_append]
        · rw [if_neg quiet, collect_twice later, List.append_assoc]

theorem length_numberDeltas (tx : SourceTransaction) (seq : Nat) (deltas : List Delta) :
    (numberDeltas tx seq deltas).length = deltas.length := by
  induction deltas generalizing seq with
  | nil => rfl
  | cons d deltas ih => rw [numberDeltas, List.length_cons, List.length_cons, ih]

/-- A view that absorbs a transaction with the new log rows `new`. -/
def LiveView.absorb (v : LiveView) (storage : List Record) (new : List LoggedDelta) (endLsn : Nat) : LiveView :=
  { v with
    row := { v.row with storage := storage }
    ops := []
    failed := none
    stale := none
    lastSeq := v.lastSeq + new.length
    pending := v.pending ++ new
    frontier := endLsn
    absorbed := v.absorbed ++ [endLsn] }

theorem LiveView.settledRow_absorb (v : LiveView) (storage : List Record) (new : List LoggedDelta) (endLsn : Nat)
    (sound : v.failedThisRound = false) :
    (v.absorb storage new endLsn).settledRow settings = { v.row with
      storage := storage
      frontier := endLsn
      lastSeq := v.lastSeq + new.length
      applyFailures := 0
      lastError := none
      deltas := if v.pending ++ new = [] then v.row.deltas
        else (v.row.deltas ++ (v.pending ++ new)).filter fun d =>
          !decide (d.seq + settings.retainDeltas ≤ v.lastSeq + new.length) } := by
  simp only [LiveView.settledRow, LiveView.absorb, LiveView.logged, List.getLast?_append, List.getLast?_singleton,
    Option.some_or, sound, Bool.false_eq_true, if_false]

theorem LiveView.Tidy.settle_absorb {v : LiveView} (tidy : v.Tidy) (storage : List Record) (new : List LoggedDelta)
    (endLsn : Nat) (sound : v.failedThisRound = false) :
    ((v.settle settings).absorb storage new endLsn).settle settings = (v.absorb storage new endLsn).settle settings := by
  have logs := @LiveView.Tidy.logged settings v tidy new _ (Nat.le_add_right v.lastSeq new.length)
    fun none => by rw [none]; rfl
  have left := @LiveView.settledRow_absorb settings (v.settle settings) storage new endLsn sound
  have right := @LiveView.settledRow_absorb settings v storage new endLsn sound
  have rows : ((v.settle settings).absorb storage new endLsn).settledRow settings =
      (v.absorb storage new endLsn).settledRow settings := by
    rw [left, right, ← logs]
    obtain ⟨frontier, lastSeq, failures, error, deltas, form⟩ := v.settle_form settings
    have row : v.settledRow settings = { v.row with
        frontier := frontier, lastSeq := lastSeq, applyFailures := failures, lastError := error, deltas := deltas } :=
      congrArg LiveView.row form
    simp only [LiveView.settle, row, List.nil_append]
  unfold LiveView.settle at rows ⊢
  rw [rows]
  rfl

theorem settle_executeView_failed (v : LiveView) (tx : SourceTransaction) :
    (executeView pf settings faults tx (v.settle settings)).failedThisRound =
      (executeView pf settings faults tx v).failedThisRound := by
  have agrees := @LiveView.settle_agrees settings v
  unfold executeView
  rw [agrees.dead, agrees.frontier, agrees.stale, agrees.failed, agrees.id, agrees.spec, agrees.storage, agrees.ops]
  by_cases skipped : (v.dead || decide (tx.endLsn ≤ v.frontier)) = true
  · rw [if_pos skipped, if_pos skipped]
    rfl
  · rw [if_neg skipped, if_neg skipped]
    cases v.stale with
    | some reason => rfl
    | none =>
        cases v.failed with
        | some message => rfl
        | none =>
            dsimp only
            cases inSubtransaction (faults.executing v.row.id tx.endLsn v.ops) (execute pf v.row.spec v.row.storage v.ops) <;> rfl

/-- Executing a transaction without a failure ends the round as executing it in the next one. -/
theorem settle_handle_execute {v : LiveView} (tidy : v.Tidy) {tx : SourceTransaction}
    (sound : (executeView pf settings faults tx v).failedThisRound = false) :
    (executeView pf settings faults tx (v.settle settings)).settle settings =
      (executeView pf settings faults tx v).settle settings := by
  have agrees := @LiveView.settle_agrees settings v
  unfold executeView at sound ⊢
  rw [agrees.dead, agrees.frontier, agrees.stale, agrees.failed, agrees.id, agrees.spec, agrees.storage, agrees.ops,
    agrees.lastSeq]
  by_cases skipped : (v.dead || decide (tx.endLsn ≤ v.frontier)) = true
  · rw [if_pos skipped, if_pos skipped]
    rfl
  · rw [if_neg skipped] at sound
    rw [if_neg skipped, if_neg skipped]
    cases stale : v.stale with
    | some reason =>
        simp only [LiveView.markStale]
        unfold LiveView.settle LiveView.settledRow LiveView.logged
        cases v.absorbed.getLast? <;> rfl
    | none =>
        cases failed : v.failed with
        | some message => simp only [stale, failed, LiveView.recordFailure, reduceCtorEq] at sound
        | none =>
            simp only [stale, failed] at sound ⊢
            cases executed : inSubtransaction (faults.executing v.row.id tx.endLsn v.ops)
                (execute pf v.row.spec v.row.storage v.ops) with
            | error message => simp only [executed, LiveView.recordFailure, reduceCtorEq] at sound
            | ok result =>
                simp only [executed] at sound ⊢
                have absorbed := @LiveView.Tidy.settle_absorb settings v tidy result.1
                  (numberDeltas tx v.lastSeq (net pf v.row.spec result.2)) tx.endLsn sound
                simp only [LiveView.absorb, agrees.dead, agrees.lastSeq] at absorbed
                exact absorbed

theorem handle_tidy {v : LiveView} (tidy : v.Tidy) (event : ViewEvent) : (v.handle pf settings faults event).Tidy :=
  replay_tidy [event] tidy

theorem settle_handle {v : LiveView} (tidy : v.Tidy) {event : ViewEvent}
    (sound : (v.handle pf settings faults event).failedThisRound = false) :
    ((v.settle settings).handle pf settings faults event).settle settings =
      (v.handle pf settings faults event).settle settings := by
  by_cases planned : ∃ tx, event = .execute tx
  · obtain ⟨tx, rfl⟩ := planned
    exact settle_handle_execute tidy sound
  · rw [@settle_handle_planned pf settings faults v event fun tx eq => planned ⟨tx, eq⟩]
    rfl

theorem settle_handle_failed (v : LiveView) (event : ViewEvent) :
    ((v.settle settings).handle pf settings faults event).failedThisRound =
      (v.handle pf settings faults event).failedThisRound := by
  by_cases planned : ∃ tx, event = .execute tx
  · obtain ⟨tx, rfl⟩ := planned
    exact settle_executeView_failed v tx
  · rw [@settle_handle_planned pf settings faults v event fun tx eq => planned ⟨tx, eq⟩]
    rfl

theorem handle_failed {v : LiveView} {event : ViewEvent}
    (sound : (v.handle pf settings faults event).failedThisRound = false) : v.failedThisRound = false := by
  cases event with
  | plan e position relid tables rel change old =>
      have kept := (planView_kept pf faults e position relid tables rel change old v).same
      simp only [LiveView.handle] at sound
      rwa [kept] at sound
  | lost relid rel message =>
      have kept := shadowLost_same relid rel message v
      simp only [LiveView.handle] at sound
      rwa [kept] at sound
  | execute tx =>
      simp only [LiveView.handle, executeView] at sound
      split at sound
      · exact sound
      · split at sound
        · exact sound
        · simp only [LiveView.recordFailure, reduceCtorEq] at sound
        · split at sound
          · exact sound
          · simp only [LiveView.recordFailure, reduceCtorEq] at sound

theorem replay_failed {v : LiveView} {events : List ViewEvent}
    (sound : (LiveView.replay pf settings faults events v).failedThisRound = false) : v.failedThisRound = false := by
  induction events generalizing v with
  | nil => exact sound
  | cons event events ih => exact handle_failed (ih sound)

theorem settle_replay {v w : LiveView} (tidy : v.Tidy) (tidy' : w.Tidy) (same : v.settle settings = w.settle settings)
    {events : List ViewEvent} (sound : (LiveView.replay pf settings faults events v).failedThisRound = false) :
    (LiveView.replay pf settings faults events v).settle settings =
      (LiveView.replay pf settings faults events w).settle settings := by
  induction events generalizing v w with
  | nil => exact same
  | cons event events ih =>
      have here : (v.handle pf settings faults event).failedThisRound = false := replay_failed sound
      have here' : (w.handle pf settings faults event).failedThisRound = false := by
        rw [← settle_handle_failed, ← same, settle_handle_failed]
        exact here
      refine ih (handle_tidy tidy event) (handle_tidy tidy' event) ?_ sound
      rw [← settle_handle tidy here, ← settle_handle tidy' here', same]

theorem handle_dead {v : LiveView} (dead : v.dead = true) (event : ViewEvent) :
    v.handle pf settings faults event = v := by
  cases event with
  | plan e position relid tables rel change old => simp only [LiveView.handle, planView, dead, Bool.true_or, if_true]
  | lost relid rel message =>
      simp only [LiveView.handle, shadowLost, dead, Bool.not_true, Bool.and_false, Bool.false_eq_true, if_false]
  | execute tx => simp only [LiveView.handle, executeView, dead, Bool.true_or, if_true]

theorem replay_dead {v : LiveView} (dead : v.dead = true) (events : List ViewEvent) :
    LiveView.replay pf settings faults events v = v := by
  induction events with
  | nil => rfl
  | cons event events ih =>
      show LiveView.replay pf settings faults events (v.handle pf settings faults event) = v
      rw [handle_dead dead]
      exact ih

/-- A view between two transactions of a round in which no shadow fails. -/
structure LiveView.Rested (v : LiveView) : Prop where
  clear : v.dead = false → v.stale = none ∧ v.failed = none ∧ v.ops = [] ∧ v.row.status = .live
  dropped : v.dead = true → v.row.status = .live → v.failedThisRound = true

theorem LiveView.load_rested {row : ViewRow} (live : row.status = .live) : (LiveView.load row).Rested :=
  ⟨fun _ => ⟨rfl, rfl, rfl, live⟩, fun dead => absurd dead Bool.false_ne_true⟩

/-- The next round finds a view at rest as the last one settled it. -/
theorem LiveView.Rested.load {v : LiveView} (rested : v.Rested) (tidy : v.Tidy) (alive : v.dead = false)
    (sound : v.failedThisRound = false) : LiveView.load (v.settledRow settings) = v.settle settings := by
  obtain ⟨stale, failed, ops, _⟩ := rested.clear alive
  have frontier : (v.settledRow settings).frontier = v.frontier ∧ (v.settledRow settings).lastSeq = v.lastSeq := by
    unfold LiveView.settledRow
    cases absorbed : v.absorbed.getLast? with
    | none =>
        obtain ⟨frontier, lastSeq, _⟩ := tidy.idle (List.getLast?_eq_none_iff.mp absorbed)
        exact ⟨frontier.symm, lastSeq.symm⟩
    | some e => exact ⟨(tidy.position e absorbed).symm, rfl⟩
  unfold LiveView.load LiveView.settle
  rw [frontier.1, frontier.2, stale, failed, ops, alive, sound]

/-- A view that is not behind a change comes through its planning untouched. -/
def LiveView.Quiet (e : Nat) (v v' : LiveView) : Prop := v.Kept e v' ∧ (v.dead = true ∨ e ≤ v.frontier → v' = v)

theorem LiveView.Quiet.trans {e : Nat} {v v' v'' : LiveView} (first : v.Quiet e v') (second : v'.Quiet e v'') :
    v.Quiet e v'' := by
  refine ⟨first.1.trans second.1, fun idle => ?_⟩
  have same := first.2 idle
  rw [← same] at idle
  exact (second.2 idle).trans same

theorem planView_quiet (e position relid : Nat) (tables : Nat → Option (List BaseRow)) (rel : Relation)
    (change : Change) (old : Except String (Option Tuple)) (v : LiveView) :
    v.Quiet e (planView pf faults e position relid tables rel change old v) := by
  refine ⟨planView_kept pf faults e position relid tables rel change old v, fun idle => ?_⟩
  unfold planView
  rw [if_pos]
  rcases idle with dead | ahead
  · rw [dead, Bool.true_or]
  · simp only [LiveView.activeFor, decide_eq_false (Nat.not_lt.mpr ahead), Bool.and_false, Bool.false_and, Bool.not_false,
      Bool.or_true]

theorem RoundState.Kept.harmed {e : Nat} {st st' : RoundState} (kept : st.Kept e st') {r : Nat} (harmed : st.Harmed r) :
    st'.Harmed r := by
  obtain ⟨s, member, relid, failed⟩ := harmed
  obtain ⟨s', member', same⟩ := mem_of_forall₂ kept.shadows member
  obtain rfl := same.idle fun active => by
    rw [active.1] at failed
    exact Bool.false_ne_true failed
  exact ⟨s', member', relid, failed⟩

theorem applyChanges_quiet {rels : List (Nat × Relation)} {e position : Nat} {changes : List Change}
    {st st' : RoundState} (applied : applyChanges pf faults rels e position changes st = .ok st')
    (keyed : Keyed ShadowRow.relid st.shadows) :
    st.Kept e st' ∧ ((∀ r, st'.Harmed r → st.Harmed r) → List.Forall₂ (LiveView.Quiet e) st.views st'.views) := by
  refine applyChanges_rule (P := fun st st' => Keyed ShadowRow.relid st.shadows → st.Kept e st' ∧
    ((∀ r, st'.Harmed r → st.Harmed r) → List.Forall₂ (LiveView.Quiet e) st.views st'.views)) ?_ ?_ ?_ applied keyed
  · exact fun st _ => ⟨RoundState.Kept.refl e st, fun _ =>
      List.forall₂_same.mpr fun v _ => ⟨LiveView.Kept.refl e v, fun _ => rfl⟩⟩
  · intro st st' st'' first second keyed
    obtain ⟨kept, quiet⟩ := first keyed
    obtain ⟨kept', quiet'⟩ := second (ShadowRow.Kept.keyed kept.shadows keyed)
    refine ⟨kept.trans kept', fun sound => ?_⟩
    exact forall₂_trans (fun _ _ _ left right => left.trans right)
      (quiet fun r harmed => sound r (kept'.harmed harmed)) (quiet' fun r harmed => kept.harmed (sound r harmed))
  · intro position relid change st st' applied keyed
    obtain ⟨rel, _, step⟩ := applyRelid_ok applied
    refine ⟨step.kept keyed, fun sound => ?_⟩
    have planned : List.Forall₂ (LiveView.Quiet e) st.views (plannedViews pf faults e position relid rel change st) :=
      forall₂_map_right _ fun v _ => planView_quiet e position relid _ rel change _ v
    cases step with
    | unread => exact planned
    | absorbed => exact planned
    | @lost s newFull message found completed failing =>
        obtain ⟨member, here, active⟩ := activeShadow_some found
        obtain ⟨s', member', relid', failed⟩ := sound relid ⟨recordShadowFailure s message,
          List.mem_map.mpr ⟨s, member, if_pos here⟩, here, rfl⟩
        rw [keyed.eq_of_mem member' member (relid'.trans here.symm)] at failed
        exact absurd (active.1.symm.trans failed) Bool.false_ne_true

theorem LiveView.Quiet.rested {tx : SourceTransaction} {v v' : LiveView} (quiet : v.Quiet tx.endLsn v')
    (rested : v.Rested) : (executeView pf settings faults tx v').Rested := by
  have outcome := executeView_outcome pf settings faults rfl quiet.1
  cases outcome with
  | skipped idle dead row =>
      obtain rfl := quiet.2 idle
      have same : executeView pf settings faults tx v' = v' := by
        unfold executeView
        rw [if_pos]
        rcases idle with dead | ahead
        · rw [dead, Bool.true_or]
        · rw [decide_eq_true ahead, Bool.or_true]
      rw [same]
      exact rested
  | dropped _ _ dead _ _ _ _ retried => exact ⟨fun alive => absurd (alive.symm.trans dead) Bool.false_ne_true, fun _ => retried⟩
  | absorbed alive _ _ dead stale failed ops _ status =>
      refine ⟨fun _ => ⟨stale, failed, ops, status.trans (rested.clear alive).2.2.2⟩, fun dead' => ?_⟩
      exact absurd (dead.symm.trans dead') Bool.false_ne_true

/-- The log rows of a round are numbered on from the view's last sequence number, none
past its position. -/
structure LiveView.Numbered (v : LiveView) : Prop where
  count : v.lastSeq = v.row.lastSeq + v.pending.length
  bound : ∀ d ∈ v.pending, d.seq ≤ v.lastSeq ∧ d.lsn ≤ v.frontier
  worked : v.pending ≠ [] → v.absorbed ≠ []

theorem LiveView.load_numbered (row : ViewRow) : (LiveView.load row).Numbered :=
  ⟨rfl, fun _ member => absurd member List.not_mem_nil, fun some => absurd rfl some⟩

/-- A view's position and sequence number only grow. -/
structure LiveView.Grown (v v' : LiveView) : Prop where
  same : v.row.Same v'.row
  lastSeq : v.lastSeq ≤ v'.lastSeq
  frontier : v.frontier ≤ v'.frontier
  numbered : v.Numbered → v'.Numbered

theorem LiveView.Grown.refl (v : LiveView) : v.Grown v := ⟨ViewRow.Same.of_eq rfl, le_refl _, le_refl _, id⟩

theorem LiveView.Grown.trans {v v' v'' : LiveView} (first : v.Grown v') (second : v'.Grown v'') : v.Grown v'' :=
  ⟨first.same.trans second.same, first.lastSeq.trans second.lastSeq, first.frontier.trans second.frontier,
    second.numbered ∘ first.numbered⟩

theorem mem_numberDeltas {tx : SourceTransaction} {seq : Nat} {deltas : List Delta} {d : LoggedDelta}
    (member : d ∈ numberDeltas tx seq deltas) : seq < d.seq ∧ d.seq ≤ seq + deltas.length ∧ d.lsn = tx.endLsn := by
  induction deltas generalizing seq with
  | nil => exact absurd member List.not_mem_nil
  | cons first deltas ih =>
      rw [numberDeltas] at member
      rw [List.length_cons]
      rcases List.mem_cons.mp member with rfl | later
      · exact ⟨Nat.lt_succ_self seq, show seq + 1 ≤ seq + (deltas.length + 1) by omega, rfl⟩
      · obtain ⟨above, upTo, lsn⟩ := ih later
        exact ⟨by omega, by omega, lsn⟩

theorem LiveView.SameWork.grown {v v' : LiveView} (work : v.SameWork v') : v.Grown v' := by
  refine ⟨work.row, work.lastSeq.ge, work.frontier.ge, fun numbered => ?_⟩
  have lastSeq : v'.row.lastSeq = v.row.lastSeq := by rw [work.row]
  constructor
  · rw [work.lastSeq, work.pending, lastSeq]
    exact numbered.count
  · rw [work.pending, work.lastSeq, work.frontier]
    exact numbered.bound
  · rw [work.pending, work.absorbed]
    exact numbered.worked

theorem executeView_grown (tx : SourceTransaction) (v : LiveView) : v.Grown (executeView pf settings faults tx v) := by
  cases dead : (executeView pf settings faults tx v).dead with
  | true => exact (executeView_sameWork dead).grown
  | false =>
      unfold executeView at dead ⊢
      by_cases skipped : (v.dead || decide (tx.endLsn ≤ v.frontier)) = true
      · rw [if_pos skipped]
        exact LiveView.Grown.refl v
      · rw [if_neg skipped] at dead ⊢
        cases stale : v.stale with
        | some reason => simp only [stale, LiveView.markStale, reduceCtorEq] at dead
        | none =>
            cases failed : v.failed with
            | some message => simp only [stale, failed, LiveView.recordFailure, reduceCtorEq] at dead
            | none =>
                cases executed : inSubtransaction (faults.executing v.row.id tx.endLsn v.ops)
                    (execute pf v.row.spec v.row.storage v.ops) with
                | error message =>
                    simp only [stale, failed, executed, LiveView.recordFailure, reduceCtorEq] at dead
                | ok result =>
                    simp only [Bool.or_eq_true, decide_eq_true_eq, not_or, Nat.not_le] at skipped
                    refine ⟨rfl, Nat.le_add_right _ _, skipped.2.le, fun numbered => ⟨?_, ?_, ?_⟩⟩
                    · show v.lastSeq + _ = v.row.lastSeq + (v.pending ++ _).length
                      rw [List.length_append, numbered.count, Nat.add_assoc]
                    · intro d member
                      rcases List.mem_append.mp member with earlier | new
                      · have bound := numbered.bound d earlier
                        exact ⟨bound.1.trans (Nat.le_add_right _ _), bound.2.trans skipped.2.le⟩
                      · obtain ⟨_, upTo, lsn⟩ := mem_numberDeltas new
                        refine ⟨?_, lsn.le⟩
                        show d.seq ≤ v.lastSeq + (numberDeltas tx v.lastSeq (net pf v.row.spec result.2)).length
                        rwa [length_numberDeltas]
                    · exact fun _ => List.append_ne_nil_of_right_ne_nil _ (List.cons_ne_nil _ _)

theorem replay_grown (events : List ViewEvent) (v : LiveView) :
    v.Grown (LiveView.replay pf settings faults events v) := by
  induction events generalizing v with
  | nil => exact LiveView.Grown.refl v
  | cons event events ih =>
      refine LiveView.Grown.trans ?_ (ih (v.handle pf settings faults event))
      cases event with
      | plan e position relid tables rel change old =>
          exact (planView_kept pf faults e position relid tables rel change old v).sameWork.grown
      | lost relid rel message => exact (shadowLost_kept 0 relid rel message v).sameWork.grown
      | execute tx => exact executeView_grown tx v

end Nabla
