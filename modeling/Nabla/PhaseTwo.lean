import Nabla.PhaseOne

/-! Phase 2 of a source transaction: each view's planned rows are executed, and the
views and shadows that absorbed the transaction move to its end. -/
namespace Nabla
open Bags

variable {pf : Platform} {S : Schema pf}

/-- The storage table holds the view's query over `db`. -/
def ViewRow.Holds (row : ViewRow) (db : Database) : Prop :=
  row.storage.Perm (row.spec.output (row.spec.contents (row.spec.tablesOf db)))

theorem LiveView.pending_of_holds (pf : Platform) {v : LiveView} {db : Database} (holds : v.row.Holds db)
    (empty : v.ops = []) : v.Pending pf db := by
  refine ⟨v.row.storage, [], ?_, holds⟩
  rw [empty]
  rfl

/-- A round writes a view's storage and the state of its health, and nothing else
before the bookkeeping. -/
def ViewRow.Same (row row' : ViewRow) : Prop :=
  row' = { row with
    storage := row'.storage
    status := row'.status
    staleReason := row'.staleReason
    applyFailures := row'.applyFailures
    lastError := row'.lastError }

theorem ViewRow.Same.id {row row' : ViewRow} (same : row.Same row') : row'.id = row.id := by rw [same]

theorem ViewRow.Same.spec {row row' : ViewRow} (same : row.Same row') : row'.spec = row.spec := by rw [same]

theorem ViewRow.Same.frontier {row row' : ViewRow} (same : row.Same row') : row'.frontier = row.frontier := by
  rw [same]

theorem ViewRow.Same.of_eq {row row' : ViewRow} (eq : row' = row) : row.Same row' := by rw [ViewRow.Same, eq]

theorem ViewRow.Same.trans {row row' row'' : ViewRow} (first : row.Same row') (second : row'.Same row'') :
    row.Same row'' := by
  rw [ViewRow.Same, second, first]

/-- What a source transaction that ends at `e` makes of a view: the view had absorbed
it already or is out of the round, it drops out here, or it absorbs it. -/
inductive LiveView.Outcome (e : Nat) (v v' : LiveView) : Prop where
  | skipped (idle : v.dead = true ∨ e ≤ v.frontier) (dead : v'.dead = v.dead) (row : v'.row = v.row)
      (frontier : v'.frontier = v.frontier) (absorbed : v'.absorbed = v.absorbed)
      (ops : v'.ops = v.ops) (failed : v'.failed = v.failed) (stale : v'.stale = none → v.stale = none)
  | dropped (alive : v.dead = false) (behind : v.frontier < e) (dead : v'.dead = true)
      (same : v.row.Same v'.row) (storage : v'.row.storage = v.row.storage)
      (frontier : v'.frontier = v.frontier) (absorbed : v'.absorbed = v.absorbed)
      (retried : v'.row.status = .live → v'.failedThisRound = true)
  | absorbed (alive : v.dead = false) (behind : v.frontier < e) (fresh : v.stale = none) (dead : v'.dead = false)
      (stale : v'.stale = none) (failed : v'.failed = none) (ops : v'.ops = []) (same : v.row.Same v'.row)
      (status : v'.row.status = v.row.status) (frontier : v'.frontier = e)
      (absorbed : v'.absorbed = v.absorbed ++ [e])

theorem executeView_outcome (pf : Platform) (settings : Settings) (faults : Faults) {tx : SourceTransaction} {e : Nat}
    (endLsn : tx.endLsn = e) {v₀ v : LiveView} (kept : v₀.Kept e v) :
    v₀.Outcome e (executeView pf settings faults tx v) := by
  have absorbed₀ : v.absorbed = v₀.absorbed := by rw [kept.same]
  by_cases idle : v.dead = true ∨ e ≤ v.frontier
  · have eq : executeView pf settings faults tx v = v := by
      unfold executeView
      rw [if_pos]
      simpa only [Bool.or_eq_true, decide_eq_true_eq, endLsn] using idle
    rw [eq]
    have idle₀ : v₀.dead = true ∨ e ≤ v₀.frontier := by rwa [kept.dead, kept.frontier] at idle
    obtain ⟨ops, failed⟩ := kept.idle idle₀
    exact .skipped idle₀ kept.dead kept.row kept.frontier absorbed₀ ops failed kept.stale
  · rw [not_or, Bool.not_eq_true, Nat.not_le] at idle
    obtain ⟨alive, behind⟩ := idle
    have alive₀ : v₀.dead = false := kept.dead ▸ alive
    have behind₀ : v₀.frontier < e := kept.frontier ▸ behind
    have same : ∀ {row' : ViewRow}, v.row.Same row' → v₀.row.Same row' :=
      fun same => (ViewRow.Same.of_eq kept.row).trans same
    have storage : v.row.storage = v₀.row.storage := congrArg ViewRow.storage kept.row
    have status : v.row.status = v₀.row.status := congrArg ViewRow.status kept.row
    have working : (v.dead || decide (tx.endLsn ≤ v.frontier)) = false := by
      rw [alive, endLsn, Bool.false_or, decide_eq_false (Nat.not_le.mpr behind)]
    unfold executeView
    rw [if_neg (by rw [working]; exact Bool.false_ne_true)]
    cases stale : v.stale with
    | some reason =>
        exact .dropped alive₀ behind₀ rfl (same rfl) storage kept.frontier absorbed₀ fun live => Status.noConfusion live
    | none =>
        cases failed : v.failed with
        | some message => exact .dropped alive₀ behind₀ rfl (same rfl) storage kept.frontier absorbed₀ fun _ => rfl
        | none =>
            cases inSubtransaction (faults.executing v.row.id tx.endLsn v.ops) (execute pf v.row.spec v.row.storage v.ops) with
            | error message => exact .dropped alive₀ behind₀ rfl (same rfl) storage kept.frontier absorbed₀ fun _ => rfl
            | ok result =>
                refine .absorbed alive₀ behind₀ (kept.stale stale) alive rfl rfl rfl (same rfl) status endLsn ?_
                simp only [absorbed₀, endLsn]

theorem executeView_ahead {settings : Settings} {faults : Faults} {tx : SourceTransaction} {v : LiveView}
    (ahead : tx.endLsn ≤ v.frontier) : executeView pf settings faults tx v = v := by
  simp only [executeView, decide_eq_true ahead, Bool.or_true, if_true]

theorem LiveView.Outcome.same {e : Nat} {v v' : LiveView} (outcome : v.Outcome e v') : v.row.Same v'.row := by
  cases outcome with
  | skipped _ _ row => exact ViewRow.Same.of_eq row
  | dropped _ _ _ same => exact same
  | absorbed _ _ _ _ _ _ _ same => exact same

theorem executeView_owes {settings : Settings} {faults : Faults} {tx : SourceTransaction} {e : Nat} {v : LiveView}
    (join : v.row.spec.isJoin = true) (behind : v.frontier < e)
    (done : (executeView pf settings faults tx v).frontier = e) : v.Owes e := by
  unfold executeView at done
  by_cases skipped : (v.dead || decide (tx.endLsn ≤ v.frontier)) = true
  · rw [if_pos skipped] at done
    omega
  · rw [if_neg skipped] at done
    cases stale : v.stale with
    | some reason =>
        simp only [stale, LiveView.markStale] at done
        omega
    | none =>
        cases failed : v.failed with
        | some message =>
            simp only [stale, failed, LiveView.recordFailure] at done
            omega
        | none =>
            rw [Bool.not_eq_true, Bool.or_eq_false_iff] at skipped
            exact ⟨join, skipped.1, stale, failed, behind⟩

theorem executeView_holds {settings : Settings} {faults : Faults} {tx : SourceTransaction} {v : LiveView} {db : Database}
    (pending : v.stale = none → v.failed = none → v.Pending pf db) (behind : v.frontier < tx.endLsn)
    (done : (executeView pf settings faults tx v).frontier = tx.endLsn) : (executeView pf settings faults tx v).row.Holds db := by
  unfold executeView at done ⊢
  by_cases skipped : (v.dead || decide (tx.endLsn ≤ v.frontier)) = true
  · rw [if_pos skipped] at done
    omega
  · rw [if_neg skipped] at done ⊢
    cases stale : v.stale with
    | some reason =>
        simp only [stale, LiveView.markStale] at done
        omega
    | none =>
        cases failed : v.failed with
        | some message =>
            simp only [stale, failed, LiveView.recordFailure] at done
            omega
        | none =>
            obtain ⟨storage, deltas, executed, holds⟩ := pending stale failed
            simp only [stale, failed] at done ⊢
            cases fault : faults.executing v.row.id tx.endLsn v.ops with
            | some message =>
                simp only [fault, inSubtransaction, LiveView.recordFailure] at done
                omega
            | none =>
                simp only [inSubtransaction, executed]
                exact holds

theorem executeView_calm {settings : Settings} {tx : SourceTransaction} {v : LiveView} {db : Database} (sound : v.failed = none)
    (pending : v.stale = none → v.failed = none → v.Pending pf db) (alive : v.dead = false)
    (dropped : (executeView pf settings Faults.none tx v).dead = true) :
    (executeView pf settings Faults.none tx v).row.status = .stale := by
  unfold executeView at dropped ⊢
  by_cases skipped : (v.dead || decide (tx.endLsn ≤ v.frontier)) = true
  · rw [if_pos skipped, alive] at dropped
    exact absurd dropped Bool.false_ne_true
  · rw [if_neg skipped] at dropped ⊢
    cases stale : v.stale with
    | some reason => rfl
    | none =>
        obtain ⟨storage, deltas, executed, _⟩ := pending stale sound
        simp only [stale, sound, Faults.executing_none, inSubtransaction, executed] at dropped
        exact absurd (alive.symm.trans dropped) Bool.false_ne_true

section PhaseTwo

variable {K : Tracking S} {e : Nat} {good : Nat → Prop} {footprint : Footprint} {db' : Database} {st : RoundState}

/-- A join view that absorbs the transaction holds its query over the tables after it. -/
theorem Tracking.Inside.executeView_holds (inside : K.Inside e good footprint db' st) (settings : Settings)
    (faults : Faults) {tx : SourceTransaction} (endLsn : tx.endLsn = e) {v : LiveView} (member : v ∈ st.views)
    (join : v.row.spec.isJoin = true) (behind : v.frontier < e)
    (done : (executeView pf settings faults tx v).frontier = e) :
    (executeView pf settings faults tx v).row.Holds db' := by
  have owes : v.Owes e := executeView_owes join behind done
  subst endLsn
  exact Nabla.executeView_holds (fun _ _ => (inside.views v member owes).pending) behind done

/-- Without an error of the environment a join view that owes the transaction absorbs it. -/
theorem Tracking.Inside.executeView_done (inside : K.Inside e good footprint db' st) (settings : Settings)
    {tx : SourceTransaction} (endLsn : tx.endLsn = e) {v : LiveView} (member : v ∈ st.views) (owes : v.Owes e) :
    (executeView pf settings Faults.none tx v).dead = false := by
  obtain ⟨storage, deltas, executed, _⟩ := (inside.views v member owes).pending
  have working : (v.dead || decide (tx.endLsn ≤ v.frontier)) = false := by
    rw [owes.alive, endLsn, Bool.false_or, decide_eq_false (Nat.not_le.mpr owes.behind)]
  simp only [executeView, working, Bool.false_eq_true, if_false, owes.fresh, owes.sound,
    Faults.executing_none, inSubtransaction, executed]
  exact owes.alive

end PhaseTwo

end Nabla
