import Nabla.PhaseTwo
import Nabla.Lib.Window

/-! The committed history of the publisher, and a round against it: between two source
transactions every join view holds its query as of its own frontier, and every shadow
the table as of its own. -/
namespace Nabla
open Bags

variable {pf : Platform} {S : Schema pf}

/-- The committed transactions over the published tables, in commit order. -/
structure History (S : Schema pf) where
  start : Database
  commits : List BaseTransaction
  ok : S.DatabaseOk start
  increasing : commits.Pairwise fun t u => t.endLsn < u.endLsn
  valid : S.ValidRun start (commits.flatMap BaseTransaction.changes)

def Schema.through (S : Schema pf) (db : Database) (ts : List BaseTransaction) : Database :=
  S.run db (ts.flatMap BaseTransaction.changes)

def History.asOf (h : History S) (p : Nat) : Database := S.through h.start (h.commits.filter (·.endLsn ≤ p))

/-- No transaction of the list after `origin` truncates the table. -/
def Untruncated (relid origin : Nat) (ts : List BaseTransaction) : Prop :=
  ∀ t ∈ ts, origin < t.endLsn → ∀ relids, .truncate relids ∈ t.changes → relid ∉ relids

/-- The table was not truncated after `origin` and up to `p`. -/
def History.Intact (h : History S) (relid origin p : Nat) : Prop :=
  Untruncated relid origin (h.commits.filter (·.endLsn ≤ p))

theorem History.asOf_congr (h : History S) {p q : Nat} (le : p ≤ q) (none : ∀ t ∈ h.commits, t.endLsn ≤ q → t.endLsn ≤ p) :
    h.asOf p = h.asOf q := by
  unfold History.asOf
  congr 1
  apply List.filter_congr
  intro t member
  rw [decide_eq_decide]
  exact ⟨fun low => low.trans le, none t member⟩

theorem Schema.run_append (S : Schema pf) (db : Database) (xs ys : List RowChange) :
    S.run db (xs ++ ys) = S.run (S.run db xs) ys := List.foldl_append

theorem Schema.validRun_append (S : Schema pf) {db : Database} {xs ys : List RowChange} :
    S.ValidRun db (xs ++ ys) ↔ S.ValidRun db xs ∧ S.ValidRun (S.run db xs) ys := by
  induction xs generalizing db with
  | nil => simp only [List.nil_append, Schema.ValidRun, Schema.run, List.foldl_nil, true_and]
  | cons x xs ih =>
      rw [List.cons_append, Schema.ValidRun, Schema.ValidRun, ih, and_assoc]
      rfl

theorem History.asOf_ok (h : History S) (p : Nat) : S.DatabaseOk (h.asOf p) := by
  have valid := h.valid
  rw [split_at h.increasing p, List.flatMap_append, S.validRun_append] at valid
  exact S.run_ok h.ok valid.1

section Split

variable (h : History S) {pre rest : List BaseTransaction} {t : BaseTransaction}
  (split : h.commits = pre ++ t :: rest)
include split

theorem History.before {u : BaseTransaction} (member : u ∈ pre) : u.endLsn < t.endLsn := by
  have increasing := h.increasing
  rw [split, List.pairwise_append] at increasing
  exact increasing.2.2 u member t List.mem_cons_self

theorem History.after {u : BaseTransaction} (member : u ∈ rest) : t.endLsn < u.endLsn := by
  have increasing := h.increasing
  rw [split, List.pairwise_append] at increasing
  exact List.rel_of_pairwise_cons increasing.2.1 member

/-- Up to any position short of the next transaction the history is what came before. -/
theorem History.filter_before {p : Nat} (passed : ∀ u ∈ pre, u.endLsn ≤ p) (behind : p < t.endLsn) :
    h.commits.filter (·.endLsn ≤ p) = pre := by
  rw [split, List.filter_append, List.filter_eq_self.mpr, List.filter_eq_nil_iff.mpr, List.append_nil]
  · intro u member
    rw [decide_eq_true_eq, Nat.not_le]
    rcases List.mem_cons.mp member with rfl | later
    · exact behind
    · exact behind.trans (h.after split later)
  · intro u member
    rw [decide_eq_true_eq]
    exact passed u member

theorem History.filter_through : h.commits.filter (·.endLsn ≤ t.endLsn) = pre ++ [t] := by
  have rejected : rest.filter (·.endLsn ≤ t.endLsn) = [] := by
    rw [List.filter_eq_nil_iff]
    intro u member
    rw [decide_eq_true_eq, Nat.not_le]
    exact h.after split member
  have accepted : pre.filter (·.endLsn ≤ t.endLsn) = pre := by
    rw [List.filter_eq_self]
    intro u member
    rw [decide_eq_true_eq]
    exact (h.before split member).le
  rw [split, List.filter_append, accepted, List.filter_cons_of_pos, rejected]
  rw [decide_eq_true_eq]

theorem History.asOf_before {p : Nat} (passed : ∀ u ∈ pre, u.endLsn ≤ p) (behind : p < t.endLsn) :
    h.asOf p = S.through h.start pre := by
  rw [History.asOf, h.filter_before split passed behind]

theorem History.asOf_through : h.asOf t.endLsn = S.run (S.through h.start pre) t.changes := by
  rw [History.asOf, h.filter_through split, Schema.through, Schema.through, List.flatMap_append, S.run_append,
    List.flatMap_singleton]

theorem History.intact_before {p : Nat} (passed : ∀ u ∈ pre, u.endLsn ≤ p) (behind : p < t.endLsn)
    {relid origin : Nat} : h.Intact relid origin p ↔ Untruncated relid origin pre := by
  rw [History.Intact, h.filter_before split passed behind]

theorem History.intact_through {relid origin : Nat} (before : Untruncated relid origin pre)
    (here : ∀ relids, .truncate relids ∈ t.changes → relid ∉ relids) : h.Intact relid origin t.endLsn := by
  rw [History.Intact, h.filter_through split]
  intro u member
  rcases List.mem_append.mp member with inPre | last
  · exact before u inPre
  · rw [List.mem_singleton.mp last]
    exact fun _ => here

theorem History.Intact.through {relid origin : Nat} (intact : h.Intact relid origin t.endLsn)
    (behind : origin < t.endLsn) :
    Untruncated relid origin pre ∧ ∀ relids, .truncate relids ∈ t.changes → relid ∉ relids := by
  rw [History.Intact, h.filter_through split] at intact
  exact ⟨fun u member => intact u (List.mem_append_left _ member),
    intact t (List.mem_append_right _ (List.mem_singleton_self t)) behind⟩

theorem History.valid_at : S.DatabaseOk (S.through h.start pre) ∧ S.ValidRun (S.through h.start pre) t.changes := by
  have valid := h.valid
  rw [split, List.flatMap_append, List.flatMap_cons, S.validRun_append, S.validRun_append] at valid
  exact ⟨S.run_ok h.ok valid.1, valid.2.1⟩

end Split

/-- A join view between two transactions of a round. -/
structure LiveView.Settled (h : History S) (origin : Nat → Nat) (pre : List BaseTransaction) (v : LiveView) : Prop where
  fits : v.row.spec.Fits S
  holds : v.row.Holds (h.asOf v.frontier)
  ops : v.dead = false → v.ops = []
  failed : v.dead = false → v.failed = none
  passed : v.dead = false → ∀ u ∈ pre, u.endLsn ≤ v.frontier
  intact : ∀ b ∈ v.row.spec.relations, h.Intact b.oid (origin b.oid) v.frontier
  /-- What the bookkeeping will write. -/
  ledger : v.frontier = v.absorbed.getLast?.getD v.row.frontier
  live : v.dead = false → v.row.status = .live

/-- The state of a round after the transactions `pre` of the history. `origin` tells
from where on each shadow has followed its table. -/
structure Tracking.Between (K : Tracking S) (h : History S) (origin : Nat → Nat) (pre : List BaseTransaction)
    (st : RoundState) : Prop where
  keyed : Keyed ShadowRow.relid st.shadows
  fits : ∀ s ∈ st.shadows, s.Fits S
  since : ∀ s ∈ st.shadows, origin s.relid ≤ s.frontier
  passed : ∀ s ∈ st.shadows, s.failed = false → ∀ u ∈ pre, u.endLsn ≤ s.frontier
  follows : ∀ s ∈ st.shadows, s.failed = false → h.Intact s.relid (origin s.relid) s.frontier →
    K.Follows s (h.asOf s.frontier s.relid)
  views : ∀ v ∈ st.views, v.row.spec.isJoin = true → v.Settled h origin pre

/-- A shadow that followed its table to the end of a transaction goes on from there. -/
def Tracking.Advances (K : Tracking S) (h : History S) : Prop :=
  ∀ {pre rest : List BaseTransaction} {t : BaseTransaction} {s : ShadowRow}, h.commits = pre ++ t :: rest →
    (∀ u ∈ pre, u.endLsn ≤ s.frontier) → s.frontier < t.endLsn → K.Follows s (h.asOf t.endLsn s.relid) →
    K.Follows { s with frontier := t.endLsn } (h.asOf t.endLsn s.relid)

structure ShadowRow.Moved (e : Nat) (s s' : ShadowRow) : Prop where
  relid : s'.relid = s.relid
  columns : s'.columns = s.columns
  types : s'.columnTypes = s.columnTypes
  idle : ¬ s.Active e → s' = s
  frontier : s'.frontier = s.frontier ∨ (s.frontier < e ∧ s'.frontier = e)

theorem ShadowRow.Moved.failed {e : Nat} {s s' : ShadowRow} (moved : s.Moved e s') (failed : s.failed = true) : s' = s :=
  moved.idle fun active => Bool.false_ne_true (active.1.symm.trans failed)

theorem ShadowRow.moved_advance {e : Nat} {s s' : ShadowRow} (kept : s.Kept e s') : s.Moved e (advanceShadow e s') := by
  unfold advanceShadow
  split
  · rename_i active
    rw [Bool.and_eq_true, Bool.not_eq_true', decide_eq_true_eq] at active
    exact ⟨kept.relid, kept.columns, kept.types, fun idle => absurd (kept.active active) idle, Or.inr ⟨kept.frontier ▸ active.2, rfl⟩⟩
  · exact ⟨kept.relid, kept.columns, kept.types, kept.idle, Or.inl kept.frontier⟩

/-- What a whole transaction leaves of the state of the round. -/
structure RoundState.Moved (e : Nat) (st st' : RoundState) : Prop where
  views : List.Forall₂ (LiveView.Outcome e) st.views st'.views
  shadows : List.Forall₂ (ShadowRow.Moved e) st.shadows st'.shadows
  lost : ∀ s' ∈ st'.shadows, s'.failed = true →
    (∃ s ∈ st.shadows, s.relid = s'.relid ∧ s.failed = true) ∨ st'.Lost s'.relid

/-- Every join view is in the round, and every shadow is maintained. -/
structure RoundState.Whole (st : RoundState) : Prop where
  alive : ∀ v ∈ st.views, v.row.spec.isJoin = true → v.dead = false
  fresh : ∀ v ∈ st.views, v.row.spec.isJoin = true → v.stale = none
  sound : ∀ s ∈ st.shadows, s.failed = false

theorem LiveView.Outcome.lost {e : Nat} {v v' : LiveView} (outcome : v.Outcome e v') (alive : v'.dead = false)
    (fresh : v'.stale = none) : v.dead = false ∧ v.stale = none ∧ v'.row.spec = v.row.spec := by
  cases outcome with
  | skipped _ dead row _ _ _ _ stale => exact ⟨dead ▸ alive, stale fresh, congrArg ViewRow.spec row⟩
  | dropped _ _ dead => exact absurd (alive.symm.trans dead) Bool.false_ne_true
  | absorbed alive _ fresh _ _ _ _ same => exact ⟨alive, fresh, same.spec⟩

theorem RoundState.Lost.outcome {e relid : Nat} {st st' : RoundState} (lost : st.Lost relid)
    (views : List.Forall₂ (LiveView.Outcome e) st.views st'.views) : st'.Lost relid := by
  intro v' member join reads alive fresh
  obtain ⟨v, before, outcome⟩ := mem_of_forall₂_right views member
  obtain ⟨alive₀, fresh₀, spec⟩ := outcome.lost alive fresh
  rw [spec] at join reads
  exact lost v before join reads alive₀ fresh₀

section Transaction

variable {K : Tracking S} {h : History S} {origin : Nat → Nat} {pre rest : List BaseTransaction} {t : BaseTransaction}
  {st : RoundState} {settings : Settings} {faults : Faults} {rels : List (Nat × Relation)}
  {tx : SourceTransaction}

/-- Before a transaction, what was settled is what phase 1 starts from. -/
theorem Tracking.Between.inside (between : K.Between h origin pre st) (split : h.commits = pre ++ t :: rest)
    (reads : ∀ v ∈ st.views, v.Owes t.endLsn →
      v.Placed K t.endLsn t.footprint (S.through h.start pre) st.shadows ∨ v.Behind t.endLsn t.footprint st.shadows) :
    K.Inside t.endLsn (fun r => Untruncated r (origin r) pre) t.footprint (S.through h.start pre) st where
  shadows := by
    refine ⟨between.keyed, between.fits, ?_⟩
    intro s member active intact
    have passed := between.passed s member active.1
    have follows := between.follows s member active.1 ((h.intact_before split passed active.2).mpr intact)
    rwa [h.asOf_before split passed active.2] at follows
  views := by
    intro v member owes
    have settled := between.views v member owes.join
    have passed := settled.passed owes.alive
    refine ⟨settled.fits, ?_, reads v member owes, ?_⟩
    · intro b inView
      exact (h.intact_before split passed owes.behind).mp (settled.intact b inView)
    · apply LiveView.pending_of_holds pf _ (settled.ops owes.alive)
      have holds := settled.holds
      rwa [h.asOf_before split passed owes.behind] at holds

/-- A join view after the transaction. -/
theorem LiveView.Settled.next {v₀ v : LiveView} (settled : v₀.Settled h origin pre)
    (split : h.commits = pre ++ t :: rest) (kept : v₀.Kept t.endLsn v)
    (member : v ∈ st.views) (join : v.row.spec.isJoin = true)
    (inside : K.Inside t.endLsn (goodAfter (fun r => Untruncated r (origin r) pre) t.changes) t.footprint
      (S.run (S.through h.start pre) t.changes) st)
    (endLsn : tx.endLsn = t.endLsn) :
    (executeView pf settings faults tx v).Settled h origin (pre ++ [t]) := by
  have outcome := executeView_outcome pf settings faults endLsn kept
  have later : ∀ {w : LiveView}, (∀ u ∈ pre, u.endLsn ≤ w.frontier) → t.endLsn ≤ w.frontier →
      ∀ u ∈ pre ++ [t], u.endLsn ≤ w.frontier := by
    intro w passed here u within
    rcases List.mem_append.mp within with before | last
    · exact passed u before
    · rwa [List.mem_singleton.mp last]
  generalize after : executeView pf settings faults tx v = v' at outcome
  cases outcome with
  | skipped idle dead row frontier absorbed ops failed _ =>
      refine ⟨row ▸ settled.fits, ?_, ?_, ?_, ?_, ?_, ?_, ?_⟩
      · rw [row, frontier]
        exact settled.holds
      · intro alive
        rw [ops]
        exact settled.ops (dead ▸ alive)
      · intro alive
        rw [failed]
        exact settled.failed (dead ▸ alive)
      · intro alive
        have alive₀ : v₀.dead = false := dead ▸ alive
        have ahead : t.endLsn ≤ v₀.frontier := idle.resolve_left (by rw [alive₀]; exact Bool.false_ne_true)
        apply later
        · rw [frontier]
          exact settled.passed alive₀
        · rwa [frontier]
      · rw [row, frontier]
        exact settled.intact
      · rw [row, frontier, absorbed]
        exact settled.ledger
      · intro alive
        rw [row]
        exact settled.live (dead ▸ alive)
  | dropped _ _ dead same storage frontier absorbed _ =>
      have spec := same.spec
      refine ⟨spec ▸ settled.fits, ?_, ?_, ?_, ?_, ?_, ?_, ?_⟩
      · rw [ViewRow.Holds, storage, spec, frontier]
        exact settled.holds
      · exact fun alive => absurd (alive.symm.trans dead) Bool.false_ne_true
      · exact fun alive => absurd (alive.symm.trans dead) Bool.false_ne_true
      · exact fun alive => absurd (alive.symm.trans dead) Bool.false_ne_true
      · rw [spec, frontier]
        exact settled.intact
      · rw [same.frontier, frontier, absorbed]
        exact settled.ledger
      · exact fun alive => absurd (alive.symm.trans dead) Bool.false_ne_true
  | absorbed alive behind fresh dead stale failed ops same status frontier absorbed =>
      have spec := same.spec
      have behind' : v.frontier < t.endLsn := kept.frontier ▸ behind
      have done : (executeView pf settings faults tx v).frontier = t.endLsn := by rw [after, frontier]
      have holds := inside.executeView_holds settings faults endLsn member join behind' done
      have owes : v.Owes t.endLsn := executeView_owes join behind' done
      have view := inside.views v member owes
      have spec' : v'.row.spec = v.row.spec := spec.trans (congrArg ViewRow.spec kept.row).symm
      refine ⟨spec ▸ settled.fits, ?_, fun _ => ops, fun _ => failed, ?_, ?_, ?_, fun _ => ?_⟩
      · rw [frontier, h.asOf_through split, ← after]
        exact holds
      · intro _
        apply later
        · rw [frontier]
          exact fun u within => (h.before split within).le
        · rw [frontier]
      · intro b inView
        rw [spec'] at inView
        obtain ⟨before, here⟩ := view.intact b inView
        rw [frontier]
        exact h.intact_through split before here
      · rw [frontier, absorbed, List.getLast?_concat, Option.getD_some]
      · rw [status]
        exact settled.live alive

/-- The shadows after the transaction. -/
theorem Tracking.Shadows.next {shadows : List ShadowRow}
    (tracked : K.Shadows t.endLsn (goodAfter (fun r => Untruncated r (origin r) pre) t.changes)
      (S.run (S.through h.start pre) t.changes) shadows)
    (split : h.commits = pre ++ t :: rest) (advances : K.Advances h)
    (since : ∀ s ∈ shadows, origin s.relid ≤ s.frontier)
    (passed : ∀ s ∈ shadows, s.failed = false → ∀ u ∈ pre, u.endLsn ≤ s.frontier)
    (ahead : ∀ s ∈ shadows, s.failed = false → t.endLsn ≤ s.frontier →
      h.Intact s.relid (origin s.relid) s.frontier → K.Follows s (h.asOf s.frontier s.relid)) :
    ∀ s' ∈ shadows.map (advanceShadow t.endLsn), origin s'.relid ≤ s'.frontier ∧ (s'.failed = false →
      (∀ u ∈ pre ++ [t], u.endLsn ≤ s'.frontier) ∧
      (h.Intact s'.relid (origin s'.relid) s'.frontier → K.Follows s' (h.asOf s'.frontier s'.relid))) := by
  intro s' member
  obtain ⟨s, before, rfl⟩ := List.mem_map.mp member
  have isSince := since s before
  unfold advanceShadow
  split
  · rename_i active
    rw [Bool.and_eq_true, Bool.not_eq_true', decide_eq_true_eq] at active
    refine ⟨isSince.trans active.2.le, fun sound => ⟨?_, ?_⟩⟩
    · intro u within
      rcases List.mem_append.mp within with inPre | last
      · exact (h.before split inPre).le
      · rw [List.mem_singleton.mp last]
    · intro intact
      obtain ⟨untruncated, here⟩ := History.Intact.through h split intact (isSince.trans_lt active.2)
      have follows := tracked.follows s before active ⟨untruncated, here⟩
      rw [← h.asOf_through split] at follows
      exact advances split (passed s before active.1) active.2 follows
  · rename_i idle
    refine ⟨isSince, fun sound => ?_⟩
    have reached : t.endLsn ≤ s.frontier := by
      rw [sound, Bool.not_false, Bool.true_and, decide_eq_true_eq] at idle
      exact Nat.not_lt.mp idle
    refine ⟨?_, ahead s before sound reached⟩
    intro u within
    rcases List.mem_append.mp within with inPre | last
    · exact passed s before sound u inPre
    · rwa [List.mem_singleton.mp last]

theorem ShadowRow.Fits.advance {s : ShadowRow} (fits : s.Fits S) (e : Nat) : (advanceShadow e s).Fits S := by
  unfold advanceShadow
  split
  · exact ⟨fits.pk, fits.active, fits.key, fits.provided⟩
  · exact fits

theorem advanceShadow_relid (e : Nat) (s : ShadowRow) : (advanceShadow e s).relid = s.relid := by
  unfold advanceShadow
  split <;> rfl

theorem advanceShadow_failed (e : Nat) (s : ShadowRow) : (advanceShadow e s).failed = s.failed := by
  unfold advanceShadow
  split <;> rfl

theorem RoundState.Kept.moved {e : Nat} {st planned : RoundState} (kept : st.Kept e planned) (settings : Settings)
    (faults : Faults) (endLsn : tx.endLsn = e) :
    st.Moved e ⟨planned.views.map (executeView pf settings faults tx), planned.shadows.map (advanceShadow e)⟩ where
  views := by
    rw [List.forall₂_map_right_iff]
    exact kept.views.imp fun _ _ same => executeView_outcome pf settings faults endLsn same
  shadows := by
    rw [List.forall₂_map_right_iff]
    exact kept.shadows.imp fun _ _ same => ShadowRow.moved_advance same
  lost := by
    intro s' member failed
    obtain ⟨s, before, rfl⟩ := List.mem_map.mp member
    rw [advanceShadow_failed] at failed
    rw [advanceShadow_relid]
    refine (kept.lost s before failed).imp id fun lost => lost.outcome (e := e) ?_
    rw [List.forall₂_map_right_iff]
    exact List.forall₂_same.mpr fun v _ =>
      executeView_outcome pf settings faults endLsn (LiveView.Kept.refl e v)

def RoundState.executed (pf : Platform) (settings : Settings) (faults : Faults) (tx : SourceTransaction) (planned : RoundState) : RoundState :=
  ⟨planned.views.map (executeView pf settings faults tx), planned.shadows.map (advanceShadow tx.endLsn)⟩

theorem Tracking.Between.executed {planned : RoundState} (between : K.Between h origin pre st) (split : h.commits = pre ++ t :: rest)
    (advances : K.Advances h) (endLsn : tx.endLsn = t.endLsn) (kept : st.Kept t.endLsn planned)
    (inside : K.Inside t.endLsn (goodAfter (fun r => Untruncated r (origin r) pre) t.changes) t.footprint
      (S.run (S.through h.start pre) t.changes) planned) (settings : Settings) (faults : Faults) :
    K.Between h origin (pre ++ [t]) (planned.executed pf settings faults tx) := by
  have since : ∀ s ∈ planned.shadows, origin s.relid ≤ s.frontier := by
    intro s member
    obtain ⟨s₀, before, same⟩ := mem_of_forall₂_right kept.shadows member
    rw [same.relid, same.frontier]
    exact between.since s₀ before
  have unfailed : ∀ s ∈ planned.shadows, s.failed = false → ∃ s₀ ∈ st.shadows, s₀.Kept t.endLsn s ∧
      s₀.failed = false := by
    intro s member sound
    obtain ⟨s₀, before, same⟩ := mem_of_forall₂_right kept.shadows member
    refine ⟨s₀, before, same, ?_⟩
    by_contra failed
    rw [same.idle fun active => failed active.1] at sound
    exact failed sound
  have passed : ∀ s ∈ planned.shadows, s.failed = false → ∀ u ∈ pre, u.endLsn ≤ s.frontier := by
    intro s member sound
    obtain ⟨s₀, before, same, sound₀⟩ := unfailed s member sound
    rw [same.frontier]
    exact between.passed s₀ before sound₀
  have ahead : ∀ s ∈ planned.shadows, s.failed = false → t.endLsn ≤ s.frontier →
      h.Intact s.relid (origin s.relid) s.frontier → K.Follows s (h.asOf s.frontier s.relid) := by
    intro s member sound reached
    obtain ⟨s₀, before, same, sound₀⟩ := unfailed s member sound
    rw [same.idle fun active => Nat.not_lt.mpr (same.frontier ▸ reached) active.2]
    exact between.follows s₀ before sound₀
  have next := inside.shadows.next split advances since passed ahead
  rw [RoundState.executed, endLsn]
  refine ⟨?_, ?_, fun s member => (next s member).1, fun s member sound => ((next s member).2 sound).1,
    fun s member sound => ((next s member).2 sound).2, ?_⟩
  · rw [Keyed, List.map_map]
    have same : ShadowRow.relid ∘ advanceShadow t.endLsn = ShadowRow.relid := by
      funext s
      exact advanceShadow_relid t.endLsn s
    rw [same]
    exact inside.shadows.keyed
  · intro s' member
    obtain ⟨s, before, rfl⟩ := List.mem_map.mp member
    exact (inside.shadows.fits s before).advance t.endLsn
  · intro v' member join
    obtain ⟨v, inPlanned, rfl⟩ := List.mem_map.mp member
    obtain ⟨v₀, before, same⟩ := mem_of_forall₂_right kept.views inPlanned
    have spec := (executeView_outcome pf settings faults endLsn same).same.spec
    have joined : v₀.row.spec.isJoin = true := spec ▸ join
    exact (between.views v₀ before joined).next split same inPlanned (same.row ▸ joined) inside endLsn

/-- A join view that was planned without trouble is neither dead nor stale after a calm
execution. -/
theorem Tracking.Inside.executeView_whole {e : Nat} {good : Nat → Prop} {footprint : Footprint} {db : Database} {planned : RoundState}
    (inside : K.Inside e good footprint db planned) (ready : K.Ready e planned) (settings : Settings) (endLsn : tx.endLsn = e) {v : LiveView}
    (member : v ∈ planned.views) (join : v.row.spec.isJoin = true) (alive : v.dead = false) :
    (executeView pf settings Faults.none tx v).dead = false ∧ (executeView pf settings Faults.none tx v).stale = none := by
  obtain ⟨notStale, owed⟩ := ready.views v member join alive
  by_cases behind : v.frontier < e
  · have done := inside.executeView_done settings endLsn member (owed behind).1
    refine ⟨done, ?_⟩
    cases executeView_outcome pf settings Faults.none endLsn (LiveView.Kept.refl e v) with
    | skipped idle =>
        rcases idle with dead | ahead
        · exact absurd (alive.symm.trans dead) Bool.false_ne_true
        · exact absurd ahead (Nat.not_le.mpr behind)
    | dropped _ _ dead => exact absurd (done.symm.trans dead) Bool.false_ne_true
    | absorbed _ _ _ _ stale => exact stale
  · rw [executeView_ahead (endLsn ▸ Nat.not_lt.mp behind)]
    exact ⟨alive, notStale⟩

theorem RoundState.Whole.executed {e : Nat} {good : Nat → Prop} {footprint : Footprint} {db : Database} {planned : RoundState}
    (whole : st.Whole) (kept : st.Kept e planned) (inside : K.Inside e good footprint db planned) (ready : K.Ready e planned)
    (settings : Settings) (endLsn : tx.endLsn = e) : (planned.executed pf settings Faults.none tx).Whole := by
  have outcome : ∀ v ∈ planned.views, (executeView pf settings Faults.none tx v).row.spec.isJoin = true →
      (executeView pf settings Faults.none tx v).dead = false ∧ (executeView pf settings Faults.none tx v).stale = none := by
    intro v member join
    obtain ⟨v₀, before, same⟩ := mem_of_forall₂_right kept.views member
    have joined : v.row.spec.isJoin = true :=
      (executeView_outcome pf settings Faults.none endLsn (LiveView.Kept.refl e v)).same.spec ▸ join
    exact inside.executeView_whole ready settings endLsn member joined (same.dead ▸ whole.alive v₀ before (same.row ▸ joined))
  refine ⟨?_, ?_, ?_⟩
  · intro v' member
    obtain ⟨v, inPlanned, rfl⟩ := List.mem_map.mp member
    exact fun join => (outcome v inPlanned join).1
  · intro v' member
    obtain ⟨v, inPlanned, rfl⟩ := List.mem_map.mp member
    exact fun join => (outcome v inPlanned join).2
  · intro s' member
    obtain ⟨s, before, rfl⟩ := List.mem_map.mp member
    rw [advanceShadow_failed]
    exact ready.shadows s before

/-- One source transaction of a round. -/
theorem Tracking.Between.applyTransaction (between : K.Between h origin pre st)
    (split : h.commits = pre ++ t :: rest) (advances : K.Advances h) (encodes : TransactionEncodes S t tx)
    (settings : Settings) (faults : Faults)
    (permits : ∀ s ∈ st.shadows, s.Active t.endLsn → ∀ p ∈ t.changes.zip tx.changes, s.relid ∈ p.1.relids →
      K.Permits s.relid s.frontier p.1 p.2)
    (carried : ∀ v ∈ st.views, v.Owes t.endLsn → v.row.spec.CarriedRun S (S.through h.start pre) t.changes)
    (described : ∀ change ∈ tx.changes, ∀ r ∈ change.relids, rels.lookup r = some (S.relation r))
    (reads : ∀ v ∈ st.views, v.Owes t.endLsn →
      v.Placed K t.endLsn t.footprint (S.through h.start pre) st.shadows ∨ v.Behind t.endLsn t.footprint st.shadows) :
    ∃ st' blocked, applyTransaction pf settings faults rels tx st = .ok (st', blocked) ∧
      K.Between h origin (pre ++ [t]) st' ∧ st.Moved t.endLsn st' ∧
      (Smooth faults t.changes → (∀ r, Untruncated r (origin r) pre) →
        (∀ v ∈ st.views, v.Owes t.endLsn → v.Fresh K t.endLsn st.shadows) → st.Whole → st'.Whole) := by
  obtain ⟨ok, valid⟩ := h.valid_at split
  obtain ⟨endLsn, changes⟩ := encodes
  obtain ⟨planned, applied, kept, _, inside, ready⟩ := (between.inside split reads).applyChanges faults 0 ok valid
    t.footprint_covers changes permits carried described
  refine ⟨planned.executed pf settings faults tx,
    (planned.views.zip (planned.views.map (executeView pf settings faults tx))).any fun v => mustRetry v.1 v.2,
    ?_, between.executed split advances endLsn kept inside settings faults, ?_, ?_⟩
  · rw [Nabla.applyTransaction, endLsn, applied, RoundState.executed, endLsn]
    rfl
  · rw [RoundState.executed, endLsn]
    exact kept.moved settings faults endLsn
  · intro smooth untruncated fresh whole
    have ready' := ready smooth untruncated ⟨fun v member join alive => ⟨whole.fresh v member join, fun behind =>
      have owes : v.Owes t.endLsn :=
        ⟨join, alive, whole.fresh v member join, (between.views v member join).failed alive, behind⟩
      ⟨owes, fresh v member owes⟩⟩, whole.sound⟩
    rw [smooth.1]
    exact whole.executed kept inside ready' settings endLsn

end Transaction

/-- A frontier after the transactions `done`: where it was, or further at an end. -/
def Advanced (done : List BaseTransaction) (p q : Nat) : Prop := q = p ∨ (p < q ∧ ∃ t ∈ done, q = t.endLsn)

theorem Advanced.le {done : List BaseTransaction} {p q : Nat} (advanced : Advanced done p q) : p ≤ q := by
  rcases advanced with rfl | ⟨further, _⟩
  · exact le_refl _
  · exact further.le

theorem Advanced.next {done : List BaseTransaction} {p q r e : Nat} {t : BaseTransaction} (before : Advanced done p q)
    (endLsn : t.endLsn = e) (after : r = q ∨ (q < r ∧ r = e)) : Advanced (done ++ [t]) p r := by
  rcases after with rfl | ⟨further, here⟩
  · exact before.imp id fun ⟨moved, u, member, eq⟩ => ⟨moved, u, List.mem_append_left _ member, eq⟩
  · right
    refine ⟨?_, t, List.mem_append_right _ (List.mem_singleton_self t), here.trans endLsn.symm⟩
    rcases before with same | ⟨moved, _⟩ <;> omega

/-- A frontier that has passed every transaction of a list is at the end of its last. -/
theorem Advanced.last {ts : List BaseTransaction} (ordered : ts.Pairwise fun t u => t.endLsn < u.endLsn) {p q : Nat}
    (later : ∀ t ∈ ts, p < t.endLsn) (advanced : Advanced ts p q) (passed : ∀ t ∈ ts, t.endLsn ≤ q) :
    q = (ts.getLast?.map BaseTransaction.endLsn).getD p := by
  rcases List.eq_nil_or_concat' ts with rfl | ⟨before, t, rfl⟩
  · rcases advanced with same | ⟨_, t, member, _⟩
    · exact same
    · exact absurd member List.not_mem_nil
  · have member : t ∈ before ++ [t] := List.mem_append_right _ (List.mem_singleton_self t)
    rw [List.getLast?_concat, Option.map_some, Option.getD_some]
    refine le_antisymm ?_ (passed t member)
    rcases advanced with same | ⟨_, u, inTs, eq⟩
    · exact same.le.trans (later t member).le
    · rw [eq]
      rcases List.mem_append.mp inTs with earlier | here
      · exact ((List.pairwise_append.mp ordered).2.2 u earlier t (List.mem_singleton_self t)).le
      · rw [List.mem_singleton.mp here]

/-- What the transactions `done` leave of a shadow. -/
structure ShadowRow.Since (done : List BaseTransaction) (s s' : ShadowRow) : Prop where
  relid : s'.relid = s.relid
  columns : s'.columns = s.columns
  types : s'.columnTypes = s.columnTypes
  idle : (∀ t ∈ done, ¬ s.Active t.endLsn) → s' = s
  frontier : Advanced done s.frontier s'.frontier

theorem ShadowRow.Since.failed {done : List BaseTransaction} {s s' : ShadowRow} (since : s.Since done s')
    (failed : s.failed = true) : s' = s :=
  since.idle fun _ _ active => Bool.false_ne_true (active.1.symm.trans failed)

/-- What the transactions `done` leave of the state of the round. -/
structure RoundState.Since (done : List BaseTransaction) (st st' : RoundState) : Prop where
  views : List.Forall₂ (fun v v' => v.row.Same v'.row ∧ Advanced done v.frontier v'.frontier) st.views st'.views
  shadows : List.Forall₂ (ShadowRow.Since done) st.shadows st'.shadows
  lost : ∀ s' ∈ st'.shadows, s'.failed = true →
    (∃ s ∈ st.shadows, s.relid = s'.relid ∧ s.failed = true) ∨ st'.Lost s'.relid

theorem RoundState.Since.refl (st : RoundState) : st.Since [] st where
  views := List.forall₂_same.mpr fun _ _ => ⟨ViewRow.Same.of_eq rfl, Or.inl rfl⟩
  shadows := List.forall₂_same.mpr fun _ _ => ⟨rfl, rfl, rfl, fun _ => rfl, Or.inl rfl⟩
  lost := fun s member failed => Or.inl ⟨s, member, rfl, failed⟩

theorem LiveView.Outcome.frontier {e : Nat} {v v' : LiveView} (outcome : v.Outcome e v') :
    v'.frontier = v.frontier ∨ (v.frontier < v'.frontier ∧ v'.frontier = e) := by
  cases outcome with
  | skipped _ _ _ frontier => exact Or.inl frontier
  | dropped _ _ _ _ _ frontier => exact Or.inl frontier
  | absorbed _ behind _ _ _ _ _ _ _ frontier => exact Or.inr ⟨frontier ▸ behind, frontier⟩

theorem RoundState.Since.next {done : List BaseTransaction} {t : BaseTransaction} {st st' st'' : RoundState}
    (since : st.Since done st') (moved : st'.Moved t.endLsn st'') : st.Since (done ++ [t]) st'' where
  views := forall₂_trans (fun _ _ _ before outcome => ⟨before.1.trans outcome.same,
    before.2.next rfl outcome.frontier⟩) since.views moved.views
  shadows := by
    refine forall₂_trans (fun s s' s'' before after => ?_) since.shadows moved.shadows
    refine ⟨after.relid.trans before.relid, after.columns.trans before.columns, after.types.trans before.types, ?_, ?_⟩
    · intro idle
      have same := before.idle fun u member => idle u (List.mem_append_left _ member)
      rw [after.idle (by rw [same]; exact idle t (List.mem_append_right _ (List.mem_singleton_self t))), same]
    · refine before.frontier.next rfl (after.frontier.imp id fun ⟨behind, here⟩ => ⟨?_, here⟩)
      rw [here]
      exact behind
  lost := by
    intro s'' member failed
    rcases moved.lost s'' member failed with ⟨s', member', relid, failed'⟩ | lost
    · rcases since.lost s' member' failed' with ⟨s, member, same, failed⟩ | lost
      · exact Or.inl ⟨s, member, same.trans relid, failed⟩
      · exact Or.inr (relid ▸ lost.outcome moved.views)
    · exact Or.inr lost

/-- A shadow that a view in the round reads is still to absorb what it had to absorb. -/
theorem RoundState.Since.active {done : List BaseTransaction} {start st : RoundState} (since : start.Since done st)
    (keyed : Keyed ShadowRow.relid start.shadows) {e : Nat} (passed : ∀ t ∈ done, t.endLsn < e) {v : LiveView}
    (member : v ∈ st.views) (owes : v.Owes e) {b : BaseRelation} (reads : b ∈ v.row.spec.relations)
    {s₀ : ShadowRow} (inStart : s₀ ∈ start.shadows) (here : s₀.relid = b.oid) (active : s₀.Active e) :
    ∃ s ∈ st.shadows, s₀.Since done s ∧ s.Active e := by
  obtain ⟨s, inState, after⟩ := mem_of_forall₂ since.shadows inStart
  refine ⟨s, inState, after, ?_, ?_⟩
  · by_contra failed
    rw [Bool.not_eq_false] at failed
    rcases since.lost s inState failed with ⟨s₁, inStart₁, same, failed₁⟩ | lost
    · obtain rfl := keyed.eq_of_mem inStart₁ inStart (same.trans after.relid)
      exact Bool.false_ne_true (active.1.symm.trans failed₁)
    · have index : (v.row.spec.relationIndex s.relid).isSome = true := by
        rw [Option.isSome_iff_ne_none]
        intro unused
        exact ViewSpec.relationIndex_none unused reads (here.symm.trans after.relid.symm)
      exact lost v member owes.join index owes.alive owes.fresh
  · rcases after.frontier with same | ⟨_, t, within, eq⟩
    · rw [same]
      exact active.2
    · rw [eq]
      exact passed t within

theorem RoundState.Since.idle {done : List BaseTransaction} {start st : RoundState} (since : start.Since done st)
    {e relid : Nat} (idle : ∀ s ∈ start.shadows, s.relid = relid → ¬ s.Active e) :
    ∀ s ∈ st.shadows, s.relid = relid → ¬ s.Active e := by
  intro s inState here active
  obtain ⟨s₀, inStart, after⟩ := mem_of_forall₂_right since.shadows inState
  refine idle s₀ inStart (after.relid.symm.trans here) ⟨?_, ?_⟩
  · by_contra failed
    rw [Bool.not_eq_false] at failed
    rw [after.failed failed] at active
    exact Bool.false_ne_true (active.1.symm.trans failed)
  · have behind := active.2
    rcases after.frontier with same | ⟨moved, _⟩ <;> omega

/-- What a round needs of the state before a transaction. -/
structure Tracking.Admits (K : Tracking S) (db : Database) (t : BaseTransaction) (tx : SourceTransaction)
    (st : RoundState) : Prop where
  permits : ∀ s ∈ st.shadows, s.Active t.endLsn → ∀ p ∈ t.changes.zip tx.changes, s.relid ∈ p.1.relids →
    K.Permits s.relid s.frontier p.1 p.2
  carried : ∀ v ∈ st.views, v.Owes t.endLsn → v.row.spec.CarriedRun S db t.changes
  reads : ∀ v ∈ st.views, v.Owes t.endLsn →
    v.Placed K t.endLsn t.footprint db st.shadows ∨ v.Behind t.endLsn t.footprint st.shadows

/-- The transactions of a peek, `done` of which have been gone through. -/
theorem Tracking.Between.applyTransactions {K : Tracking S} {h : History S} {origin : Nat → Nat}
    {pre done ts rest : List BaseTransaction} {st₀ st : RoundState} {rels : List (Nat × Relation)}
    {txs : List SourceTransaction} (between : K.Between h origin (pre ++ done) st) (since : st₀.Since done st)
    (split : h.commits = pre ++ done ++ ts ++ rest) (advances : K.Advances h)
    (encodes : List.Forall₂ (TransactionEncodes S) ts txs) (settings : Settings) (faults : Faults) (ti : Nat)
    (described : ∀ tx ∈ txs, ∀ change ∈ tx.changes, ∀ r ∈ change.relids, rels.lookup r = some (S.relation r))
    (admits : ∀ done' t tx st', (t, tx) ∈ ts.zip txs → (∃ todo, done ++ ts = done' ++ t :: todo) →
      st₀.Since done' st' → K.Between h origin (pre ++ done') st' →
      K.Admits (S.through h.start (pre ++ done')) t tx st') :
    ∃ st' blockedAt, applyTransactions pf settings faults rels ti txs st = .ok (st', blockedAt) ∧
      K.Between h origin (pre ++ done ++ ts) st' ∧ st₀.Since (done ++ ts) st' ∧
      (faults = Faults.none → (∀ t ∈ ts, ∀ rc ∈ t.changes, ∀ relids, rc ≠ .truncate relids) →
        (∀ r, Untruncated r (origin r) (pre ++ done)) →
        (∀ done' t st', (∃ todo, done ++ ts = done' ++ t :: todo) → st₀.Since done' st' →
          K.Between h origin (pre ++ done') st' → st'.Whole →
          ∀ v ∈ st'.views, v.Owes t.endLsn → v.Fresh K t.endLsn st'.shadows) →
        st.Whole → st'.Whole) := by
  induction encodes generalizing done st ti with
  | nil =>
      refine ⟨st, none, rfl, ?_, ?_, fun _ _ _ _ whole => whole⟩
      · rwa [List.append_nil]
      · rwa [List.append_nil]
  | @cons t tx ts txs encodes _ ih =>
      have here : h.commits = (pre ++ done) ++ t :: (ts ++ rest) := by
        simpa only [List.append_assoc, List.cons_append] using split
      have admitted := admits done t tx st List.mem_cons_self ⟨ts, rfl⟩ since between
      obtain ⟨st', blocked, applied, between', moved, whole⟩ := between.applyTransaction here advances encodes
        settings faults admitted.permits admitted.carried (described tx List.mem_cons_self) admitted.reads
      have assoc : done ++ [t] ++ ts = done ++ t :: ts := by rw [List.append_assoc, List.singleton_append]
      rw [List.append_assoc] at between'
      obtain ⟨st'', blockedAt, applied', between'', since'', whole'⟩ := ih between' (since.next moved)
        (by simpa only [List.append_assoc, List.cons_append, List.nil_append] using split) (ti + 1)
        (fun ux member => described ux (List.mem_cons_of_mem _ member))
        (by
          intro done' u ux st' member within
          rw [assoc] at within
          exact admits done' u ux st' (List.mem_cons_of_mem _ member) within)
      refine ⟨st'', if blocked then some ti else blockedAt, ?_, ?_, ?_, ?_⟩
      · simp only [Nabla.applyTransactions, applied, applied', Except.map]
      · simpa only [List.append_assoc, List.cons_append, List.nil_append] using between''
      · rwa [assoc] at since''
      · intro none kind untruncated fresh before
        have smooth : Smooth faults t.changes := ⟨none, kind t List.mem_cons_self⟩
        refine whole' none (fun u member => kind u (List.mem_cons_of_mem _ member)) ?_ ?_
          (whole smooth untruncated (fresh done t st ⟨ts, rfl⟩ since between before) before)
        · intro r u member
          rw [← List.append_assoc] at member
          rcases List.mem_append.mp member with earlier | last
          · exact untruncated r u earlier
          · rw [List.mem_singleton.mp last]
            exact fun _ relids within => absurd rfl (smooth.2 _ within relids)
        · intro done' u st' within
          rw [assoc] at within
          exact fresh done' u st' within

end Nabla
