import Nabla.Identity
import Nabla.Delivery

/-! Projections over one table through the rounds of the worker: between two source
transactions a live one holds its query as of its own frontier. -/
namespace Nabla
open Bags

variable {pf : Platform} {S : Schema pf} {identity : Nat → Option (List String)} {base : BaseRelation}
  {settings : Settings} {faults : Faults} {rels : List (Nat × Relation)} {e position relid : Nat} {change : Change} {v : LiveView}

theorem planView_single (single : v.row.spec.isJoin = false) (tables : Nat → Option (List BaseRow)) (rel : Relation)
    (oldFull : Except String (Option Tuple)) :
    planView pf faults e position relid tables rel change oldFull v =
      planView pf faults e position relid (fun _ => none) rel change (.ok none) v := by
  simp only [planView, planChange, single, Bool.false_eq_true, if_false]

theorem shadowLost_single (single : v.row.spec.isJoin = false) (relid : Nat) (rel : Relation) (message : String) :
    shadowLost relid rel message v = v := by
  simp only [shadowLost, single, Bool.false_and, Bool.false_eq_true, if_false]

theorem applyRelid_single {st st' : RoundState} (applied : applyRelid pf faults rels e position change relid st = .ok st') :
    ∃ rel, rels.lookup relid = some rel ∧ List.Forall₂ (fun v v' => v.row.spec.isJoin = false →
      v' = planView pf faults e position relid (fun _ => none) rel change (.ok none) v) st.views st'.views := by
  obtain ⟨rel, described, step⟩ := applyRelid_ok applied
  have planned : List.Forall₂ (fun v v' => v.row.spec.isJoin = false →
      v' = planView pf faults e position relid (fun _ => none) rel change (.ok none) v)
      st.views (plannedViews pf faults e position relid rel change st) :=
    forall₂_map_right _ fun v _ single => planView_single single _ rel _
  refine ⟨rel, described, ?_⟩
  cases step with
  | unread => exact planned
  | absorbed => exact planned
  | lost =>
      rw [List.forall₂_map_right_iff]
      refine planned.imp fun v v' eq single => ?_
      have row := (planView_kept pf faults e position relid (fun _ => none) rel change (.ok none) v).row
      rw [eq single, shadowLost_single]
      rwa [row]

theorem planView_idle {rel : Relation} {tables : Nat → Option (List BaseRow)} {oldFull : Except String (Option Tuple)}
    (idle : v.stale = none → v.failed = none → v.row.spec.relationIndex relid = none) :
    planView pf faults e position relid tables rel change oldFull v = v := by
  unfold planView
  rw [if_pos]
  rw [Bool.or_eq_true]
  right
  rw [Bool.not_eq_true', ← Bool.not_eq_true, LiveView.activeFor]
  simp only [Bool.and_eq_true, Option.isNone_iff_eq_none, decide_eq_true_eq]
  rintro ⟨⟨⟨sound, fresh⟩, _⟩, reads⟩
  rw [idle fresh sound] at reads
  exact Bool.false_ne_true reads

theorem planView_due {rel : Relation} (single : v.row.spec.isJoin = false) (alive : v.dead = false) (behind : v.frontier < e)
    (fresh : v.stale = none) (sound : v.failed = none) {i : Nat} (index : v.row.spec.relationIndex relid = some i) :
    planView pf faults e position relid (fun _ => none) rel change (.ok none) v =
      match inSubtransaction (faults.plan v.row.id e position relid) (planSingleChange pf v rel change) with
      | .ok (.ops ops) => { v with ops := v.ops ++ ops }
      | .ok (.stale reason) => { v with stale := some reason }
      | .error message => { v with failed := some message } := by
  have active : (v.dead || !v.activeFor relid e) = false := by
    rw [LiveView.activeFor, alive, fresh, sound, index, decide_eq_true behind]
    rfl
  have planned : planChange pf (fun _ => none) v rel change none = planSingleChange pf v rel change := if_neg (ne_true_of_eq_false single)
  rw [← planned]
  exact planView_active active none

/-- Within a source transaction that ends at `e`: executing what the view has planned so far
gives its query over `db`. -/
def LiveView.Tracks (pf : Platform) (faults : Faults) (e : Nat) (db : Database) (v : LiveView) : Prop :=
  v.dead = false → v.frontier < e →
    (faults = Faults.none → v.failed = none) ∧ (v.stale = none → v.failed = none → v.Pending pf db)

/-- What planning these changes makes of a view: a projection of the table tracks it. -/
structure LiveView.Goes (S : Schema pf) (identity : Nat → Option (List String)) (base : BaseRelation) (faults : Faults) (e : Nat)
    (changes : List RowChange) (db db' : Database) (v v' : LiveView) : Prop where
  kept : v.Kept e v'
  tracks : v.row.spec.Projects S base → (∀ rc ∈ changes, v.row.spec.Keeps S identity base rc) →
    v.Tracks pf faults e db → v'.Tracks pf faults e db'

theorem LiveView.Goes.trans {changes changes' : List RowChange} {db db₁ db₂ : Database} {v v₁ v₂ : LiveView}
    (first : v.Goes S identity base faults e changes db db₁ v₁) (second : v₁.Goes S identity base faults e changes' db₁ db₂ v₂) :
    v.Goes S identity base faults e (changes ++ changes') db db₂ v₂ where
  kept := first.kept.trans second.kept
  tracks := by
    intro projects keeps tracks
    apply second.tracks
    · rwa [first.kept.row]
    · rw [first.kept.row]
      exact fun rc member => keeps rc (List.mem_append_right _ member)
    · exact first.tracks projects (fun rc member => keeps rc (List.mem_append_left _ member)) tracks

/-- The rows of one more change are executed after those planned before. -/
theorem ViewSpec.Takes.pending {db db' : Database} {ops : List Op} (takes : v.row.spec.Takes pf db db' ops)
    (pending : v.Pending pf db) : LiveView.Pending pf db' { v with ops := v.ops ++ ops } := by
  obtain ⟨storage, deltas, executed, stored⟩ := pending
  obtain ⟨storage', more, added, stored'⟩ := takes storage stored
  refine ⟨storage', deltas ++ more, ?_, stored'⟩
  simp only [execute_append, executed, added, Except.map]

theorem planView_goes {db : Database} (ok : S.DatabaseOk db) {rc : RowChange} (sends : Sends S identity rc change)
    (valid : S.Valid db rc) (relids : rc.relids = [relid]) (kind : ∀ all, rc ≠ .truncate all) :
    v.Goes S identity base faults e [rc] db (S.step db rc)
      (planView pf faults e position relid (fun _ => none) (S.relation relid) change (.ok none) v) := by
  have kept := planView_kept pf faults e position relid (fun _ => none) (S.relation relid) change (.ok none) v
  refine ⟨kept, fun projects keeps tracks alive' behind' => ?_⟩
  rw [kept.dead] at alive'
  rw [kept.frontier] at behind'
  obtain ⟨calm, pending⟩ := tracks alive' behind'
  by_cases here : relid = base.oid
  · subst here
    by_cases fresh : v.stale = none ∧ v.failed = none
    · rw [planView_due projects.notJoin alive' behind' fresh.1 fresh.2 projects.index]
      cases fault : faults.plan v.row.id e position base.oid with
      | some message =>
          refine ⟨fun none => ?_, fun _ failed => by cases failed⟩
          rw [none] at fault
          cases fault
      | none =>
          have within : base.oid ∈ rc.relids := relids ▸ List.mem_cons_self
          rcases projects.plans rfl ok sends valid (keeps rc List.mem_cons_self) within with ⟨reason, planned⟩ | ⟨ops, planned, _, takes⟩
          · simp only [inSubtransaction, planned]
            exact ⟨calm, fun stale => by cases stale⟩
          · simp only [inSubtransaction, planned]
            exact ⟨calm, fun stale failed => takes.pending (pending stale failed)⟩
    · rw [planView_idle fun stale failed => absurd ⟨stale, failed⟩ fresh]
      exact ⟨calm, fun stale failed => absurd ⟨stale, failed⟩ fresh⟩
  · have unused : v.row.spec.relationIndex relid = none := by
      rw [ViewSpec.relationIndex, projects.single, List.findIdx?_cons, decide_eq_false fun same => here same.symm]
      rfl
    rw [planView_idle fun _ _ => unused]
    exact ⟨calm, fun stale failed => (pending stale failed).other unused fun r other => S.step_other db relids kind other⟩

/-- A view comes through the relations of a TRUNCATE only when its table is not among them. -/
structure LiveView.Spared (base : BaseRelation) (faults : Faults) (relids : List Nat) (v v' : LiveView) : Prop where
  calm : faults = Faults.none → v.failed = none → v'.failed = none
  same : v'.stale = none → v'.failed = none → base.oid ∉ relids ∧ v' = v

theorem planView_spared (projects : v.row.spec.Projects S base) (alive : v.dead = false) (behind : v.frontier < e) (all : List Nat) :
    v.Spared base faults [relid] (planView pf faults e position relid (fun _ => none) (S.relation relid) (.truncate all) (.ok none) v) := by
  by_cases here : relid = base.oid
  · subst here
    by_cases fresh : v.stale = none ∧ v.failed = none
    · rw [planView_due projects.notJoin alive behind fresh.1 fresh.2 projects.index]
      cases fault : faults.plan v.row.id e position base.oid with
      | some message =>
          refine ⟨fun none => ?_, fun _ => nofun⟩
          rw [none] at fault
          exact absurd fault nofun
      | none => exact ⟨fun _ sound => sound, nofun⟩
    · rw [planView_idle fun stale failed => absurd ⟨stale, failed⟩ fresh]
      exact ⟨fun _ sound => sound, fun stale failed => absurd ⟨stale, failed⟩ fresh⟩
  · have unused : v.row.spec.relationIndex relid = none := by
      rw [ViewSpec.relationIndex, projects.single, List.findIdx?_cons, decide_eq_false fun same => here same.symm]
      rfl
    rw [planView_idle fun _ _ => unused]
    exact ⟨fun _ sound => sound, fun _ _ => ⟨fun within => here (List.mem_singleton.mp within).symm, rfl⟩⟩

section Relids

variable (known : ∀ p ∈ rels, p.2 = S.relation p.1)
include known

theorem applyRelid_planned {st st' : RoundState} (applied : applyRelid pf faults rels e position change relid st = .ok st') :
    List.Forall₂ (fun v v' => v.Kept e v' ∧ (v.row.spec.isJoin = false →
      v' = planView pf faults e position relid (fun _ => none) (S.relation relid) change (.ok none) v)) st.views st'.views := by
  obtain ⟨rel, described, planned⟩ := applyRelid_single applied
  obtain rfl : rel = S.relation relid := by
    have listed := lookup_known known (Option.isSome_iff_exists.mpr ⟨rel, described⟩)
    exact Option.some.inj (described.symm.trans listed)
  exact forall₂_both (applyRelid_views applied) planned

theorem applyRelids_spared (base : BaseRelation) {all relids : List Nat} {st st' : RoundState}
    (applied : applyRelids pf faults rels e position (.truncate all) relids st = .ok st') :
    List.Forall₂ (fun v v' => v.Kept e v' ∧ (v.row.spec.Projects S base → v.dead = false → v.frontier < e →
      v.Spared base faults relids v')) st.views st'.views := by
  induction relids generalizing st with
  | nil =>
      obtain rfl := Except.ok.inj applied
      exact List.forall₂_same.mpr fun v _ => ⟨LiveView.Kept.refl e v, fun _ _ _ =>
        ⟨fun _ sound => sound, fun _ _ => ⟨List.not_mem_nil, rfl⟩⟩⟩
  | cons relid relids ih =>
      rw [applyRelids] at applied
      cases first : applyRelid pf faults rels e position (.truncate all) relid st with
      | error message => simp only [first, reduceCtorEq] at applied
      | ok between =>
          simp only [first] at applied
          refine forall₂_trans ?_ (applyRelid_planned known first) (ih applied)
          rintro v v₁ v' ⟨kept₁, planned⟩ ⟨kept, later⟩
          refine ⟨kept₁.trans kept, fun projects alive behind => ?_⟩
          have here : v.Spared base faults [relid] v₁ := by
            rw [planned projects.notJoin]
            exact planView_spared projects alive behind all
          have rest := later (kept₁.row ▸ projects) (kept₁.dead.trans alive) (kept₁.frontier ▸ behind)
          refine ⟨fun calm sound => rest.calm calm (here.calm calm sound), fun stale failed => ?_⟩
          obtain ⟨apart, rfl⟩ := rest.same stale failed
          obtain ⟨other, rfl⟩ := here.same stale failed
          refine ⟨fun within => ?_, rfl⟩
          rcases List.mem_cons.mp within with same | member
          · exact other (List.mem_singleton.mpr same)
          · exact apart member

theorem applyRelids_goes (base : BaseRelation) {db : Database} (ok : S.DatabaseOk db) {rc : RowChange} (sends : Sends S identity rc change)
    (valid : S.Valid db rc) {st st' : RoundState} (applied : applyRelids pf faults rels e position change change.relids st = .ok st') :
    List.Forall₂ (LiveView.Goes S identity base faults e [rc] db (S.step db rc)) st.views st'.views := by
  have single : ∀ {relid : Nat}, change.relids = [relid] → rc.relids = [relid] → (∀ all, rc ≠ .truncate all) →
      List.Forall₂ (LiveView.Goes S identity base faults e [rc] db (S.step db rc)) st.views st'.views := by
    intro relid only relids kind
    rw [only, applyRelids] at applied
    cases first : applyRelid pf faults rels e position change relid st with
    | error message => simp only [first, reduceCtorEq] at applied
    | ok between =>
        simp only [first] at applied
        obtain rfl := Except.ok.inj applied
        refine (applyRelid_planned known first).imp fun v v' step => ⟨step.1, fun projects => ?_⟩
        have goes : v.Goes S identity base faults e [rc] db (S.step db rc) v' := by
          rw [step.2 projects.notJoin]
          exact planView_goes ok sends valid relids kind
        exact goes.tracks projects
  cases sends with
  | insert | deleteFull | deleteKey | updateFull | updateKey | update => exact single rfl rfl (by rintro _ ⟨⟩)
  | @truncate relids =>
      refine (applyRelids_spared known base applied).imp fun v v' step => ⟨step.1, fun projects _ tracks alive' behind' => ?_⟩
      obtain ⟨kept, spared⟩ := step
      have alive : v.dead = false := kept.dead ▸ alive'
      have behind : v.frontier < e := kept.frontier ▸ behind'
      obtain ⟨calm, pending⟩ := tracks alive behind
      have spares := spared projects alive behind
      refine ⟨fun none => spares.calm none (calm none), fun stale failed => ?_⟩
      obtain ⟨apart, rfl⟩ := spares.same stale failed
      obtain ⟨storage, deltas, executed, stored⟩ := pending stale failed
      have untouched : v'.row.spec.tablesOf (S.step db (.truncate relids)) = v'.row.spec.tablesOf db := by
        rw [ViewSpec.tablesOf, ViewSpec.tablesOf, projects.single, List.map_singleton, List.map_singleton]
        exact congrArg (fun rows => [rows]) (if_neg apart)
      exact ⟨storage, deltas, executed, untouched ▸ stored⟩

theorem applyChanges_goes (base : BaseRelation) {db : Database} (ok : S.DatabaseOk db) {rcs : List RowChange} {changes : List Change}
    (sends : List.Forall₂ (Sends S identity) rcs changes) (valid : S.ValidRun db rcs) {st st' : RoundState}
    (applied : applyChanges pf faults rels e position changes st = .ok st') :
    List.Forall₂ (LiveView.Goes S identity base faults e rcs db (S.run db rcs)) st.views st'.views := by
  induction sends generalizing db position st with
  | nil =>
      obtain rfl := Except.ok.inj applied
      exact List.forall₂_same.mpr fun v _ => ⟨LiveView.Kept.refl e v, fun _ _ tracks => tracks⟩
  | @cons rc change rcs changes sent _ ih =>
      rw [applyChanges] at applied
      cases first : applyRelids pf faults rels e position change change.relids st with
      | error message => simp only [first, reduceCtorEq] at applied
      | ok between =>
          simp only [first] at applied
          exact forall₂_trans (fun v v₁ v' here later => here.trans later) (applyRelids_goes known base ok sent valid.1 first)
            (ih (S.step_ok ok valid.1) valid.2 applied)

end Relids

/-- The changes between two positions leave no old row behind and insert what `jsonb` carries. -/
def ViewSpec.KeepsRows (S : Schema pf) (identity : Nat → Option (List String)) (base : BaseRelation) (spec : ViewSpec)
    (ts : List BaseTransaction) (since upto : Nat) : Prop :=
  ∀ t ∈ ts, since < t.endLsn → t.endLsn ≤ upto → ∀ rc ∈ t.changes, spec.Keeps S identity base rc

/-- A view of the round after the transactions `pre`, as far as it has come up to `upto`. -/
structure LiveView.Exact (h : History S) (faults : Faults) (since upto : Nat) (pre : List BaseTransaction) (v : LiveView) : Prop where
  populated : since ≤ v.frontier
  holds : v.frontier ≤ upto → v.row.Holds (h.asOf v.frontier)
  passed : v.dead = false → ∀ u ∈ pre, u.endLsn ≤ v.frontier
  ready : v.dead = false → v.ops = [] ∧ v.failed = none ∧ v.row.status = .live
  drops : faults = Faults.none → (∀ u ∈ pre, u.endLsn ≤ upto) → v.dead = true → v.row.status = .stale

section Transaction

variable {h : History S} {pre rest : List BaseTransaction} {t : BaseTransaction} {tx : SourceTransaction} {since upto : Nat}

theorem LiveView.Exact.executed (exact : v.Exact h faults since upto pre) (split : h.commits = pre ++ t :: rest)
    (endLsn : tx.endLsn = t.endLsn) {v₁ : LiveView} (kept : v.Kept t.endLsn v₁)
    (tracks : t.endLsn ≤ upto → v₁.Tracks pf faults t.endLsn (h.asOf t.endLsn)) :
    (executeView pf settings faults tx v₁).Exact h faults since upto (pre ++ [t]) := by
  have outcome := executeView_outcome pf settings faults endLsn kept
  have calms : faults = Faults.none → t.endLsn ≤ upto → v.dead = false → v.frontier < t.endLsn →
      (executeView pf settings faults tx v₁).dead = true → (executeView pf settings faults tx v₁).row.status = .stale := by
    rintro rfl low alive behind
    have alive₁ : v₁.dead = false := kept.dead.trans alive
    obtain ⟨sound, pending⟩ := tracks low alive₁ (kept.frontier ▸ behind)
    exact executeView_calm (sound rfl) pending alive₁
  have reaches : t.endLsn ≤ upto → v.dead = false → v.frontier < t.endLsn →
      (executeView pf settings faults tx v₁).frontier = t.endLsn → (executeView pf settings faults tx v₁).row.Holds (h.asOf t.endLsn) := by
    intro low alive behind done
    have behind₁ : v₁.frontier < t.endLsn := kept.frontier ▸ behind
    obtain ⟨_, pending⟩ := tracks low (kept.dead.trans alive) behind₁
    exact executeView_holds pending (endLsn ▸ behind₁) (endLsn ▸ done)
  generalize executeView pf settings faults tx v₁ = v' at outcome calms reaches
  cases outcome with
  | skipped idle dead row frontier _ ops failed _ =>
      refine ⟨frontier ▸ exact.populated, ?_, ?_, ?_, ?_⟩
      · rw [frontier, row]
        exact exact.holds
      · intro alive u member
        rw [dead] at alive
        rw [frontier]
        rcases List.mem_append.mp member with before | last
        · exact exact.passed alive u before
        · rw [List.mem_singleton.mp last]
          exact idle.resolve_left fun gone => Bool.false_ne_true (alive.symm.trans gone)
      · rw [dead, ops, failed, row]
        exact exact.ready
      · intro none low
        rw [dead, row]
        exact exact.drops none fun u member => low u (List.mem_append_left _ member)
  | dropped alive behind dead same storage frontier =>
      have gone : v'.dead ≠ false := fun alive' => Bool.false_ne_true (alive'.symm.trans dead)
      refine ⟨frontier ▸ exact.populated, ?_, fun alive' => absurd alive' gone, fun alive' => absurd alive' gone, ?_⟩
      · rw [frontier, ViewRow.Holds, storage, same.spec]
        exact exact.holds
      · exact fun none low => calms none (low t (List.mem_append_right _ List.mem_cons_self)) alive behind
  | absorbed alive behind fresh dead stale failed ops same status frontier =>
      refine ⟨?_, ?_, ?_, fun _ => ⟨ops, failed, status.trans (exact.ready alive).2.2⟩, ?_⟩
      · rw [frontier]
        exact exact.populated.trans behind.le
      · intro low
        rw [frontier] at low ⊢
        exact reaches low alive behind frontier
      · intro _ u member
        rw [frontier]
        rcases List.mem_append.mp member with before | last
        · exact (h.before split before).le
        · exact (congrArg BaseTransaction.endLsn (List.mem_singleton.mp last)).le
      · exact fun _ _ dead' => absurd (dead.symm.trans dead') Bool.false_ne_true

/-- What the transactions that take `pre` to `pre'` make of a view. -/
structure LiveView.Onward (h : History S) (identity : Nat → Option (List String)) (base : BaseRelation) (faults : Faults)
    (pre pre' : List BaseTransaction) (v v' : LiveView) : Prop where
  spec : v'.row.spec = v.row.spec
  exact : v.row.spec.Projects S base → ∀ since upto, v.row.spec.KeepsRows S identity base h.commits since upto →
    v.Exact h faults since upto pre → v'.Exact h faults since upto pre'

theorem applyTransaction_onward (base : BaseRelation) (known : ∀ p ∈ rels, p.2 = S.relation p.1) (split : h.commits = pre ++ t :: rest)
    (sends : TransactionSends S identity t tx) {st st' : RoundState} {blocked : Bool}
    (applied : applyTransaction pf settings faults rels tx st = .ok (st', blocked)) :
    List.Forall₂ (LiveView.Onward h identity base faults pre (pre ++ [t])) st.views st'.views := by
  obtain ⟨endLsn, changes⟩ := sends
  unfold applyTransaction at applied
  cases changed : applyChanges pf faults rels tx.endLsn 0 tx.changes st with
  | error message => simp only [changed, Except.map, reduceCtorEq] at applied
  | ok planned =>
      simp only [changed, Except.map, Except.ok.injEq, Prod.mk.injEq] at applied
      obtain ⟨rfl, -⟩ := applied
      obtain ⟨ok, valid⟩ := h.valid_at split
      rw [endLsn] at changed
      rw [List.forall₂_map_right_iff]
      refine (applyChanges_goes known base ok changes valid changed).imp fun v v₁ goes => ?_
      have outcome := executeView_outcome pf settings faults endLsn goes.kept
      refine ⟨outcome.same.spec, fun projects since upto keeps exact => exact.executed split endLsn goes.kept ?_⟩
      intro low alive₁ behind₁
      have alive : v.dead = false := goes.kept.dead ▸ alive₁
      have behind : v.frontier < t.endLsn := goes.kept.frontier ▸ behind₁
      have member : t ∈ h.commits := split ▸ List.mem_append_right _ List.mem_cons_self
      have before : v.Tracks pf faults t.endLsn (S.through h.start pre) := by
        intro _ _
        obtain ⟨empty, sound, _⟩ := exact.ready alive
        have holds := exact.holds (behind.le.trans low)
        rw [h.asOf_before split (exact.passed alive) behind] at holds
        exact ⟨fun _ => sound, fun _ _ => LiveView.pending_of_holds pf holds empty⟩
      have after := goes.tracks projects (keeps t member (exact.populated.trans_lt behind) low) before
      rw [← h.asOf_through split] at after
      exact after alive₁ behind₁

theorem applyTransactions_onward (base : BaseRelation) (known : ∀ p ∈ rels, p.2 = S.relation p.1) {ts : List BaseTransaction} {txs : List SourceTransaction}
    (split : h.commits = pre ++ ts ++ rest) (sends : List.Forall₂ (TransactionSends S identity) ts txs) {ti : Nat}
    {st st' : RoundState} {blockedAt : Option Nat}
    (ran : applyTransactions pf settings faults rels ti txs st = .ok (st', blockedAt)) :
    List.Forall₂ (LiveView.Onward h identity base faults pre (pre ++ ts)) st.views st'.views := by
  induction sends generalizing pre ti st blockedAt with
  | nil =>
      obtain ⟨rfl, -⟩ := Prod.mk.inj (Except.ok.inj ran)
      rw [List.append_nil]
      exact List.forall₂_same.mpr fun v _ => ⟨rfl, fun _ _ _ _ exact => exact⟩
  | @cons t tx ts txs sent _ ih =>
      have here : h.commits = pre ++ t :: (ts ++ rest) := by
        simpa only [List.append_assoc, List.cons_append] using split
      have later : h.commits = pre ++ [t] ++ ts ++ rest := by
        simpa only [List.append_assoc, List.cons_append, List.nil_append] using split
      rw [applyTransactions] at ran
      cases first : applyTransaction pf settings faults rels tx st with
      | error message => simp only [first, reduceCtorEq] at ran
      | ok step =>
          obtain ⟨st₁, blocked⟩ := step
          simp only [first] at ran
          obtain ⟨⟨st₂, blockedAt'⟩, more, eq⟩ := ok_of_map ran
          obtain ⟨rfl, -⟩ := Prod.mk.inj eq
          refine forall₂_trans (fun v v₁ v' step rest => ⟨rest.spec.trans step.spec, fun projects since upto keeps exact => ?_⟩)
            (applyTransaction_onward base known here sent first) (ih later more)
          have between := step.exact projects since upto keeps exact
          have final := rest.exact (step.spec ▸ projects) since upto (step.spec ▸ keeps) between
          rwa [List.append_assoc, List.singleton_append] at final

end Transaction

end Nabla
