import Nabla.Lineage
import Nabla.Round
import Nabla.Standing
import Nabla.Upkeep

/-! The replay of the missing transactions on an extended shadow, over whole runs of the
worker. -/
namespace Nabla
open Bags

variable {pf : Platform} {S : Schema pf} {settings : Settings} {faults : Faults} {rels : List (Nat × Relation)}
  {held : List String} {refill : BaseRow → String → Datum} {s₀ : ShadowRow}

/-- The change leaves the table's old row to be found, and does not truncate the table. -/
structure Told (S : Schema pf) (relid : Nat) (rc : RowChange) (change : Change) : Prop where
  relids : change.relids = rc.relids
  tells : relid ∈ rc.relids → Tells S rc change
  kept : ∀ relids, rc = .truncate relids → relid ∉ relids

/-- The shadow amid a transaction: maintained so far, or lost to the environment. -/
inductive ShadowRow.Amid (S : Schema pf) (held : List String) (refill : BaseRow → String → Datum) (s₀ : ShadowRow) (faults : Faults)
    (table : List Lineage) (s : ShadowRow) : Prop where
  | lost (failed : s.failed = true) (fault : faults ≠ Faults.none) (frontier : s.frontier = s₀.frontier)
  | maintained (same : s = { s₀ with rows := s.rows }) (extended : Extended S held refill s₀ s.rows table)

/-- All shadows of the table are in the middle of the transaction. -/
structure RoundState.Amid (S : Schema pf) (held : List String) (refill : BaseRow → String → Datum) (s₀ : ShadowRow) (faults : Faults)
    (table : List Lineage) (st : RoundState) : Prop where
  keyed : Keyed ShadowRow.relid st.shadows
  shadow : ∀ s ∈ st.shadows, s.relid = s₀.relid → ShadowRow.Amid S held refill s₀ faults table s

section Transaction

variable {e position : Nat} {st st' : RoundState} {table : List Lineage} {db : Database} {rc : RowChange} {change : Change}

theorem RelidStep.elsewhere {relid : Nat} {rel : Relation} (step : RelidStep pf faults e position relid rel change st st')
    {s : ShadowRow} (member : s ∈ st'.shadows) (other : s.relid ≠ relid) : s ∈ st.shadows := by
  cases step with
  | unread => exact member
  | absorbed | lost =>
      obtain ⟨t, within, eq⟩ := List.mem_map.mp member
      by_cases here : t.relid = relid
      · rw [if_pos here] at eq
        exact absurd (eq ▸ here) other
      · rw [if_neg here] at eq
        exact eq ▸ within

theorem RelidStep.keyed {relid : Nat} {rel : Relation} (step : RelidStep pf faults e position relid rel change st st')
    (keyed : Keyed ShadowRow.relid st.shadows) : Keyed ShadowRow.relid st'.shadows :=
  ShadowRow.Kept.keyed (step.kept keyed).shadows keyed

/-- A relation of the change that is not the shadow's. -/
theorem RoundState.Amid.elsewhere (amid : RoundState.Amid S held refill s₀ faults table st) {relid : Nat} {rel : Relation}
    (step : RelidStep pf faults e position relid rel change st st') (other : s₀.relid ≠ relid) : RoundState.Amid S held refill s₀ faults table st' where
  keyed := step.keyed amid.keyed
  shadow := fun s member here => amid.shadow s (step.elsewhere member (here ▸ other)) here

/-- The shadow's relation. -/
theorem RoundState.Amid.here (amid : RoundState.Amid S held refill s₀ faults table st) (fits : s₀.Fits S) (active : s₀.Active e)
    (tracked : table.map Lineage.row = db s₀.relid) (ok : S.DatabaseOk db) (valid : S.Valid db rc) (inChange : s₀.relid ∈ rc.relids)
    (kind : ∀ relids, rc ≠ .truncate relids) (tells : Tells S rc change)
    (step : RelidStep pf faults e position s₀.relid (S.relation s₀.relid) change st st') :
    RoundState.Amid S held refill s₀ faults (S.trace s₀.relid table (rc, change)) st' where
  keyed := step.keyed amid.keyed
  shadow := by
    -- a shadow of the table that the change finds active is maintained so far
    have found : ∀ {s}, activeShadow st.shadows s₀.relid e = some s → ∃ rows, s = { s₀ with rows := rows } ∧
        Extended S held refill s₀ rows table := by
      intro s found
      obtain ⟨member, same, isActive⟩ := activeShadow_some found
      cases amid.shadow s member same with
      | lost failed => exact absurd (failed.symm.trans isActive.1) Bool.false_ne_true.symm
      | maintained same extended => exact ⟨s.rows, same, extended⟩
    cases step with
    | unread missing =>
        intro s member same
        cases amid.shadow s member same with
        | lost failed fault frontier => exact .lost failed fault frontier
        | maintained is extended =>
            refine absurd ?_ (activeShadow_none amid.keyed missing member same)
            rw [is]
            exact active
    | @absorbed s newFull rows isFound completed maintained =>
        obtain ⟨member, same, _⟩ := activeShadow_some isFound
        obtain ⟨before, rfl, extended⟩ := found isFound
        have fits' : ShadowRow.Fits S { s₀ with rows := before } := ⟨fits.pk, fits.active, fits.key, fits.provided⟩
        have extended' : Extended S held refill { s₀ with rows := before } before table := extended.congr rfl rfl
        have absorbs := fits'.maintained ok (tracked ▸ extended'.mirrors) valid inChange tells faults e position completed
        simp only [maintained] at absorbs
        intro s' within here
        rcases mem_updateShadow amid.keyed member within with rfl | ⟨_, other⟩
        · exact .maintained rfl ((extended'.absorbs fits' tracked ok valid kind absorbs).congr rfl rfl)
        · exact absurd here other
    | @lost s newFull message isFound completed failed =>
        obtain ⟨member, same, _⟩ := activeShadow_some isFound
        obtain ⟨before, rfl, extended⟩ := found isFound
        have fits' : ShadowRow.Fits S { s₀ with rows := before } := ⟨fits.pk, fits.active, fits.key, fits.provided⟩
        have extended' : Extended S held refill { s₀ with rows := before } before table := extended.congr rfl rfl
        have fault := fits'.maintained ok (tracked ▸ extended'.mirrors) valid inChange tells faults e position completed
        simp only [failed] at fault
        intro s' within here
        rcases mem_updateShadow amid.keyed member within with rfl | ⟨_, other⟩
        · exact .lost rfl fault rfl
        · exact absurd here other

theorem RoundState.Amid.relids (amid : RoundState.Amid S held refill s₀ faults table st) {relids : List Nat} (others : s₀.relid ∉ relids)
    (applied : applyRelids pf faults rels e position change relids st = .ok st') : RoundState.Amid S held refill s₀ faults table st' := by
  induction relids generalizing st with
  | nil =>
      obtain rfl := Except.ok.inj applied
      exact amid
  | cons relid relids ih =>
      rw [List.mem_cons, not_or] at others
      rw [applyRelids] at applied
      cases first : applyRelid pf faults rels e position change relid st with
      | error message => simp only [first, reduceCtorEq] at applied
      | ok between =>
          simp only [first] at applied
          obtain ⟨rel, _, step⟩ := applyRelid_ok first
          exact ih (amid.elsewhere step others.1) others.2 applied

/-- One change of the transaction. -/
theorem RoundState.Amid.next (amid : RoundState.Amid S held refill s₀ faults table st) (fits : s₀.Fits S) (active : s₀.Active e)
    (tracked : table.map Lineage.row = db s₀.relid) (ok : S.DatabaseOk db) (valid : S.Valid db rc) (told : Told S s₀.relid rc change)
    (known : ∀ p ∈ rels, p.2 = S.relation p.1) (applied : applyRelids pf faults rels e position change change.relids st = .ok st') :
    RoundState.Amid S held refill s₀ faults (S.trace s₀.relid table (rc, change)) st' := by
  rw [told.relids] at applied
  by_cases inChange : s₀.relid ∈ rc.relids
  · have kind : ∀ relids, rc ≠ .truncate relids := by
      rintro relids rfl
      exact told.kept relids rfl inChange
    have single : rc.relids = [s₀.relid] := by
      cases rc with
      | insert r new | delete r old | update r old new => rw [RowChange.relids, List.mem_singleton.mp inChange]
      | truncate relids => exact absurd rfl (kind relids)
    rw [single, applyRelids] at applied
    cases first : applyRelid pf faults rels e position change s₀.relid st with
    | error message => simp only [first, reduceCtorEq] at applied
    | ok between =>
        simp only [first, applyRelids, Except.ok.injEq] at applied
        subst applied
        obtain ⟨rel, found, step⟩ := applyRelid_ok first
        rw [lookup_known known (found ▸ rfl), Option.some.injEq] at found
        subst found
        exact amid.here fits active tracked ok valid inChange kind (told.tells inChange) step
  · rw [S.trace_other table inChange]
    exact amid.relids inChange applied

/-- The changes of the transaction, one after the other. -/
theorem RoundState.Amid.changes (amid : RoundState.Amid S held refill s₀ faults table st) (fits : s₀.Fits S) (active : s₀.Active e)
    (tracked : table.map Lineage.row = db s₀.relid) (ok : S.DatabaseOk db) {rcs : List RowChange} {changes : List Change}
    (valid : S.ValidRun db rcs) (told : List.Forall₂ (Told S s₀.relid) rcs changes) (known : ∀ p ∈ rels, p.2 = S.relation p.1)
    (applied : applyChanges pf faults rels e position changes st = .ok st') :
    RoundState.Amid S held refill s₀ faults ((rcs.zip changes).foldl (S.trace s₀.relid) table) st' ∧
      ((rcs.zip changes).foldl (S.trace s₀.relid) table).map Lineage.row = S.run db rcs s₀.relid := by
  induction told generalizing position st table db with
  | nil =>
      obtain rfl := Except.ok.inj applied
      exact ⟨amid, tracked⟩
  | @cons rc change rcs changes first rest ih =>
      rw [applyChanges] at applied
      cases one : applyRelids pf faults rels e position change change.relids st with
      | error message => simp only [one, reduceCtorEq] at applied
      | ok between =>
          simp only [one] at applied
          exact ih (amid.next fits active tracked ok valid.1 first known one) (S.trace_rows tracked (rc, change))
            (S.step_ok ok valid.1) valid.2 applied

end Transaction

/-- The published changes after `a` and up to `b`, each with what was sent for it. -/
def History.sent (h : History S) (stream : List SourceTransaction) (a b : Nat) : List (RowChange × Change) :=
  ((h.commits.zip stream).filter fun u => decide (a < u.1.endLsn) && decide (u.1.endLsn ≤ b)).flatMap fun u => u.1.changes.zip u.2.changes

/-- The rows of a table as of `b`, with what became of their values since `a`. -/
def History.lineage (h : History S) (stream : List SourceTransaction) (relid a b : Nat) : List Lineage :=
  (h.sent stream a b).foldl (S.trace relid) (lineages (h.asOf a relid))

/-- The history goes no further than `point` where the shadow stands. -/
def History.Within (h : History S) (point : Nat) (s : ShadowRow) : Prop := ∀ t ∈ h.commits, t.endLsn ≤ s.frontier → t.endLsn ≤ point

/-- The extended shadow as the replay has it at its frontier. -/
structure ShadowRow.Replayed (held : List String) (refill : BaseRow → String → Datum) (s₀ : ShadowRow) (h : History S)
    (stream : List SourceTransaction) (s : ShadowRow) : Prop where
  same : s = { s₀ with frontier := s.frontier, rows := s.rows }
  tracked : (h.lineage stream s₀.relid s₀.frontier s.frontier).map Lineage.row = h.asOf s.frontier s₀.relid
  extended : Extended S held refill s₀ s.rows (h.lineage stream s₀.relid s₀.frontier s.frontier)

/-- The shadow after the transactions `pre`: nothing is known of it past the point. -/
structure ShadowRow.Catches (held : List String) (refill : BaseRow → String → Datum) (s₀ : ShadowRow) (h : History S)
    (stream : List SourceTransaction) (point : Nat) (faulty : Prop) (pre : List BaseTransaction) (s : ShadowRow) : Prop where
  onward : s₀.frontier ≤ s.frontier
  passed : s.failed = false → ∀ u ∈ pre, u.endLsn ≤ s.frontier
  within : h.Within point s → (s.failed = true ∧ faulty) ∨ ShadowRow.Replayed held refill s₀ h stream s

/-- Between the shadow's frontier and the point every change tells its old row, and the table
is not truncated. -/
def History.TellsRows (h : History S) (stream : List SourceTransaction) (relid since point : Nat) : Prop :=
  ∀ u ∈ h.commits.zip stream, since < u.1.endLsn → u.1.endLsn ≤ point → List.Forall₂ (Told S relid) u.1.changes u.2.changes

structure Catching (held : List String) (refill : BaseRow → String → Datum) (s₀ : ShadowRow) (h : History S)
    (stream : List SourceTransaction) (point : Nat) (faulty : Prop) (pre : List BaseTransaction) (shadows : List ShadowRow) : Prop where
  keyed : Keyed ShadowRow.relid shadows
  shadow : ∀ s ∈ shadows, s.relid = s₀.relid → ShadowRow.Catches held refill s₀ h stream point faulty pre s

theorem applyChanges_shadows {e position : Nat} {changes : List Change} {st st' : RoundState} (keyed : Keyed ShadowRow.relid st.shadows)
    (applied : applyChanges pf faults rels e position changes st = .ok st') : List.Forall₂ (ShadowRow.Kept e) st.shadows st'.shadows := by
  refine (applyChanges_rule (P := fun st st' => Keyed ShadowRow.relid st.shadows →
    Keyed ShadowRow.relid st'.shadows ∧ List.Forall₂ (ShadowRow.Kept e) st.shadows st'.shadows) ?_ ?_ ?_ applied keyed).2
  · exact fun st keyed => ⟨keyed, List.forall₂_same.mpr fun s _ => .refl e s⟩
  · intro st st' st'' first second keyed
    obtain ⟨between, kept⟩ := first keyed
    obtain ⟨after, kept'⟩ := second between
    exact ⟨after, forall₂_trans (fun _ _ _ => .trans) kept kept'⟩
  · intro position relid change st st' step keyed
    obtain ⟨rel, _, outcome⟩ := applyRelid_ok step
    exact ⟨outcome.keyed keyed, (outcome.kept keyed).shadows⟩

theorem advanceShadow_active {e : Nat} {s : ShadowRow} (active : s.Active e) : advanceShadow e s = { s with frontier := e } := by
  rw [advanceShadow, if_pos]
  simp only [active.1, active.2, Bool.not_false, decide_true, Bool.and_self]

theorem advanceShadow_idle {e : Nat} {s : ShadowRow} (idle : ¬ s.Active e) : advanceShadow e s = s := by
  rw [advanceShadow, if_neg]
  rw [Bool.and_eq_true, Bool.not_eq_true', decide_eq_true_eq]
  exact idle

section Between

variable {h : History S} {stream : List SourceTransaction} {point : Nat} {faulty : Prop}
  {pre rest : List (BaseTransaction × SourceTransaction)} {t : BaseTransaction} {tx : SourceTransaction}
  (split : h.commits.zip stream = pre ++ (t, tx) :: rest) (length : h.commits.length = stream.length)
include split length

theorem History.lineage_next {relid a p : Nat} (low : a ≤ p) (passed : ∀ u ∈ pre, u.1.endLsn ≤ p) (behind : p < t.endLsn) :
    h.lineage stream relid a t.endLsn = (t.changes.zip tx.changes).foldl (S.trace relid) (h.lineage stream relid a p) := by
  have ordered : (pre ++ (t, tx) :: rest).Pairwise fun u v => u.1.endLsn < v.1.endLsn := by
    rw [← split]
    have firsts : ((h.commits.zip stream).map Prod.fst).Pairwise fun u v => u.endLsn < v.endLsn := by
      rw [List.map_fst_zip length.le]
      exact h.increasing
    exact List.Pairwise.of_map Prod.fst (fun _ _ => id) firsts
  rw [History.lineage, History.sent, split, filter_next ordered low passed behind, List.flatMap_append, List.foldl_append,
    History.lineage, History.sent, split, List.flatMap_singleton]

theorem History.commits_split : h.commits = pre.map Prod.fst ++ t :: rest.map Prod.fst := by
  rw [← List.map_fst_zip length.le, split, List.map_append, List.map_cons]

/-- A shadow that has yet to absorb the transaction. -/
theorem ShadowRow.Replayed.absorbs {s s' : ShadowRow} {st planned : RoundState}
    (replayed : ShadowRow.Replayed held refill s₀ h stream s) (keyed : Keyed ShadowRow.relid st.shadows) (member : s ∈ st.shadows)
    (here : s.relid = s₀.relid) (passed : ∀ u ∈ pre, u.1.endLsn ≤ s.frontier)
    (low : s₀.frontier ≤ s.frontier) (active : s.Active t.endLsn) (reached : t.endLsn ≤ point) (fits : s₀.Fits S)
    (told : h.TellsRows stream s₀.relid s₀.frontier point) (known : ∀ p ∈ rels, p.2 = S.relation p.1)
    (applied : applyChanges pf faults rels t.endLsn 0 tx.changes st = .ok planned) (member' : s' ∈ planned.shadows)
    (here' : s'.relid = s₀.relid) :
    (s'.failed = true ∧ faults ≠ Faults.none) ∨ ShadowRow.Replayed held refill s₀ h stream (advanceShadow t.endLsn s') := by
  have commits := h.commits_split split length
  have before : h.asOf s.frontier = S.through h.start (pre.map Prod.fst) := by
    apply h.asOf_before commits _ active.2
    intro u within
    obtain ⟨v, inPre, rfl⟩ := List.mem_map.mp within
    exact passed v inPre
  obtain ⟨ok, valid⟩ := h.valid_at commits
  have fits' : s.Fits S := by
    rw [replayed.same]
    exact ⟨fits.pk, fits.active, fits.key, fits.provided⟩
  have columns : s₀.columns = s.columns := by rw [replayed.same]
  have amid : RoundState.Amid S held refill s faults (h.lineage stream s₀.relid s₀.frontier s.frontier) st := by
    refine ⟨keyed, fun u inShadows same => ?_⟩
    obtain rfl := keyed.eq_of_mem inShadows member same
    exact .maintained rfl (replayed.extended.congr here columns.symm)
  have inZip : (t, tx) ∈ h.commits.zip stream := split ▸ List.mem_append_right _ List.mem_cons_self
  have tracked : (h.lineage stream s₀.relid s₀.frontier s.frontier).map Lineage.row = S.through h.start (pre.map Prod.fst) s.relid := by
    rw [here, ← before, replayed.tracked]
  have told' : List.Forall₂ (Told S s.relid) t.changes tx.changes := here ▸ told _ inZip (low.trans_lt active.2) reached
  obtain ⟨after, rows⟩ := amid.changes fits' active tracked ok valid told' known applied
  have next : h.lineage stream s₀.relid s₀.frontier t.endLsn = _ := h.lineage_next split length low passed active.2
  rw [here] at after rows
  cases after.shadow s' member' (here'.trans here.symm) with
  | lost failed fault => exact Or.inl ⟨failed, fault⟩
  | maintained same extended =>
      have active' : s'.Active t.endLsn := by
        rw [same]
        exact active
      have relid' : s'.relid = s.relid := here'.trans here.symm
      refine Or.inr ?_
      rw [advanceShadow_active active']
      refine ⟨?_, ?_, ?_⟩
      · rw [same, replayed.same]
      · exact (congrArg (List.map Lineage.row) next).trans (rows.trans (congrFun (h.asOf_through commits).symm s₀.relid))
      · rw [next]
        exact extended.congr here.symm columns

/-- One transaction of the peek. -/
theorem Catching.transaction {st st' : RoundState} {blocked : Bool}
    (catching : Catching held refill s₀ h stream point faulty (pre.map Prod.fst) st.shadows) (endLsn : tx.endLsn = t.endLsn)
    (fits : s₀.Fits S) (told : h.TellsRows stream s₀.relid s₀.frontier point) (known : ∀ p ∈ rels, p.2 = S.relation p.1)
    (fault : faults ≠ Faults.none → faulty) (beyond : (∃ u ∈ h.commits, point < u.endLsn) → faulty)
    (applied : applyTransaction pf settings faults rels tx st = .ok (st', blocked)) :
    Catching held refill s₀ h stream point faulty (pre.map Prod.fst ++ [t]) st'.shadows := by
  unfold applyTransaction at applied
  obtain ⟨planned, changed, same⟩ := ok_of_map applied
  obtain ⟨rfl, _⟩ := Prod.mk.inj same
  rw [endLsn] at changed
  have kept := applyChanges_shadows catching.keyed changed
  have commits := h.commits_split split length
  have inCommits : t ∈ h.commits := commits ▸ List.mem_append_right _ List.mem_cons_self
  refine ⟨?_, ?_⟩
  · rw [Keyed, List.map_map, show ShadowRow.relid ∘ advanceShadow tx.endLsn = ShadowRow.relid from funext (advanceShadow_relid tx.endLsn)]
    exact ShadowRow.Kept.keyed kept catching.keyed
  intro s'' member here
  rw [endLsn] at member
  obtain ⟨s', inPlanned, rfl⟩ := List.mem_map.mp member
  obtain ⟨s, inShadows, same⟩ := mem_of_forall₂_right kept inPlanned
  have here' : s'.relid = s₀.relid := (advanceShadow_relid t.endLsn s').symm.trans here
  have catches := catching.shadow s inShadows (same.relid.symm.trans here')
  by_cases active : s.Active t.endLsn
  · -- whether it is lost or not, it has not moved back
    have moved := ShadowRow.moved_advance same
    have onward : s.frontier ≤ (advanceShadow t.endLsn s').frontier := by
      rcases moved.frontier with still | ⟨low, reached⟩
      · exact still.ge
      · rw [reached]
        exact low.le
    have reaches : s'.failed = false → (advanceShadow t.endLsn s').frontier = t.endLsn := fun sound =>
      congrArg ShadowRow.frontier (advanceShadow_active ⟨sound, same.frontier ▸ active.2⟩)
    have passed := catches.passed active.1
    refine ⟨catches.onward.trans onward, ?_, ?_⟩
    · intro sound u within
      rw [advanceShadow_failed] at sound
      rw [reaches sound]
      rcases List.mem_append.mp within with before | last
      · exact (h.before commits before).le
      · exact (List.mem_singleton.mp last ▸ le_refl _)
    · intro within
      by_cases reached : t.endLsn ≤ point
      · have replayed : ShadowRow.Replayed held refill s₀ h stream s :=
          (catches.within fun u inHistory low => within u inHistory (low.trans onward)).resolve_left fun lost =>
            Bool.false_ne_true (active.1.symm.trans lost.1)
        rw [advanceShadow_failed]
        exact (replayed.absorbs split length catching.keyed inShadows (same.relid.symm.trans here')
          (fun u before => passed u.1 (List.mem_map_of_mem before)) catches.onward active reached fits told known changed inPlanned
          here').imp_left fun lost => ⟨lost.1, fault lost.2⟩
      · left
        rw [advanceShadow_failed]
        refine ⟨?_, beyond ⟨t, inCommits, Nat.lt_of_not_le reached⟩⟩
        by_contra sound
        rw [Bool.not_eq_true] at sound
        exact reached (within t inCommits (reaches sound).ge)
  · have still : advanceShadow t.endLsn s' = s := by
      rw [same.idle active, advanceShadow_idle active]
    rw [still]
    refine ⟨catches.onward, ?_, catches.within⟩
    intro sound u within
    rcases List.mem_append.mp within with before | last
    · exact catches.passed sound u before
    · rw [List.mem_singleton.mp last]
      exact Nat.le_of_not_lt fun low => active ⟨sound, low⟩

end Between

/-- The drift check of one relation looks at the shadows of its table that are maintained. -/
theorem mem_driftRelation {roundEnd : Nat} {st : RoundState} {p : Nat × Relation} {s' : ShadowRow}
    (member : s' ∈ (driftRelation roundEnd st p).shadows) : s' ∈ st.shadows ∨
      ∃ s ∈ st.shadows, s.relid = p.1 ∧ s.failed = false ∧ ∃ qualified, s' = shadowDrift s p.2 qualified := by
  obtain ⟨s, inShadows, rfl⟩ := List.mem_map.mp member
  by_cases same : s.relid = p.1
  · by_cases maintained : (!s.failed && decide (s.frontier < roundEnd)) = true
    · simp only [same, if_true, maintained]
      rw [Bool.and_eq_true, Bool.not_eq_true'] at maintained
      exact Or.inr ⟨s, inShadows, same, maintained.1, _, rfl⟩
    · simp only [same, if_true, maintained]
      exact Or.inl inShadows
  · simp only [same, if_false]
    exact Or.inl inShadows

section Round

variable {h : History S} {stream : List SourceTransaction} {point : Nat} {faulty : Prop}
  (sends : List.Forall₂ (fun (t : BaseTransaction) tx => tx.endLsn = t.endLsn) h.commits stream) (fits : s₀.Fits S)
  (told : h.TellsRows stream s₀.relid s₀.frontier point) (fault : faults ≠ Faults.none → faulty)
  (beyond : (∃ u ∈ h.commits, point < u.endLsn) → faulty)
include sends fits told fault beyond

/-- The transactions of the peek, in commit order. -/
theorem Catching.transactions {pre batch rest : List (BaseTransaction × SourceTransaction)} (split : h.commits.zip stream = pre ++ batch ++ rest)
    (known : ∀ p ∈ rels, p.2 = S.relation p.1) {ti : Nat} {st st' : RoundState} {blockedAt : Option Nat}
    (catching : Catching held refill s₀ h stream point faulty (pre.map Prod.fst) st.shadows)
    (applied : applyTransactions pf settings faults rels ti (batch.map Prod.snd) st = .ok (st', blockedAt)) :
    Catching held refill s₀ h stream point faulty ((pre ++ batch).map Prod.fst) st'.shadows := by
  induction batch generalizing pre ti st blockedAt with
  | nil =>
      obtain ⟨rfl, _⟩ := Prod.mk.inj (Except.ok.inj applied)
      rwa [List.append_nil]
  | cons u batch ih =>
      obtain ⟨t, tx⟩ := u
      rw [List.append_assoc, List.cons_append] at split
      rw [List.map_cons, Nabla.applyTransactions] at applied
      cases first : applyTransaction pf settings faults rels tx st with
      | error message => simp only [first, reduceCtorEq] at applied
      | ok one =>
          obtain ⟨between, blocked⟩ := one
          simp only [first] at applied
          obtain ⟨r, later, same⟩ := ok_of_map applied
          obtain ⟨rfl, _⟩ := Prod.mk.inj same
          have inZip : (t, tx) ∈ h.commits.zip stream := split ▸ List.mem_append_right _ List.mem_cons_self
          have endLsn : tx.endLsn = t.endLsn := (List.forall₂_iff_zip.mp sends).2 inZip
          have next := catching.transaction split sends.length_eq endLsn fits told known fault beyond first
          have split' : h.commits.zip stream = (pre ++ [(t, tx)]) ++ batch ++ rest := by
            rw [split]
            simp only [List.append_assoc, List.cons_append, List.nil_append]
          have moved : (pre ++ [(t, tx)]).map Prod.fst = pre.map Prod.fst ++ [t] := List.map_append
          have final := ih split' (moved ▸ next) later
          rwa [List.append_assoc, List.cons_append, List.nil_append] at final

omit sends told fault beyond in
/-- The drift check leaves a shadow alone that has not gone past the point. -/
theorem Catching.drift {pre : List BaseTransaction} (roundEnd : Nat) (known : ∀ p ∈ rels, p.2 = S.relation p.1) {st : RoundState}
    (catching : Catching held refill s₀ h stream point faulty pre st.shadows) :
    Catching held refill s₀ h stream point faulty pre (rels.foldl (driftRelation roundEnd) st).shadows := by
  induction rels generalizing st with
  | nil => exact catching
  | cons p rels ih =>
      apply ih (fun q member => known q (List.mem_cons_of_mem _ member))
      have stands : List.Forall₂ ShadowRow.Stands st.shadows (driftRelation roundEnd st p).shadows :=
        foldl_driftRelation_stands roundEnd [p] st
      refine ⟨?_, ?_⟩
      · rw [Keyed, map_eq_of_forall₂ stands fun _ _ same => same.relid]
        exact catching.keyed
      intro s' member here
      rcases mem_driftRelation member with before | ⟨s, inShadows, same, sound, qualified, rfl⟩
      · exact catching.shadow s' before here
      · rw [(shadowDrift_stands s _ _).relid] at here
        have catches := catching.shadow s inShadows here
        have frontier := shadowDrift_frontier s p.2 qualified
        refine ⟨frontier ▸ catches.onward, fun _ => frontier ▸ catches.passed sound, fun within => ?_⟩
        rw [History.Within, frontier] at within
        have replayed := (catches.within within).resolve_left fun lost => Bool.false_ne_true (sound.symm.trans lost.1)
        have fits' : s.Fits S := by
          rw [replayed.same]
          exact ⟨fits.pk, fits.active, fits.key, fits.provided⟩
        rw [known p List.mem_cons_self, ← same, fits'.no_drift]
        exact Or.inr replayed

/-- A round that commits. -/
theorem Catching.round {pre batch rest : List (BaseTransaction × SourceTransaction)} (split : h.commits.zip stream = pre ++ batch ++ rest)
    {cache : Nat → Option Relation} {c : Catalog} {result : RoundResult}
    (described : ∀ r ∈ changedRelids (batch.map Prod.snd), Described S cache r)
    (catching : Catching held refill s₀ h stream point faulty (pre.map Prod.fst) c.shadows)
    (applied : applyRound pf settings faults cache c (batch.map Prod.snd) = .ok result) :
    Catching held refill s₀ h stream point faulty ((pre ++ batch).map Prod.fst) result.catalog.shadows := by
  obtain ⟨cache', rels, collected, known, _⟩ := collectRelations_ok [] described fun _ member => absurd member List.not_mem_nil
  simp only [applyRound, collected] at applied
  split at applied
  · simp only [reduceCtorEq] at applied
  · rename_i st blockedAt ran
    obtain ⟨written, _, rfl⟩ := ok_of_map applied
    exact Catching.transactions sends fits told fault beyond split known (@Catching.drift pf S rels held refill s₀ h stream point faulty fits _ _ known ⟨c.liveViews, c.shadows⟩ catching) ran

end Round

section Run

variable {h : History S} {stream : List SourceTransaction} {point : Nat} {faulty : Prop} {pre : List BaseTransaction} {shadows : List ShadowRow}

theorem History.lineage_congr (h : History S) (stream : List SourceTransaction) (relid a : Nat) {p q : Nat} (le : p ≤ q)
    (none : ∀ t ∈ h.commits, t.endLsn ≤ q → t.endLsn ≤ p) : h.lineage stream relid a p = h.lineage stream relid a q := by
  have same : h.sent stream a p = h.sent stream a q := by
    unfold History.sent
    congr 1
    apply List.filter_congr
    intro u member
    congr 1
    rw [decide_eq_decide]
    exact ⟨fun low => low.trans le, none u.1 (List.of_mem_zip member).1⟩
  rw [History.lineage, History.lineage, same]

theorem Catching.weaken {pre' : List BaseTransaction} (catching : Catching held refill s₀ h stream point faulty pre shadows)
    (fewer : ∀ u ∈ pre', u ∈ pre) : Catching held refill s₀ h stream point faulty pre' shadows where
  keyed := catching.keyed
  shadow := fun s member here =>
    have catches := catching.shadow s member here
    ⟨catches.onward, fun sound u within => catches.passed sound u (fewer u within), catches.within⟩

/-- No shadow of the table that is maintained misses a transaction up to `q`. -/
def Caught (s₀ : ShadowRow) (h : History S) (q : Nat) (shadows : List ShadowRow) : Prop :=
  ∀ s ∈ shadows, s.relid = s₀.relid → s.failed = false → ∀ t ∈ h.commits, t.endLsn ≤ q → t.endLsn ≤ s.frontier

theorem Caught.mono {p q : Nat} (le : p ≤ q) (caught : Caught s₀ h q shadows) : Caught s₀ h p shadows :=
  fun s member here sound t inHistory low => caught s member here sound t inHistory (low.trans le)

/-- The idle advance goes over no transaction. -/
theorem Catching.advance {f : Nat} (catching : Catching held refill s₀ h stream point faulty [] shadows) (caught : Caught s₀ h f shadows) :
    Catching held refill s₀ h stream point faulty [] (shadows.map (advanceShadow f)) where
  keyed := by
    rw [Keyed, List.map_map, show ShadowRow.relid ∘ advanceShadow f = ShadowRow.relid from funext (advanceShadow_relid f)]
    exact catching.keyed
  shadow := by
    intro s' member here
    obtain ⟨s, inShadows, rfl⟩ := List.mem_map.mp member
    rw [advanceShadow_relid] at here
    have catches := catching.shadow s inShadows here
    by_cases active : s.Active f
    · have none := caught s inShadows here active.1
      rw [advanceShadow_active active]
      refine ⟨catches.onward.trans active.2.le, fun _ u none => absurd none List.not_mem_nil, fun within => ?_⟩
      have replayed := (catches.within fun t inHistory low => within t inHistory (low.trans active.2.le)).resolve_left fun lost =>
        Bool.false_ne_true (active.1.symm.trans lost.1)
      refine Or.inr ⟨?_, ?_, ?_⟩
      · rw [replayed.same]
      · show (h.lineage stream s₀.relid s₀.frontier f).map Lineage.row = h.asOf f s₀.relid
        rw [← h.lineage_congr stream s₀.relid s₀.frontier active.2.le none, ← h.asOf_congr active.2.le none]
        exact replayed.tracked
      · show Extended S held refill s₀ s.rows (h.lineage stream s₀.relid s₀.frontier f)
        rw [← h.lineage_congr stream s₀.relid s₀.frontier active.2.le none]
        exact replayed.extended
    · rw [advanceShadow_idle active]
      exact catches

theorem Caught.advance {f q : Nat} (caught : Caught s₀ h q shadows) : Caught s₀ h q (shadows.map (advanceShadow f)) := by
  intro s' member here sound t inHistory low
  obtain ⟨s, inShadows, rfl⟩ := List.mem_map.mp member
  rw [advanceShadow_relid] at here
  rw [advanceShadow_failed] at sound
  have passed := caught s inShadows here sound t inHistory low
  by_cases active : s.Active f
  · rw [advanceShadow_active active]
    exact passed.trans active.2.le
  · rwa [advanceShadow_idle active]

/-- The shadows of a durable state catch up, and the slot leaves them nothing to miss. -/
structure Durable.Catches (held : List String) (refill : BaseRow → String → Datum) (s₀ : ShadowRow) (h : History S)
    (stream : List SourceTransaction) (point : Nat) (faulty : Prop) (d : Durable) : Prop where
  shadows : Catching held refill s₀ h stream point faulty [] d.catalog.shadows
  slot : ∀ confirmed, d.slot = some confirmed → Caught s₀ h confirmed d.catalog.shadows

theorem Durable.Catches.idle {c : Catalog} {slot lastEnd q : Nat} {peek : Peek} {d' : Durable}
    (catching : Catching held refill s₀ h stream point faulty [] c.shadows) (caught : Caught s₀ h q c.shadows) (low : slot ≤ q)
    (reach : peek.drained = true → max peek.target lastEnd ≤ q) (state : d' ∈ Durable.idle ⟨c, some slot⟩ peek lastEnd) :
    Durable.Catches held refill s₀ h stream point faulty d' := by
  unfold Durable.idle at state
  by_cases drained : peek.drained = true
  · rw [if_pos drained] at state
    have within := reach drained
    have moved : max (max peek.target lastEnd) slot ≤ q := max_le within low
    simp only [List.mem_cons, List.not_mem_nil, or_false] at state
    rcases state with rfl | rfl
    · exact ⟨catching, fun confirmed at_ => Option.some.inj at_ ▸ caught.mono moved⟩
    · exact ⟨catching.advance (caught.mono within), fun confirmed at_ => Option.some.inj at_ ▸ (caught.mono moved).advance⟩
  · rw [if_neg drained] at state
    exact absurd state List.not_mem_nil

/-- A peek returns the transactions of a stretch of the history. -/
theorem Peek.Reads.pairs (sends : List.Forall₂ (fun (t : BaseTransaction) tx => tx.endLsn = t.endLsn) h.commits stream) {peek : Peek}
    {confirmed : Nat} (reads : peek.Reads stream confirmed) : ∃ pre batch rest cut, h.commits.zip stream = pre ++ batch ++ rest ∧
      peek.transactions = batch.map Prod.snd ∧ (∀ u ∈ pre, u.1.endLsn ≤ confirmed) ∧ (∀ u ∈ batch, u.2.endLsn ≤ cut) ∧
      (∀ t ∈ h.commits, t.endLsn ≤ max confirmed cut → t ∈ (pre ++ batch).map Prod.fst) ∧ (peek.drained = true → peek.target ≤ cut) := by
  obtain ⟨cut, peeked, drained⟩ := reads
  have ends : ∀ u ∈ h.commits.zip stream, u.2.endLsn = u.1.endLsn := fun u member => (List.forall₂_iff_zip.mp sends).2 member
  have ordered : (h.commits.zip stream).Pairwise fun u v => u.1.endLsn < v.1.endLsn := by
    have firsts : ((h.commits.zip stream).map Prod.fst).Pairwise fun u v => u.endLsn < v.endLsn := by
      rw [List.map_fst_zip sends.length_eq.le]
      exact h.increasing
    exact List.Pairwise.of_map Prod.fst (fun _ _ => id) firsts
  refine ⟨(h.commits.zip stream).filter fun u => decide (u.1.endLsn ≤ confirmed),
    ((h.commits.zip stream).filter fun u => decide (confirmed < u.1.endLsn)).filter fun u => decide (u.1.endLsn ≤ cut),
    ((h.commits.zip stream).filter fun u => decide (confirmed < u.1.endLsn)).filter fun u => decide (cut < u.1.endLsn), cut,
    ?_, ?_, ?_, ?_, ?_, drained⟩
  · rw [List.append_assoc, ← split_at (ordered.filter _) cut, ← split_at ordered confirmed]
  · have seconds : (h.commits.zip stream).map Prod.snd = stream := List.map_snd_zip sends.length_eq.ge
    rw [peeked, List.filter_filter]
    conv_lhs => rw [← seconds]
    rw [List.filter_map]
    congr 1
    apply List.filter_congr
    intro u member
    rw [Function.comp_apply, ends u member, Bool.and_comm]
  · exact fun u member => of_decide_eq_true (List.mem_filter.mp member).2
  · intro u member
    obtain ⟨inZip, low⟩ := List.mem_filter.mp member
    rw [ends u (List.mem_filter.mp inZip).1]
    exact of_decide_eq_true low
  · intro t inHistory low
    obtain ⟨tx, paired⟩ := exists_zip sends.length_eq inHistory
    refine List.mem_map.mpr ⟨(t, tx), ?_, rfl⟩
    rw [List.mem_append, List.mem_filter, List.mem_filter, List.mem_filter, decide_eq_true_eq, decide_eq_true_eq, decide_eq_true_eq]
    rcases le_or_gt t.endLsn confirmed with before | after
    · exact Or.inl ⟨paired, before⟩
    · exact Or.inr ⟨⟨paired, after⟩, (le_max_iff.mp low).resolve_left after.not_ge⟩

theorem Catching.catchUp {q : Nat} (catching : Catching held refill s₀ h stream point faulty [] shadows) (caught : Caught s₀ h q shadows)
    (inHistory : ∀ u ∈ pre, u ∈ h.commits ∧ u.endLsn ≤ q) : Catching held refill s₀ h stream point faulty pre shadows where
  keyed := catching.keyed
  shadow := fun s member here =>
    have catches := catching.shadow s member here
    ⟨catches.onward, fun sound u within => caught s member here sound u (inHistory u within).1 (inHistory u within).2, catches.within⟩

/-- A round, each of the states it goes through. -/
theorem Durable.Catches.round (sends : List.Forall₂ (fun (t : BaseTransaction) tx => tx.endLsn = t.endLsn) h.commits stream) (fits : s₀.Fits S)
    (told : h.TellsRows stream s₀.relid s₀.frontier point) (fault : faults ≠ Faults.none → faulty)
    (beyond : (∃ u ∈ h.commits, point < u.endLsn) → faulty) {d d' : Durable}
    (catches : Durable.Catches held refill s₀ h stream point faulty d) {confirmed : Nat} (slot : d.slot = some confirmed)
    {cache : Nat → Option Relation} {peek : Peek} (reads : peek.Reads stream confirmed)
    (described : ∀ r ∈ changedRelids peek.transactions, Described S cache r) (state : d' ∈ runRound pf settings faults cache peek d) :
    Durable.Catches held refill s₀ h stream point faulty d' := by
  obtain ⟨c, _⟩ := d
  obtain rfl : _ = some confirmed := slot
  have caught := catches.slot confirmed rfl
  obtain ⟨pre, batch, rest, cut, split, peeked, before, low, covered, drained⟩ := reads.pairs sends
  by_cases lag : peek.lag ≤ settings.maxSlotLagBytes
  · rcases mem_runRound lag state with ⟨empty, state⟩ | ⟨last, result, final, applied, states⟩
    · have none : batch = [] := List.map_eq_nil_iff.mp (peeked.symm.trans empty)
      have all : Caught s₀ h (max confirmed cut) c.shadows := by
        intro s member here sound t inHistory within
        have listed := covered t inHistory within
        rw [none, List.append_nil] at listed
        obtain ⟨u, inPre, rfl⟩ := List.mem_map.mp listed
        exact caught s member here sound u.1 inHistory (before u inPre)
      exact .idle catches.shadows all (le_max_left _ _)
        (fun isDrained => max_le ((drained isDrained).trans (le_max_right _ _)) (le_max_left _ _)) state
    · rw [peeked] at described applied
      have inHistory : ∀ t ∈ pre.map Prod.fst, t ∈ h.commits ∧ t.endLsn ≤ confirmed := by
        intro t member
        obtain ⟨u, inPre, rfl⟩ := List.mem_map.mp member
        have inZip : u ∈ h.commits.zip stream := split ▸ List.mem_append_left _ (List.mem_append_left _ inPre)
        exact ⟨(List.of_mem_zip inZip).1, before u inPre⟩
      have started := catches.shadows.catchUp caught inHistory
      have ended := Catching.round sends fits told fault beyond split described started applied
      have catching : Catching held refill s₀ h stream point faulty [] result.catalog.shadows := ended.weaken fun u none => absurd none List.not_mem_nil
      have all : Caught s₀ h (max confirmed cut) result.catalog.shadows := fun s member here sound t inHistory within =>
        (ended.shadow s member here).passed sound t (covered t inHistory within)
      have inCut : ∀ tx ∈ peek.transactions, tx.endLsn ≤ cut := by
        intro tx member
        rw [peeked] at member
        obtain ⟨u, inBatch, rfl⟩ := List.mem_map.mp member
        exact low u inBatch
      have lastLow := (inCut last (List.mem_of_getLast? final)).trans (le_max_right confirmed cut)
      cases states with
      | committed => exact ⟨catching, fun _ at_ => Option.some.inj at_ ▸ all.mono (le_max_left _ _)⟩
      | @held k tx blocked earlier =>
          have txLow := (inCut tx (List.mem_of_getElem? earlier)).trans (le_max_right confirmed cut)
          exact ⟨catching, fun _ at_ => Option.some.inj at_ ▸ all.mono (max_le txLow (le_max_left _ _))⟩
      | advanced free =>
          exact ⟨catching, fun _ at_ => Option.some.inj at_ ▸ all.mono (max_le (max_le (le_max_left _ _) lastLow) (le_max_left _ _))⟩
      | idle free inIdle =>
          exact .idle catching all (max_le (max_le (le_max_left _ _) lastLow) (le_max_left _ _))
            (fun isDrained => max_le ((drained isDrained).trans (le_max_right _ _)) (max_le (le_max_left _ _) lastLow)) inIdle
  · simp only [runRound, if_pos (not_le.mp lag), List.mem_cons, List.not_mem_nil, or_false] at state
    rcases state with rfl | rfl
    · exact ⟨catches.shadows, by rintro _ ⟨⟩⟩
    · exact ⟨catches.shadows, by rintro _ ⟨⟩⟩

end Run

/-- The durable states of the worker from the one in which a shadow was extended: other
sessions leave the table's shadow alone, a round goes through its states. -/
inductive Replays (S : Schema pf) (stream : List SourceTransaction) (relid : Nat) (allowed : Faults → Prop) (d₀ : Durable) : Durable → Prop where
  | start : Replays S stream relid allowed d₀ d₀
  | session {d : Durable} {c : Catalog} (run : Replays S stream relid allowed d₀ d) (keyed : Keyed ShadowRow.relid c.shadows)
      (kept : ∀ s ∈ c.shadows, s.relid = relid → s ∈ d.catalog.shadows) : Replays S stream relid allowed d₀ { d with catalog := c }
  | round {d d' : Durable} {settings : Settings} {faults : Faults} {cache : Nat → Option Relation} {peek : Peek} {confirmed : Nat}
      (run : Replays S stream relid allowed d₀ d) (meets : allowed faults) (slot : d.slot = some confirmed) (reads : peek.Reads stream confirmed)
      (described : ∀ r ∈ changedRelids peek.transactions, Described S cache r) (state : d' ∈ runRound pf settings faults cache peek d) :
      Replays S stream relid allowed d₀ d'

section Claim

variable {h : History S} {stream : List SourceTransaction} {point : Nat} {allowed : Faults → Prop} {d₀ d : Durable}

theorem Replays.catches {faulty : Prop} (sends : List.Forall₂ (fun (t : BaseTransaction) tx => tx.endLsn = t.endLsn) h.commits stream)
    (fits : s₀.Fits S) (told : h.TellsRows stream s₀.relid s₀.frontier point) (fault : ∀ f, allowed f → f ≠ Faults.none → faulty)
    (beyond : (∃ u ∈ h.commits, point < u.endLsn) → faulty) (start : Durable.Catches held refill s₀ h stream point faulty d₀)
    (run : Replays S stream s₀.relid allowed d₀ d) : Durable.Catches held refill s₀ h stream point faulty d := by
  induction run with
  | start => exact start
  | session _ keyed kept ih =>
      refine ⟨⟨keyed, fun s member here => ih.shadows.shadow s (kept s member here) here⟩, fun confirmed at_ => ?_⟩
      exact fun s member here => ih.slot confirmed at_ s (kept s member here) here
  | round _ meets slot reads described state ih =>
      exact ih.round sends fits told (fault _ meets) beyond slot reads described state

/-- Where a row of the table stands that no longer has the key it had at the shadow's frontier,
the value an added column was filled with under the old key is the row's own, unless it
was sent since. -/
def ShadowRow.FilledRight (S : Schema pf) (base : BaseTable) (added : List (String × String)) (s : ShadowRow) (table : List Lineage) : Prop :=
  ∀ l ∈ table, ∀ name ∈ added.map Prod.fst, ∀ a, l.origin name = some a → S.keyOf s.relid l.row ≠ S.keyOf s.relid a →
    s.backfill S base a name = l.row name

variable {rel : BaseRelation} {needed keys : List String} {base : BaseTable} {s : ShadowRow}

/-- The rows of the replayed shadow are the table's when the added columns were filled right. -/
theorem Extends.equal_iff {start : List BaseRow} (extends' : Extends S rel base s start) {now : List BaseRow} (keyed : Keyed (S.keyOf s.relid) now)
    (sees : base.rows.Perm now) {table : List Lineage} (tracked : table.map Lineage.row = now) {rows : List BaseRow}
    (extended : Extended S s.columns (s.backfill S base) (extendShadow rel needed keys base s) rows table) :
    (rows.map (narrowRow (extendShadow rel needed keys base s).columns)).Perm (now.map (narrowRow (extendShadow rel needed keys base s).columns)) ↔
      s.FilledRight S base (s.added rel needed base) table := by
  have columns := extends'.columns needed keys
  have relid : (extendShadow rel needed keys base s).relid = s.relid :=
    (extendShadow_rows needed keys (extends'.added_distinct needed) (extends'.added_apart needed)).2.1
  have shownKey : ∀ l : Lineage, S.keyOf s.relid (l.shown s.columns (s.backfill S base)) = S.keyOf s.relid l.row := fun l =>
    S.keyOf_of_narrow_eq extends'.fits.key (l.narrow_shown _)
  have inNow : ∀ l ∈ table, l.row ∈ now := fun l member => tracked ▸ List.mem_map_of_mem member
  -- a row that still has its key was filled with its own values
  have own : ∀ l ∈ table, ∀ name a, S.keyOf s.relid l.row = S.keyOf s.relid a → s.backfill S base a name = l.row name := by
    intro l member name a same
    have found := (keyed.perm sees.symm).find_of_mem (sees.mem_iff.mpr (inNow l member))
    simp only [ShadowRow.backfill, ← same, found]
  constructor
  · intro equal l member name added a origin _
    have shown := (extended.rows.symm.trans equal).mem_iff.mp (List.mem_map_of_mem member)
    obtain ⟨row, inTable, same⟩ := List.mem_map.mp shown
    have active : name ∈ (extendShadow rel needed keys base s).columns := (columns name).mpr (Or.inr added)
    have key : S.primaryKey s.relid ⊆ (extendShadow rel needed keys base s).columns := fun c inKey =>
      extended.active (extends'.fits.key inKey)
    have isRow : row = l.row :=
      keyed.eq_of_mem inTable (inNow l member) ((S.keyOf_of_narrow_eq key same).trans (shownKey l))
    have notHeld : name ∉ s.columns := by
      obtain ⟨p, within, rfl⟩ := List.mem_map.mp added
      exact (ShadowRow.mem_added within).2
    have value := eq_of_narrowRow_eq same active
    simp only [Lineage.shown, notHeld, if_false, origin] at value
    rw [← value, isRow]
  · intro filled
    refine extended.rows.trans (List.Perm.of_eq ?_)
    rw [← tracked, List.map_map]
    apply List.map_congr_left
    intro l member
    apply narrowRow_congr
    intro name active
    by_cases before : name ∈ s.columns
    · exact Lineage.shown_held before
    have added := ((columns name).mp active).resolve_left before
    cases origin : l.origin name with
    | none => exact Lineage.shown_sent _ _ origin
    | some a =>
        simp only [Lineage.shown, before, if_false, origin]
        by_cases same : S.keyOf s.relid l.row = S.keyOf s.relid a
        · exact own l member name a same
        · exact filled l member name added a origin same

/-- The replay brings an extended shadow to the table as of the point exactly when the added
columns were filled right; without an error of the environment the shadow is not lost. -/
theorem Replays.extension_iff (extends' : Extends S rel base s (h.asOf s.frontier s.relid)) (sees : base.rows.Perm (h.asOf point s.relid))
    (sound : s.failed = false)
    (sends : List.Forall₂ (fun (t : BaseTransaction) tx => tx.endLsn = t.endLsn) h.commits stream)
    (told : h.TellsRows stream s.relid s.frontier point) (keyed : Keyed ShadowRow.relid d₀.catalog.shadows)
    (member : extendShadow rel needed keys base s ∈ d₀.catalog.shadows)
    (slot : ∀ confirmed, d₀.slot = some confirmed → ∀ t ∈ h.commits, t.endLsn ≤ confirmed → t.endLsn ≤ s.frontier)
    (run : Replays S stream s.relid allowed d₀ d) {s' : ShadowRow} (member' : s' ∈ d.catalog.shadows) (same : s'.relid = s.relid) :
    ((∀ f, allowed f → f = Faults.none) → (∀ t ∈ h.commits, t.endLsn ≤ point) → s'.failed = false) ∧
      ((∀ t ∈ h.commits, t.endLsn ≤ s'.frontier ↔ t.endLsn ≤ point) → s'.failed = false →
        ((s'.rows.map (narrowRow s'.columns)).Perm ((h.asOf point s.relid).map (narrowRow s'.columns)) ↔
          s.FilledRight S base (s.added rel needed base) (h.lineage stream s.relid s.frontier point))) := by
  obtain ⟨_, relid, _, frontier, failed⟩ :=
    extendShadow_rows needed keys (extends'.added_distinct needed) (extends'.added_apart needed)
  have isExtended := extends'.extended needed keys
  have fits := extends'.fits' needed keys
  have equalIff := @Extends.equal_iff pf S rel needed keys base s _ extends' _ ((h.asOf_ok point).keyed s.relid) sees
  generalize extended : extendShadow rel needed keys base s = s₀ at member relid frontier failed isExtended fits equalIff
  have start : Durable.Catches s.columns (s.backfill S base) s₀ h stream point
      ((∃ f, allowed f ∧ f ≠ Faults.none) ∨ ∃ u ∈ h.commits, point < u.endLsn) d₀ := by
    have only : ∀ u ∈ d₀.catalog.shadows, u.relid = s₀.relid → u = s₀ := fun u inShadows here => keyed.eq_of_mem inShadows member here
    have origins : h.lineage stream s₀.relid s₀.frontier s₀.frontier = lineages (h.asOf s.frontier s.relid) := by
      have quiet : h.sent stream s₀.frontier s₀.frontier = [] := by
        rw [History.sent, List.filter_eq_nil_iff.mpr, List.flatMap_nil]
        intro u _
        rw [Bool.and_eq_true, decide_eq_true_eq, decide_eq_true_eq, not_and, not_le]
        exact id
      rw [History.lineage, quiet, List.foldl_nil, relid, frontier]
    refine ⟨⟨keyed, fun u inShadows here => ?_⟩, fun confirmed at_ u inShadows here _ t inHistory low => ?_⟩
    · obtain rfl := only u inShadows here
      refine ⟨le_refl _, nofun, fun _ => Or.inr ⟨rfl, ?_, ?_⟩⟩
      · rw [origins, lineages_rows, relid, frontier]
      · rw [origins]
        exact isExtended
    · obtain rfl := only u inShadows here
      rw [frontier]
      exact slot confirmed at_ t inHistory low
  have told' : h.TellsRows stream s₀.relid s₀.frontier point := by rwa [relid, frontier]
  rw [← relid] at run
  have catches := run.catches sends fits told' (fun f meets fault => Or.inl ⟨f, meets, fault⟩) Or.inr start
  have here := catches.shadows.shadow s' member' (same.trans relid.symm)
  constructor
  · intro calm last
    rcases here.within fun t inHistory _ => last t inHistory with ⟨_, ⟨f, meets, fault⟩ | ⟨u, inHistory, later⟩⟩ | replayed
    · exact absurd (calm f meets) fault
    · exact absurd (last u inHistory) later.not_ge
    · rw [replayed.same]
      exact failed.trans sound
  · intro through alive
    have replayed := (here.within fun t inHistory low => (through t inHistory).mp low).resolve_left fun lost =>
      Bool.false_ne_true (alive.symm.trans lost.1)
    have reached : h.lineage stream s₀.relid s₀.frontier s'.frontier = h.lineage stream s.relid s.frontier point ∧
        h.asOf s'.frontier = h.asOf point := by
      rw [relid, frontier]
      rcases le_total s'.frontier point with low | high
      · have none : ∀ t ∈ h.commits, t.endLsn ≤ point → t.endLsn ≤ s'.frontier := fun t inHistory => (through t inHistory).mpr
        exact ⟨h.lineage_congr stream _ _ low none, h.asOf_congr low none⟩
      · have none : ∀ t ∈ h.commits, t.endLsn ≤ s'.frontier → t.endLsn ≤ point := fun t inHistory => (through t inHistory).mp
        exact ⟨(h.lineage_congr stream _ _ high none).symm, (h.asOf_congr high none).symm⟩
    have columns : s'.columns = s₀.columns := by rw [replayed.same]
    rw [columns]
    apply equalIff
    · rw [← reached.1, replayed.tracked, reached.2, relid]
    · rw [← reached.1]
      exact replayed.extended

end Claim

def gapStream (new : Tuple) : List SourceTransaction := [⟨1, 9, 10, [.update 1 orderSent new]⟩]

def gapShadow : ShadowRow := shopShadow 1 0 ["id"] ["text"] [narrowRow ["id"] orderBefore]

def gapBase : BaseTable := ⟨[("id", "text"), ("ref", "text"), ("doc", "jsonb")], [orderAfter]⟩

theorem gap_extends : Extends shop ordersBase gapBase gapShadow (orderHistory.asOf gapShadow.frontier gapShadow.relid) := by
  have typed : ∀ row ∈ [orderBefore, orderAfter], shop.RowOk 1 row := by
    intro row member
    simp only [List.mem_cons, List.not_mem_nil, or_false] at member
    rcases member with rfl | rfl
    · exact shopRow_ok 1 ⟨"a", rfl⟩ (Or.inr rfl) (Or.inl rfl)
    · exact shopRow_ok 1 ⟨"b", rfl⟩ (Or.inr rfl) (Or.inl rfl)
  have start : orderHistory.asOf gapShadow.frontier gapShadow.relid = [orderBefore] := rfl
  refine ⟨?_, rfl, rfl, ?_, ?_, ?_, ?_, by decide, ?_, ?_⟩
  · exact shopShadow_fits (by decide) (by decide) (show ∀ p ∈ [("id", "text")], (shopRelation 1).provides p.1 p.2 by decide)
  · rw [start]
    have rows : (gapShadow.rows.map (narrowRow gapShadow.columns)).Perm ([orderBefore].map (narrowRow gapShadow.columns)) :=
      List.Perm.of_eq (congrArg (· :: []) (narrowRow_narrowRow (List.Subset.refl _) orderBefore))
    refine ⟨fun _ member => List.mem_singleton.mp member ▸ List.mem_cons_self, List.Subset.refl _, ?_, rows⟩
    intro row member c inRel active ty resolved
    obtain rfl := List.mem_singleton.mp member
    have kept : narrowRow ["id"] orderBefore c.name = orderBefore c.name := narrowRow_of_mem active orderBefore
    exact kept ▸ (typed orderBefore List.mem_cons_self).typed c inRel ty resolved
  · rw [start]
    exact List.nodup_singleton _
  · rw [start]
    exact fun row member => List.mem_singleton.mp member ▸ typed orderBefore List.mem_cons_self
  · exact fun _ _ p member => absurd member List.not_mem_nil
  · exact show ∀ p ∈ [("id", "text"), ("ref", "text"), ("doc", "jsonb")], (shopRelation 1).provides p.1 p.2 by decide
  · exact fun row member => List.mem_singleton.mp member ▸ typed orderAfter (List.mem_cons_of_mem _ List.mem_cons_self)

theorem gapShadow_extended : extendShadow ordersBase ["ref"] [] gapBase gapShadow =
    { shopShadow 1 0 ["id", "ref"] ["text", "text"] [Function.update (narrowRow ["id"] orderBefore) "ref" .null] with
      physical := [("ref", "text")] } := by
  have ordered : attributeOrder gapBase [("id", "text"), ("ref", "text")] = [("id", "text"), ("ref", "text")] :=
    List.mergeSort_of_pairwise (by decide)
  have added : extendShadow ordersBase ["ref"] [] gapBase gapShadow = { addColumn ordersBase gapBase gapShadow ("ref", "text") with
      columns := (attributeOrder gapBase [("id", "text"), ("ref", "text")]).map Prod.fst
      columnTypes := (attributeOrder gapBase [("id", "text"), ("ref", "text")]).map Prod.snd } := rfl
  rw [added, ordered]
  rfl

theorem gap_tells {new : Tuple} (encodes : EncodesNew .basic (shopRelation 1) [] orderBefore orderAfter new) :
    orderHistory.TellsRows (gapStream new) 1 0 10 := by
  intro u member _ _
  obtain rfl := List.mem_singleton.mp member
  refine .cons ⟨rfl, fun _ => ?_, nofun⟩ .nil
  have sent : Encodes shop (.update 1 orderBefore orderAfter) (.update 1 orderSent new) := .updateKey encodes
  exact sent.tells orderHistory.ok orderHistory.valid.1

theorem gap_replays {new : Tuple} {result : RoundResult}
    (applied : applyRound .basic shopSettings Faults.none (some ∘ shopRelation)
      ⟨[], [], [extendShadow ordersBase ["ref"] [] gapBase gapShadow]⟩ (gapStream new) = .ok result)
    (free : result.blockedAt = none) :
    Replays shop (gapStream new) 1 (· = Faults.none) ⟨⟨[], [], [extendShadow ordersBase ["ref"] [] gapBase gapShadow]⟩, some 0⟩
      ⟨result.catalog, some 0⟩ := by
  have state : (⟨result.catalog, some 0⟩ : Durable) ∈ runRound .basic shopSettings Faults.none (some ∘ shopRelation)
      ⟨0, 10, gapStream new, true, false⟩ ⟨⟨[], [], [extendShadow ordersBase ["ref"] [] gapBase gapShadow]⟩, some 0⟩ := by
    apply List.mem_of_getElem? (i := 0)
    simp only [runRound, applied, free]
    rfl
  exact .round .start rfl rfl ⟨10, rfl, fun _ => le_refl 10⟩ (fun _ _ => Described.of_relation rfl) state

/-- The customer is not sent with the update of the id: the order's copy was filled in under
its old id, which no order has by now. -/
theorem gap_unfilled : ∃ (d : Durable), ∃ s' ∈ d.catalog.shadows,
    Extends shop ordersBase gapBase gapShadow (orderHistory.asOf 0 1) ∧ gapBase.rows.Perm (orderHistory.asOf 10 1) ∧
      orderHistory.TellsRows (gapStream orderNew) 1 0 10 ∧
      Replays shop (gapStream orderNew) 1 (· = Faults.none) ⟨⟨[], [], [extendShadow ordersBase ["ref"] [] gapBase gapShadow]⟩, some 0⟩ d ∧
      s'.relid = 1 ∧ s'.failed = false ∧ s'.frontier = 10 ∧ s'.columns = ["id", "ref"] ∧
      s'.rows.map (· "ref") = [.null] ∧ (orderHistory.asOf 10 1).map (· "ref") = [.text "c"] ∧
      ¬ (s'.rows.map (narrowRow s'.columns)).Perm ((orderHistory.asOf 10 1).map (narrowRow s'.columns)) := by
  obtain ⟨result, s', applied, free, shadows, relid, alive, frontier, columns, refs⟩ : ∃ result s',
      applyRound .basic shopSettings Faults.none (some ∘ shopRelation)
        ⟨[], [], [extendShadow ordersBase ["ref"] [] gapBase gapShadow]⟩ (gapStream orderNew) = .ok result ∧
      result.blockedAt = none ∧ result.catalog.shadows = [s'] ∧ s'.relid = 1 ∧ s'.failed = false ∧ s'.frontier = 10 ∧
      s'.columns = ["id", "ref"] ∧ s'.rows.map (· "ref") = [.null] := by
    rw [gapShadow_extended]
    exact ⟨_, _, rfl, rfl, rfl, rfl, rfl, rfl, rfl, rfl⟩
  refine ⟨_, s', shadows ▸ List.mem_singleton_self s', gap_extends, List.Perm.refl _,
    gap_tells (.cons (Or.inl rfl) (.cons (Or.inr ⟨rfl, rfl, List.not_mem_nil⟩) (.cons (Or.inl rfl) .nil))),
    gap_replays applied free, relid, alive, frontier, columns, refs, rfl, ?_⟩
  intro equal
  have values := equal.map (· "ref")
  rw [columns, List.map_map, List.map_map] at values
  have left : s'.rows.map ((· "ref") ∘ narrowRow ["id", "ref"]) = [.null] := refs
  rw [left] at values
  exact absurd (List.singleton_perm.mp values) (by decide)

/-- An update that sends the customer with the new id leaves nothing to the old one. -/
theorem gap_filled : ∃ (d : Durable), ∃ s' ∈ d.catalog.shadows, s'.relid = 1 ∧ s'.failed = false ∧ s'.columns = ["id", "ref"] ∧
    (s'.rows.map (narrowRow s'.columns)).Perm ((orderHistory.asOf 10 1).map (narrowRow s'.columns)) := by
  obtain ⟨result, s', applied, free, shadows, relid, alive, frontier, columns⟩ : ∃ result s',
      applyRound .basic shopSettings Faults.none (some ∘ shopRelation)
        ⟨[], [], [extendShadow ordersBase ["ref"] [] gapBase gapShadow]⟩ (gapStream (encodeRow .basic (shopRelation 1) orderAfter)) = .ok result ∧
      result.blockedAt = none ∧ result.catalog.shadows = [s'] ∧ s'.relid = 1 ∧ s'.failed = false ∧ s'.frontier = 10 ∧
      s'.columns = ["id", "ref"] := by
    rw [gapShadow_extended]
    exact ⟨_, _, rfl, rfl, rfl, rfl, rfl, rfl, rfl⟩
  have run := gap_replays applied free
  have member : s' ∈ result.catalog.shadows := shadows ▸ List.mem_singleton_self s'
  have encodes : EncodesNew .basic (shopRelation 1) [] orderBefore orderAfter (encodeRow .basic (shopRelation 1) orderAfter) :=
    .cons (Or.inl rfl) (.cons (Or.inl rfl) (.cons (Or.inl rfl) .nil))
  have keyed : Keyed ShadowRow.relid [extendShadow ordersBase ["ref"] [] gapBase gapShadow] := List.nodup_singleton _
  have slot : ∀ confirmed, some 0 = some confirmed → ∀ t ∈ orderHistory.commits, t.endLsn ≤ confirmed → t.endLsn ≤ gapShadow.frontier := by
    intro confirmed at_ t _ low
    rwa [← Option.some.inj at_] at low
  have sends : List.Forall₂ (fun (t : BaseTransaction) tx => tx.endLsn = t.endLsn) orderHistory.commits
      (gapStream (encodeRow .basic (shopRelation 1) orderAfter)) := .cons rfl .nil
  obtain ⟨_, replayed⟩ := Replays.extension_iff gap_extends (List.Perm.refl (orderHistory.asOf 10 1)) rfl sends (gap_tells encodes) keyed
    (List.mem_singleton_self _) slot run member relid
  refine ⟨⟨result.catalog, some 0⟩, s', member, relid, alive, columns, (replayed (fun t _ => ?_) alive).mpr ?_⟩
  · rw [frontier]
  · intro l inTable name added a origin
    obtain rfl := List.mem_singleton.mp inTable
    obtain rfl := List.mem_singleton.mp added
    exact absurd (show none = some a from origin) nofun

end Nabla
