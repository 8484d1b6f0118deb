import Nabla.Deltas
import Nabla.Standing

/-! What a round logs for a view, applied to a copy of what the view showed before the round,
leaves what it shows after. -/
namespace Nabla
open Bags

variable {pf : Platform} {settings : Settings} {faults : Faults} {spec : ViewSpec}

theorem populateRecord_get {cols : List (String × Kind)} (distinct : (cols.map Prod.fst).Nodup) {j : Json} {r : Record}
    (read : populateRecord cols j = some r) {name : String} {k : Kind} (column : (name, k) ∈ cols) :
    populateField k ((j.field name).getD .null) = some (r.get name) := by
  induction cols generalizing r with
  | nil => exact absurd column List.not_mem_nil
  | cons c cols ih =>
      obtain ⟨name', k'⟩ := c
      rw [List.map_cons, List.nodup_cons] at distinct
      rw [populateRecord] at read
      cases first : populateField k' ((j.field name').getD .null) with
      | none => simp only [first, reduceCtorEq] at read
      | some d =>
          cases rest : populateRecord cols j with
          | none => simp only [first, rest, reduceCtorEq] at read
          | some r' =>
              simp only [first, rest, Option.some.injEq] at read
              subst read
              rcases List.mem_cons.mp column with here | later
              · obtain ⟨rfl, rfl⟩ := Prod.mk.inj here
                rw [first, Record.get, List.lookup_cons_self]
                rfl
              · have other : (name == name') = false := by
                  apply beq_false_of_ne
                  rintro rfl
                  exact distinct.1 (List.mem_map.mpr ⟨_, later, rfl⟩)
                rw [ih distinct.2 rest later, Record.get, Record.get, List.lookup_cons, other]

theorem ViewSpec.Tabled.deltaRows_counts (tabled : spec.Tabled) (fromList : List (List BaseRow)) (sign : Sign) :
    ∀ op ∈ deltaRows spec fromList sign, op.Counts spec := by
  intro op member
  obtain ⟨r, inQuery, rfl⟩ := List.mem_map.mp member
  intro shape count named r' read
  have view : spec.IsAggregate count := ⟨shape, named, tabled.distinct⟩
  rw [ViewSpec.evalQuery, ViewSpec.output, shape] at inQuery
  obtain ⟨keys, inKeys, rfl⟩ := List.mem_map.mp inQuery
  have length : keys.length = spec.columns.length := by
    obtain ⟨ρ, _, rfl⟩ := List.mem_map.mp (List.mem_dedup.mp inKeys)
    exact spec.groupKeys_length ρ
  have column : (count, Kind.numeric) ∈ spec.tableColumns := by
    rw [view.tableColumns_eq]
    exact List.mem_append_left _ (List.mem_append_right _ List.mem_cons_self)
  have stored := populateRecord_get tabled.distinct read column
  rw [Record.field_get, view.groupRow_eq, view.layout_count length] at stored
  exact ⟨_, (Option.some.inj stored).symm⟩

theorem planSingleInsert_counts (tabled : spec.Tabled) {rel : Relation} {new : Tuple} {ops : List Op}
    (planned : planSingleInsert pf spec rel new = .ok ops) : ∀ op ∈ ops, op.Counts spec := by
  obtain ⟨row, _, rfl⟩ := ok_of_map planned
  exact tabled.deltaRows_counts _ _

theorem planSingleDelete_counts (tabled : spec.Tabled) {rel : Relation} {keyKind : UInt8} {old : Tuple} {ops : List Op}
    (planned : planSingleDelete pf spec rel keyKind old = .ok (.ops ops)) : ∀ op ∈ ops, op.Counts spec := by
  unfold planSingleDelete at planned
  cases shape : spec.shape with
  | projection =>
      simp only [shape] at planned
      obtain ⟨conds, _, same⟩ := ok_of_map planned
      cases conds with
      | error reason => cases same
      | ok conds =>
          obtain rfl := Planned.ops.inj same
          exact fun op member => List.mem_singleton.mp member ▸ trivial
  | aggregate =>
      simp only [shape] at planned
      split at planned
      · cases planned
      · obtain ⟨row, _, same⟩ := ok_of_map planned
        obtain rfl := Planned.ops.inj same
        exact tabled.deltaRows_counts _ _

theorem planJoin_counts (tabled : spec.Tabled) {tables : Nat → Option (List BaseRow)} {index : Nat} {rel : Relation} {tuple : Tuple}
    {sign : Sign} {ops : List Op} (planned : planJoin pf tables spec index rel tuple sign = .ok ops) : ∀ op ∈ ops, op.Counts spec := by
  unfold planJoin at planned
  cases bound : bindRow pf rel tuple with
  | error e => simp only [bound, reduceCtorEq] at planned
  | ok row =>
      simp only [bound] at planned
      obtain ⟨sources, _, rfl⟩ := ok_of_map planned
      exact tabled.deltaRows_counts _ _

theorem withResolved_ops {resolved : Except Unresolved Tuple} {next : Tuple → Except String Planned} {ops : List Op}
    (planned : withResolved resolved next = .ok (.ops ops)) : ∃ t, next t = .ok (.ops ops) := by
  unfold withResolved at planned
  split at planned
  · exact ⟨_, planned⟩
  · cases planned
  · cases planned

theorem planJoinChange_counts {view : LiveView} (tabled : view.row.spec.Tabled) {tables : Nat → Option (List BaseRow)} {rel : Relation}
    {change : Change} {oldFull : Option Tuple} {ops : List Op}
    (planned : planJoinChange pf tables view rel change oldFull = .ok (.ops ops)) : ∀ op ∈ ops, op.Counts view.row.spec := by
  unfold planJoinChange at planned
  cases found : view.row.spec.relationIndex rel.id with
  | none => simp only [found, reduceCtorEq] at planned
  | some index =>
      simp only [found] at planned
      cases change with
      | insert relid new =>
          obtain ⟨t, joined⟩ := withResolved_ops planned
          obtain ⟨added, one, same⟩ := ok_of_map joined
          obtain rfl := Planned.ops.inj same
          exact planJoin_counts tabled one
      | delete relid kind old =>
          cases oldFull with
          | none => cases planned
          | some old =>
              obtain ⟨removed, one, same⟩ := ok_of_map planned
              obtain rfl := Planned.ops.inj same
              exact planJoin_counts tabled one
      | update relid old new =>
          cases oldFull with
          | none => cases planned
          | some old =>
              simp only at planned
              split at planned
              · obtain rfl := Planned.ops.inj (Except.ok.inj planned)
                exact fun op member => absurd member List.not_mem_nil
              · split at planned
                · cases planned
                · rename_i removed minus
                  obtain ⟨t, joined⟩ := withResolved_ops planned
                  obtain ⟨added, plus, same⟩ := ok_of_map joined
                  obtain rfl := Planned.ops.inj same
                  exact List.forall_mem_append.mpr ⟨planJoin_counts tabled minus, planJoin_counts tabled plus⟩
      | truncate relids => cases planned

theorem planSingleChange_counts {view : LiveView} (tabled : view.row.spec.Tabled) {rel : Relation} {change : Change} {ops : List Op}
    (planned : planSingleChange pf view rel change = .ok (.ops ops)) : ∀ op ∈ ops, op.Counts view.row.spec := by
  unfold planSingleChange at planned
  cases change with
  | insert relid new =>
      obtain ⟨t, one⟩ := withResolved_ops planned
      obtain ⟨added, inserted, same⟩ := ok_of_map one
      obtain rfl := Planned.ops.inj same
      exact planSingleInsert_counts tabled inserted
  | delete relid kind old => exact planSingleDelete_counts tabled planned
  | update relid old new =>
      simp only at planned
      split at planned
      · obtain rfl := Planned.ops.inj (Except.ok.inj planned)
        exact fun op member => absurd member List.not_mem_nil
      · split at planned
        · cases planned
        · cases planned
        · rename_i removed minus
          obtain ⟨t, one⟩ := withResolved_ops planned
          obtain ⟨added, plus, same⟩ := ok_of_map one
          obtain rfl := Planned.ops.inj same
          exact List.forall_mem_append.mpr ⟨planSingleDelete_counts tabled minus, planSingleInsert_counts tabled plus⟩
  | truncate relids => cases planned

theorem planChange_counts {view : LiveView} (tabled : view.row.spec.Tabled) {tables : Nat → Option (List BaseRow)} {rel : Relation}
    {change : Change} {oldFull : Option Tuple} {ops : List Op} (planned : planChange pf tables view rel change oldFull = .ok (.ops ops)) :
    ∀ op ∈ ops, op.Counts view.row.spec := by
  unfold planChange at planned
  split at planned
  · exact planJoinChange_counts tabled planned
  · exact planSingleChange_counts tabled planned

/-- The views of a round, each time as they are about to execute their part of a transaction. -/
def executions (pf : Platform) (settings : Settings) (faults : Faults) (rels : List (Nat × Relation)) :
    List SourceTransaction → RoundState → List LiveView
  | [], _ => []
  | tx :: txs, st =>
    match applyChanges pf faults rels tx.endLsn 0 tx.changes st with
    | .error _ => []
    | .ok planned => planned.views ++ executions pf settings faults rels txs
        ⟨planned.views.map (executeView pf settings faults tx), planned.shadows.map (advanceShadow tx.endLsn)⟩

def roundExecutions (pf : Platform) (settings : Settings) (faults : Faults) (cache : Nat → Option Relation) (c : Catalog)
    (txs : List SourceTransaction) : List LiveView :=
  match roundStart pf cache c txs with
  | .error _ => []
  | .ok (rels, start) => executions pf settings faults rels txs start

/-- What the planned rows of a view have to be: rows with their keys, that are read back as written. -/
structure LiveView.Faithful (pf : Platform) (v : LiveView) : Prop where
  keys : ∀ op ∈ v.ops, op.HasKey v.row.spec
  reads : ∀ storage deltas, execute pf v.row.spec v.row.storage v.ops = .ok (storage, deltas) → ReadsBack pf deltas

/-- What planning and executing keep of every view holds of the views after a round. -/
theorem applyTransactions_views {P Q : LiveView → Prop} (plans : ∀ {e position relid tables rel change old v}, P v →
      P (planView pf faults e position relid tables rel change old v))
    (loses : ∀ {relid rel message v}, P v → P (shadowLost relid rel message v))
    (executes : ∀ {tx v}, P v → Q v → P (executeView pf settings faults tx v))
    {rels : List (Nat × Relation)} {ti : Nat} {txs : List SourceTransaction} {st st' : RoundState} {blockedAt : Option Nat}
    (ran : applyTransactions pf settings faults rels ti txs st = .ok (st', blockedAt))
    (clean : ∀ v ∈ executions pf settings faults rels txs st, Q v) (start : ∀ v ∈ st.views, P v) : ∀ v ∈ st'.views, P v := by
  have planned : ∀ {e changes} {st st' : RoundState}, applyChanges pf faults rels e 0 changes st = .ok st' →
      (∀ v ∈ st.views, P v) → ∀ v ∈ st'.views, P v := by
    intro e changes st st' applied
    refine applyChanges_rule (P := fun st st' => (∀ v ∈ st.views, P v) → ∀ v ∈ st'.views, P v) ?_ ?_ ?_ applied
    · exact fun st => id
    · exact fun first second => second ∘ first
    · intro position relid change st st' step before v member
      obtain ⟨rel, _, outcome⟩ := applyRelid_ok step
      have each : ∀ v ∈ plannedViews pf faults e position relid rel change st, P v := by
        intro v within
        obtain ⟨v₀, inViews, rfl⟩ := List.mem_map.mp within
        exact plans (before v₀ inViews)
      cases outcome with
      | unread => exact each v member
      | absorbed => exact each v member
      | lost =>
          obtain ⟨v₀, inViews, rfl⟩ := List.mem_map.mp member
          exact loses (each v₀ inViews)
  induction txs generalizing ti st blockedAt with
  | nil =>
      obtain ⟨rfl, rfl⟩ := Prod.mk.inj (Except.ok.inj ran)
      exact start
  | cons tx txs ih =>
      rw [applyTransactions] at ran
      rw [executions] at clean
      cases first : applyTransaction pf settings faults rels tx st with
      | error message => simp only [first, reduceCtorEq] at ran
      | ok step =>
          obtain ⟨st₁, blocked⟩ := step
          simp only [first] at ran
          obtain ⟨r, rest, same⟩ := ok_of_map ran
          obtain ⟨rfl, _⟩ := Prod.mk.inj same
          unfold applyTransaction at first
          obtain ⟨between, changed, same'⟩ := ok_of_map first
          obtain ⟨rfl, _⟩ := Prod.mk.inj same'
          simp only [changed] at clean
          refine ih rest (fun v member => clean v (List.mem_append_right _ member)) fun v member => ?_
          obtain ⟨v₀, inViews, rfl⟩ := List.mem_map.mp member
          exact executes (planned changed start v₀ inViews) (clean v₀ (List.mem_append_left _ inViews))

def LoggedDelta.delta (d : LoggedDelta) : Delta := ⟨d.op, d.rowJson⟩

theorem numberDeltas_delta (tx : SourceTransaction) (seq : Nat) (deltas : List Delta) :
    (numberDeltas tx seq deltas).map LoggedDelta.delta = deltas := by
  induction deltas generalizing seq with
  | nil => rfl
  | cons d deltas ih =>
      rw [numberDeltas, List.map_cons, ih]
      rfl

def ViewSpec.shownEvents (spec : ViewSpec) (log : List LoggedDelta) : List (Bags.Event Json) := log.map fun d => spec.shownEvent d.delta

theorem ViewSpec.shownEvents_append (spec : ViewSpec) (first second : List LoggedDelta) :
    spec.shownEvents (first ++ second) = spec.shownEvents first ++ spec.shownEvents second := List.map_append

/-- A view in a round that began with a given row: it holds its table, and what it logged so
far is the difference. -/
structure LiveView.Carries (first : ViewRow) (v : LiveView) : Prop where
  spec : v.row.spec = first.spec
  counts : ∀ op ∈ v.ops, op.Counts first.spec
  held : first.spec.Held v.row.storage
  patches : Patches (first.spec.shown first.storage) (first.spec.shownEvents v.pending) (first.spec.shown v.row.storage)

theorem LiveView.Carries.load {first : ViewRow} (held : first.spec.Held first.storage) (stale : Option String) :
    LiveView.Carries first { LiveView.load first with stale := stale } :=
  ⟨rfl, fun _ member => absurd member List.not_mem_nil, held, .nil (.refl _)⟩

section Carries

variable {first : ViewRow} (tabled : first.spec.Tabled) {v : LiveView} (carries : v.Carries first)
include carries

theorem LiveView.Carries.of_same {v' : LiveView} (spec : v'.row.spec = v.row.spec) (storage : v'.row.storage = v.row.storage)
    (pending : v'.pending = v.pending) (ops : v'.ops = v.ops ∨ v'.ops = []) : v'.Carries first := by
  refine ⟨spec.trans carries.spec, ?_, storage ▸ carries.held, ?_⟩
  · rcases ops with same | none
    · exact same ▸ carries.counts
    · exact none ▸ fun _ member => absurd member List.not_mem_nil
  · rw [pending, storage]
    exact carries.patches

theorem LiveView.Carries.lost (relid : Nat) (rel : Relation) (message : String) : (shadowLost relid rel message v).Carries first := by
  unfold shadowLost
  split
  · exact carries.of_same rfl rfl rfl (.inl rfl)
  · exact carries

include tabled

theorem LiveView.Carries.plan (e position relid : Nat) (tables : Nat → Option (List BaseRow)) (rel : Relation) (change : Change)
    (old : Except String (Option Tuple)) : (planView pf faults e position relid tables rel change old v).Carries first := by
  unfold planView
  split
  · exact carries
  · split
    · exact carries.of_same rfl rfl rfl (.inl rfl)
    · split
      · rename_i ops planned
        have counts := planChange_counts (carries.spec ▸ tabled) (inSubtransaction_ok planned)
        rw [carries.spec] at counts
        exact ⟨carries.spec, List.forall_mem_append.mpr ⟨carries.counts, counts⟩, carries.held, carries.patches⟩
      · exact carries.of_same rfl rfl rfl (.inl rfl)
      · exact carries.of_same rfl rfl rfl (.inl rfl)

/-- Executed operations log what takes the rows before to the rows after. -/
theorem LiveView.Carries.executed (tx : SourceTransaction) (clean : v.Faithful pf) {storage : List Record} {deltas : List Delta}
    (done : Nabla.execute pf v.row.spec v.row.storage v.ops = .ok (storage, deltas)) :
    first.spec.Held storage ∧ Patches (first.spec.shown v.row.storage)
      (first.spec.shownEvents (numberDeltas tx v.lastSeq (net pf v.row.spec deltas))) (first.spec.shown storage) := by
  have keys := clean.keys
  have reads := clean.reads _ _ done
  rw [carries.spec] at done keys
  have plays := tabled.execute_plays carries.held carries.counts keys done
  have logged : first.spec.shownEvents (numberDeltas tx v.lastSeq (net pf v.row.spec deltas)) =
      (net pf first.spec deltas).map first.spec.shownEvent := by
    have numbered := congrArg (List.map first.spec.shownEvent) (numberDeltas_delta tx v.lastSeq (net pf v.row.spec deltas))
    rw [List.map_map, carries.spec] at numbered
    rw [carries.spec]
    exact numbered
  rw [logged]
  exact ⟨plays.held, plays.patches carries.held reads⟩

theorem LiveView.Carries.execute (tx : SourceTransaction) (clean : v.Faithful pf) : (executeView pf settings faults tx v).Carries first := by
  unfold executeView
  split
  · exact carries
  · split
    · exact carries.of_same rfl rfl rfl (.inl rfl)
    · exact carries.of_same rfl rfl rfl (.inl rfl)
    · split
      · rename_i storage deltas executed
        obtain ⟨held, patches⟩ := carries.executed tabled tx clean (inSubtransaction_ok executed)
        refine ⟨carries.spec, fun _ member => absurd member List.not_mem_nil, held, ?_⟩
        rw [ViewSpec.shownEvents_append]
        exact carries.patches.trans patches
      · exact carries.of_same rfl rfl rfl (.inr rfl)

end Carries

/-- A row as it was some log rows earlier, and now. -/
structure ViewRow.Follows (row : ViewRow) (new : List LoggedDelta) (row' : ViewRow) : Prop where
  id : row'.id = row.id
  spec : row'.spec = row.spec
  epoch : row'.epoch = row.epoch
  populated : row'.populated = row.populated
  status : row'.status = row.status ∨ (row'.status ≠ .live ∧ row'.status ≠ .initializing)
  logs : new ≠ [] → row.status = .live
  frontier : row.frontier ≤ row'.frontier
  beyond : ∀ d ∈ new, row.frontier < d.lsn
  keeps : ∀ w, row.Keeps w → row'.Keeps (w.append new)
  patches : row.spec.Held row.storage → row.spec.Held row'.storage ∧
    Patches (row.spec.shown row.storage) (row.spec.shownEvents new) (row.spec.shown row'.storage)

theorem ViewRow.Follows.of_quiet {row row' : ViewRow} (id : row'.id = row.id) (spec : row'.spec = row.spec) (epoch : row'.epoch = row.epoch)
    (populated : row'.populated = row.populated) (status : row'.status = row.status ∨ (row'.status ≠ .live ∧ row'.status ≠ .initializing))
    (lastSeq : row'.lastSeq = row.lastSeq) (deltas : row'.deltas = row.deltas) (frontier : row.frontier ≤ row'.frontier)
    (storage : row'.storage = row.storage) : row.Follows [] row' where
  id := id
  spec := spec
  epoch := epoch
  populated := populated
  status := status
  logs := fun some => absurd rfl some
  frontier := frontier
  beyond := fun _ member => absurd member List.not_mem_nil
  keeps := by
    intro w keeps
    rw [Written.append_nil]
    exact keeps.kept lastSeq deltas frontier
  patches := by
    rw [storage]
    exact fun held => ⟨held, .nil (.refl _)⟩

theorem ViewRow.Follows.refl (row : ViewRow) : row.Follows [] row := .of_quiet rfl rfl rfl rfl (.inl rfl) rfl rfl (le_refl _) rfl

theorem applyRound_carries {cache : Nat → Option Relation} {c : Catalog} {txs : List SourceTransaction} {result : RoundResult}
    (ids : Keyed ViewRow.id c.views) (applied : applyRound pf settings faults cache c txs = .ok result) {row : ViewRow} (member : row ∈ c.views)
    (tabled : row.spec.Tabled) (held : row.spec.Held row.storage)
    (faithful : ∀ v ∈ roundExecutions pf settings faults cache c txs, v.row.id = row.id → v.Faithful pf) :
    ∀ v ∈ result.views, v.row.id = row.id → v.Carries row := by
  unfold applyRound at applied
  unfold roundExecutions roundStart at faithful
  cases collected : collectRelations pf (changedRelids txs) cache [] with
  | error message => simp only [collected, reduceCtorEq] at applied
  | ok described =>
      simp only [collected, Except.map] at applied faithful
      generalize (txs.getLast?.map SourceTransaction.endLsn).getD 0 = e at applied faithful
      have views := foldl_driftRelation_views e described.2 ⟨c.liveViews, c.shadows⟩
      generalize described.2.foldl (driftRelation e) ⟨c.liveViews, c.shadows⟩ = start at applied faithful views
      cases ran : applyTransactions pf settings faults described.2 0 txs start with
      | error message => simp only [ran, reduceCtorEq] at applied
      | ok done =>
          simp only [ran] at applied
          obtain ⟨written, _, rfl⟩ := ok_of_map applied
          refine applyTransactions_views (P := fun v => v.row.id = row.id → v.Carries row) ?_ ?_ ?_ ran faithful ?_
          · intro e position relid tables rel change old v carries same
            have kept := planView_kept pf faults e position relid tables rel change old v
            rw [kept.row] at same
            exact (carries same).plan tabled e position relid tables rel change old
          · intro relid rel message v carries same
            have kept := shadowLost_kept 0 relid rel message v
            rw [kept.row] at same
            exact (carries same).lost relid rel message
          · intro tx v carries clean same
            have same' := (executeView_outcome pf settings faults rfl (LiveView.Kept.refl tx.endLsn v)).same.id
            rw [same'] at same
            exact (carries same).execute tabled tx (clean same)
          · intro v member' same
            rw [views] at member'
            obtain ⟨v₀, inLive, rfl⟩ := List.mem_map.mp member'
            obtain ⟨row₀, inCatalog, _, rfl⟩ := Catalog.mem_liveViews inLive
            rw [foldl_driftBy] at same ⊢
            obtain rfl := ids.eq_of_mem inCatalog member same
            exact .load held _

theorem LiveView.settledRow_rest (v : LiveView) : (v.settledRow settings).epoch = v.row.epoch ∧
    (v.settledRow settings).populated = v.row.populated ∧ (v.settledRow settings).storage = v.row.storage := by
  unfold LiveView.settledRow
  cases v.absorbed.getLast? <;> exact ⟨rfl, rfl, rfl⟩

/-- What a round makes of a live row. -/
theorem LiveView.Carries.settled {first : ViewRow} {v : LiveView} (carries : v.Carries first) (same : first.Same v.row)
    (live : first.status = .live) (status : v.row.status = first.status ∨ v.row.status = .stale) (logs : v.Logs) (tidy : v.Tidy) (retain : 1 ≤ settings.retainDeltas) :
    first.Follows v.pending (v.settledRow settings) := by
  obtain ⟨id, spec, status'⟩ := @LiveView.settledRow_same settings v
  obtain ⟨epoch, populated, storage⟩ := @LiveView.settledRow_rest settings v
  refine ⟨id.trans same.id, spec.trans carries.spec, epoch.trans ?_, populated.trans ?_, ?_, fun _ => live, ?_, fun d logged => ?_,
    fun w keeps => ?_, fun _ => ?_⟩
  · rw [same]
  · rw [same]
  · rw [status']
    rcases status with unchanged | stale
    · exact .inl unchanged
    · exact .inr ⟨stale ▸ Status.noConfusion, stale ▸ Status.noConfusion⟩
  · rw [(@LiveView.Tidy.settled settings v tidy).2.1, ← same.frontier]
    exact logs.frontier
  · obtain ⟨blocks, pending, _, bounds⟩ := logs.blocks
    rw [pending] at logged
    obtain ⟨_, _, b, within, lsn, _⟩ := mem_numberBlocks logged
    rw [lsn, ← same.frontier]
    exact (bounds b within).1
  · refine logs.settled tidy (keeps.kept ?_ ?_ ?_) retain
    · rw [same]
    · rw [same]
    · rw [same]
  · rw [storage]
    exact ⟨carries.held, carries.patches⟩

/-- What a round makes of a row: a live view's comes out of the round's work on it, any other
stays. -/
theorem applyRound_row {cache : Nat → Option Relation} {c : Catalog} {txs : List SourceTransaction} {result : RoundResult}
    (ids : Keyed ViewRow.id c.views) (applied : applyRound pf settings faults cache c txs = .ok result) {row row' : ViewRow} (member : row ∈ c.views)
    (member' : row' ∈ result.catalog.views) (sameRow : row'.id = row.id) :
    (row.status ≠ .live ∧ row' = row) ∨ row.status = .live ∧ ∃ v ∈ result.views, row' = v.settledRow settings ∧ row.Same v.row ∧
      (v.row.status = row.status ∨ v.row.status = .stale) ∧ v.Logs ∧ v.Tidy := by
  obtain ⟨events, h, replays, views, rows⟩ := applyRound_settled ids applied
  have sameId : ∀ v, (h v).row.id = v.row.id := by
    intro v
    obtain ⟨stale, eq⟩ := replays v
    rw [eq, replay_same_id]
  rw [rows] at member'
  obtain ⟨row₀, inCatalog, rfl⟩ := List.mem_map.mp member'
  have sameRow₀ : row₀.id = row.id := by
    by_cases live : row₀.status = .live
    · rw [if_pos live] at sameRow
      exact (sameId (LiveView.load row₀)).symm.trans ((LiveView.settledRow_same _).1.symm.trans sameRow)
    · rwa [if_neg live] at sameRow
  obtain rfl := ids.eq_of_mem inCatalog member sameRow₀
  by_cases live : row₀.status = .live
  · obtain ⟨stale, eq⟩ := replays (LiveView.load row₀)
    rw [if_pos live]
    have within : h (LiveView.load row₀) ∈ result.views := by
      rw [views]
      exact List.mem_map_of_mem (List.mem_map_of_mem (List.mem_filter.mpr ⟨member, decide_eq_true live⟩))
    refine .inr ⟨live, h (LiveView.load row₀), within, rfl, ?_⟩
    rw [eq]
    exact ⟨@replay_same pf settings faults events { LiveView.load row₀ with stale := stale }, replay_status events _,
      replay_logs events (LiveView.load_logs row₀ stale), replay_tidy events (LiveView.load_tidy row₀ stale)⟩
  · exact .inl ⟨live, if_neg live⟩

/-- A round takes the row of a view to the one that follows by what the round logs for it. -/
theorem applyRound_follows {cache : Nat → Option Relation} {c : Catalog} {txs : List SourceTransaction} {result : RoundResult}
    (ids : Keyed ViewRow.id c.views) (applied : applyRound pf settings faults cache c txs = .ok result) {row row' : ViewRow} (member : row ∈ c.views)
    (member' : row' ∈ result.catalog.views) (sameRow : row'.id = row.id) (retain : 1 ≤ settings.retainDeltas)
    (tabled : row.status = .live → row.spec.Tabled) (held : row.status = .live → row.spec.Held row.storage)
    (faithful : ∀ v ∈ roundExecutions pf settings faults cache c txs, v.row.id = row.id → v.Faithful pf) :
    ∃ new, row.Follows new row' := by
  rcases applyRound_row ids applied member member' sameRow with ⟨_, rfl⟩ | ⟨live, v, within, rfl, same, status, logs, tidy⟩
  · exact ⟨[], .refl row'⟩
  · have carries := applyRound_carries ids applied member (tabled live) (held live) faithful v within same.id
    exact ⟨v.pending, carries.settled same live status logs tidy retain⟩

theorem applyRound_appends {cache : Nat → Option Relation} {c : Catalog} {txs : List SourceTransaction} {result : RoundResult}
    (ids : Keyed ViewRow.id c.views) (applied : applyRound pf settings faults cache c txs = .ok result) {row row' : ViewRow} (member : row ∈ c.views)
    (member' : row' ∈ result.catalog.views) (sameRow : row'.id = row.id) (retain : 1 ≤ settings.retainDeltas) :
    ∃ new, ∀ w, row.Keeps w → row'.Keeps (w.append new) := by
  rcases applyRound_row ids applied member member' sameRow with ⟨_, rfl⟩ | ⟨_, v, _, rfl, same, _, logs, tidy⟩
  · exact ⟨[], fun w keeps => by rwa [Written.append_nil]⟩
  · refine ⟨v.pending, fun w keeps => logs.settled tidy (keeps.kept ?_ ?_ same.frontier.ge) retain⟩
    · rw [same]
    · rw [same]

end Nabla
