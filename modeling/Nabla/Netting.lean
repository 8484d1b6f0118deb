import Nabla.Aggregate
import Nabla.Lib.Netting

/-! The net effect of one transaction's deltas against the rows they were made on. -/
namespace Nabla
open Bags

variable {pf : Platform} {spec : ViewSpec}

def ViewSpec.identityOf (spec : ViewSpec) (row : Json) : List Json := (identityColumns spec).map fun c => (row.field c).getD .null

def Delta.event (d : Delta) : Event Json :=
  match d.op with
  | .D => .remove d.rowJson
  | .I => .add d.rowJson

def deltaOf : Event Json → Delta
  | .remove row => ⟨.D, row⟩
  | .add row => ⟨.I, row⟩

theorem event_deltaOf (e : Event Json) : (deltaOf e).event = e := by
  cases e <;> rfl

theorem Delta.event_row (d : Delta) : d.event.row = d.rowJson := by
  obtain ⟨op, row⟩ := d
  cases op <;> rfl

def NetState.entry (s : NetState) : Entry Json (List Json) := ⟨s.key, s.before, s.after⟩

theorem netEvent_entries (states : List NetState) (d : Delta) :
    (netEvent (spec.identityOf d.rowJson) d.op d.rowJson states).map NetState.entry =
      record spec.identityOf (states.map NetState.entry) d.event := by
  obtain ⟨op, row⟩ := d
  induction states with
  | nil => cases op <;> rfl
  | cons s states ih =>
      have row_eq : (Delta.mk op row).event.row = row := Delta.event_row _
      rw [netEvent, List.map_cons, record, row_eq]
      by_cases here : s.key = spec.identityOf row
      · rw [if_pos here, if_pos (show s.entry.key = _ from here)]
        cases op <;> rfl
      · rw [if_neg here, if_neg (show ¬ s.entry.key = _ from here), List.map_cons, ih]

/-- Every row of the deltas is read back as it was written. -/
def ReadsBack (pf : Platform) (deltas : List Delta) : Prop := ∀ d ∈ deltas, pf.serdeParse d.rowJson = some d.rowJson

theorem netStates_entries {deltas : List Delta} (reads : ReadsBack pf deltas) (states : List NetState) :
    (netStates pf spec deltas states).map NetState.entry =
      (deltas.map Delta.event).foldl (record spec.identityOf) (states.map NetState.entry) := by
  induction deltas generalizing states with
  | nil => rfl
  | cons d deltas ih =>
      have rest := ih fun e member => reads e (List.mem_cons_of_mem _ member)
      rw [netStates, reads d List.mem_cons_self]
      simp only
      rw [rest, List.map_cons, List.foldl_cons, ← netEvent_entries]
      rfl

/-- The deltas of one key: its row before, then its row after, unless both show the same. -/
def netOf (spec : ViewSpec) (before after : Option Json) : List Delta :=
  if before.map (visible spec) = after.map (visible spec) then []
  else (before.map (Delta.mk .D)).toList ++ (after.map (Delta.mk .I)).toList

theorem netOf_events (s : Entry Json (List Json)) : (s.events (visible spec)).map deltaOf = netOf spec s.before s.after := by
  rw [Entry.events, netOf]
  split
  · rfl
  · obtain ⟨key, before, after⟩ := s
    cases before <;> cases after <;> rfl

theorem net_events {deltas : List Delta} (reads : ReadsBack pf deltas) :
    net pf spec deltas = (netEvents spec.identityOf (visible spec) (deltas.map Delta.event)).map deltaOf := by
  rw [netEvents, summarize, List.map_flatMap, show ([] : List (Entry Json (List Json))) = ([] : List NetState).map NetState.entry from rfl,
    ← netStates_entries reads, List.flatMap_map]
  apply List.flatMap_congr
  intro s _
  exact (netOf_events s.entry).symm

def rowsOf (op : DeltaOp) (deltas : List Delta) : List Json := (deltas.filter (·.op = op)).map Delta.rowJson

/-- A transaction's deltas for a view with these rows: each `D` carries the current row of
its key, and each `I` comes when the key is absent. -/
def ViewSpec.Consistent (spec : ViewSpec) (rows : List Json) (deltas : List Delta) : Prop :=
  Keyed spec.identityOf rows ∧ AllFit spec.identityOf rows (deltas.map Delta.event)

def ViewSpec.played (spec : ViewSpec) (rows : List Json) (deltas : List Delta) : List Json :=
  playAll spec.identityOf rows (deltas.map Delta.event)

/-- The net deltas say for each key what it showed before and after the transaction. -/
structure NetExact (pf : Platform) (spec : ViewSpec) (rows : List Json) (deltas : List Delta) : Prop where
  perKey : ∀ key, ((net pf spec deltas).filter fun d => spec.identityOf d.rowJson = key) =
    netOf spec (rowAt spec.identityOf key rows) (rowAt spec.identityOf key (spec.played rows deltas))
  contents : ((rows.map (visible spec)).diff ((rowsOf .D (net pf spec deltas)).map (visible spec)) ++
    (rowsOf .I (net pf spec deltas)).map (visible spec)).Perm ((spec.played rows deltas).map (visible spec))
  ordered : (net pf spec deltas).Pairwise fun d e =>
    firstEvent spec.identityOf (deltas.map Delta.event) (spec.identityOf d.rowJson) ≤
      firstEvent spec.identityOf (deltas.map Delta.event) (spec.identityOf e.rowJson)
  idempotent : net pf spec (net pf spec deltas) = net pf spec deltas

theorem rowsOf_removed (events : List (Event Json)) : rowsOf .D (events.map deltaOf) = events.filterMap Event.removed := by
  induction events with
  | nil => rfl
  | cons e events ih =>
      cases e with
      | remove row => exact congrArg (row :: ·) ih
      | add row => exact ih

theorem rowsOf_added (events : List (Event Json)) : rowsOf .I (events.map deltaOf) = events.filterMap Event.added := by
  induction events with
  | nil => rfl
  | cons e events ih =>
      cases e with
      | remove row => exact ih
      | add row => exact congrArg (row :: ·) ih

theorem deltaOf_row (e : Event Json) : (deltaOf e).rowJson = e.row := by
  cases e <;> rfl

theorem netExact_of_reads {rows : List Json} {deltas : List Delta} (consistent : spec.Consistent rows deltas)
    (reads : ReadsBack pf deltas) : NetExact pf spec rows deltas := by
  obtain ⟨keyed, fits⟩ := consistent
  have nets := nets_summarize keyed fits
  have events := @net_events pf spec deltas reads
  have out : ReadsBack pf (net pf spec deltas) := by
    intro d member
    rw [events] at member
    obtain ⟨e, within, rfl⟩ := List.mem_map.mp member
    rw [deltaOf_row]
    refine @netEvents_rows _ _ _ _ _ _ _ _ (fun row => pf.serdeParse row = some row) ?_ e within
    intro e within
    obtain ⟨d, inDeltas, rfl⟩ := List.mem_map.mp within
    rw [d.event_row]
    exact reads d inDeltas
  constructor
  · intro key
    have block := @Nets.filter_key _ _ _ _ _ _ (visible spec) _ _ _ nets key
    have read : (fun d : Delta => decide (spec.identityOf d.rowJson = key)) ∘ deltaOf = fun e => decide (spec.identityOf e.row = key) := by
      funext e
      simp only [Function.comp_apply, deltaOf_row]
    rw [events, List.filter_map, read]
    exact (congrArg (List.map deltaOf) block).trans (netOf_events _)
  · rw [events, rowsOf_removed, rowsOf_added]
    exact nets.contents keyed (fits.keyed keyed)
  · rw [events, List.pairwise_map]
    have ordered := @Nets.ordered _ _ _ _ _ _ (visible spec) _ _ _ nets
    simp only [deltaOf_row]
    exact ordered
  · have same : (net pf spec deltas).map Delta.event = netEvents spec.identityOf (visible spec) (deltas.map Delta.event) := by
      rw [events, List.map_map]
      refine (List.map_congr_left fun e _ => ?_).trans (List.map_id _)
      exact event_deltaOf e
    rw [net_events out, same, events]
    exact congrArg (List.map deltaOf) nets.idempotent

/-- Netting is exact for every consistent sequence of these rows exactly when each of them is
read back as written. -/
theorem net_exact_iff (pf : Platform) (spec : ViewSpec) (Row : Json → Prop) :
    (∀ rows deltas, (∀ d ∈ deltas, Row d.rowJson) → spec.Consistent rows deltas → NetExact pf spec rows deltas) ↔
      ∀ row, Row row → pf.serdeParse row = some row := by
  constructor
  · intro exactly row within
    have exact : NetExact pf spec [row] [⟨.D, row⟩] := by
      refine exactly [row] [⟨.D, row⟩] (fun d member => ?_) ⟨List.nodup_singleton _, List.mem_singleton_self _, trivial⟩
      obtain rfl := List.mem_singleton.mp member
      exact within
    have keyed : Keyed spec.identityOf [row] := List.nodup_singleton _
    have before : rowAt spec.identityOf (spec.identityOf row) [row] = some row :=
      keyed.rowAt_iff.mpr ⟨List.mem_singleton_self _, rfl⟩
    have after : rowAt spec.identityOf (spec.identityOf row) (spec.played [row] [⟨.D, row⟩]) = none :=
      @Event.Fits.rowAt_play _ _ _ spec.identityOf [row] (.remove row) (List.mem_singleton_self _)
    have block := exact.perKey (spec.identityOf row)
    rw [before, after] at block
    cases read : pf.serdeParse row with
    | none =>
        have empty : net pf spec [⟨.D, row⟩] = [] := by simp only [net, netStates, read, List.flatMap_nil]
        rw [empty] at block
        cases block
    | some row' =>
        have single : net pf spec [⟨.D, row⟩] = [⟨.D, row'⟩] := by simp only [net, netStates, read]; rfl
        rw [single] at block
        have member : Delta.mk .D row ∈ [Delta.mk .D row'].filter fun d => spec.identityOf d.rowJson = spec.identityOf row :=
          block ▸ List.mem_singleton_self _
        have same := List.mem_singleton.mp (List.mem_of_mem_filter member)
        rw [(Delta.mk.inj same).2]
  · intro reads rows deltas within consistent
    exact netExact_of_reads consistent fun d member => reads _ (within d member)

/-- The double nearest to a number, as `serde_json` prints it, for two numbers. -/
def nearestDouble (q : ℚ) : ℚ := if q = 1 / 10 + 1 / 10 ^ 20 then 1 / 10 else q

def doubles : Json → Json
  | .obj fields => .obj (fields.map fun f => (f.1, match f.2 with | .num q => .num (nearestDouble q) | j => j))
  | j => j

def Platform.doubles : Platform := { Platform.basic with serdeParse := fun row => some (Nabla.doubles row) }

def totalRow (total : ℚ) : Json := .obj [("a", .num 1), ("n", .num 2), ("total", .num total), ("nabla_total_nn", .num 2)]

def totalDeltas : List Delta := [⟨.D, totalRow (1 / 10)⟩, ⟨.I, totalRow (1 / 10 + 1 / 10 ^ 20)⟩]

theorem totals_net_lost : totalsSpec.Consistent [totalRow (1 / 10)] totalDeltas ∧ net .doubles totalsSpec totalDeltas = [] ∧
    ¬ NetExact .doubles totalsSpec [totalRow (1 / 10)] totalDeltas := by
  have first : nearestDouble (1 / 10) = 1 / 10 := by norm_num [nearestDouble]
  have second : nearestDouble (1 / 10 + 1 / 10 ^ 20) = 1 / 10 := if_pos rfl
  have count : nearestDouble 2 = 2 := by norm_num [nearestDouble]
  have group : nearestDouble 1 = 1 := by norm_num [nearestDouble]
  have read : ∀ total, nearestDouble total = 1 / 10 → Platform.doubles.serdeParse (totalRow total) = some (totalRow (1 / 10)) := by
    intro total rounds
    simp only [Platform.doubles, Nabla.doubles, totalRow, List.map_cons, List.map_nil, group, count, rounds]
  have empty : net .doubles totalsSpec totalDeltas = [] := by
    simp only [net, totalDeltas, netStates, read _ first, read _ second, netEvent, if_true, List.flatMap_cons, List.flatMap_nil,
      List.append_nil]
  have left : Event.play totalsSpec.identityOf [totalRow (1 / 10)] (Delta.mk .D (totalRow (1 / 10))).event = [] := by
    simp only [Event.play, Delta.event, decide_true, Bool.not_true, List.filter_cons_of_neg, Bool.false_eq_true, not_false_eq_true,
      List.filter_nil]
  have fits : totalsSpec.Consistent [totalRow (1 / 10)] totalDeltas :=
    ⟨List.nodup_singleton _, List.mem_singleton_self _, left ▸ List.not_mem_nil, trivial⟩
  refine ⟨fits, empty, fun exactly => ?_⟩
  have contents := exactly.contents
  have played : totalsSpec.played [totalRow (1 / 10)] totalDeltas = [totalRow (1 / 10 + 1 / 10 ^ 20)] :=
    congrArg (· ++ [totalRow (1 / 10 + 1 / 10 ^ 20)]) left
  rw [empty, played] at contents
  have same := List.singleton_perm_singleton.mp contents
  have totals : some (Json.num (1 / 10)) = some (Json.num (1 / 10 + 1 / 10 ^ 20)) := congrArg (Json.field · "total") same
  norm_num at totals

end Nabla
