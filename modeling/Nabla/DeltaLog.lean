import Nabla.Building
import Nabla.Changes
import Nabla.Partition

/-! The delta log of a view over whole runs, and the pages a subscriber reads of it. -/
namespace Nabla
open Bags

variable {pf : Platform} {settings : Settings} {faults : Faults}

/-- The log rows of source transactions, each with its netted deltas, numbered on from `seq`. -/
def numberBlocks (seq : Nat) : List (SourceTransaction × List Delta) → List LoggedDelta
  | [] => []
  | b :: blocks => numberDeltas b.1 seq b.2 ++ numberBlocks (seq + b.2.length) blocks

def blockCount (blocks : List (SourceTransaction × List Delta)) : Nat := (blocks.map fun b => b.2.length).sum

theorem blockCount_cons (b : SourceTransaction × List Delta) (blocks : List (SourceTransaction × List Delta)) :
    blockCount (b :: blocks) = b.2.length + blockCount blocks := by
  rw [blockCount, List.map_cons, List.sum_cons, ← blockCount]

theorem length_numberBlocks (seq : Nat) (blocks : List (SourceTransaction × List Delta)) :
    (numberBlocks seq blocks).length = blockCount blocks := by
  induction blocks generalizing seq with
  | nil => rfl
  | cons b blocks ih =>
      rw [numberBlocks, List.length_append, length_numberDeltas, ih, blockCount_cons]

theorem numberBlocks_append (seq : Nat) (xs ys : List (SourceTransaction × List Delta)) :
    numberBlocks seq (xs ++ ys) = numberBlocks seq xs ++ numberBlocks (seq + blockCount xs) ys := by
  induction xs generalizing seq with
  | nil => rfl
  | cons b xs ih =>
      rw [List.cons_append, numberBlocks, numberBlocks, ih, List.append_assoc, blockCount_cons, Nat.add_assoc]

theorem seqs_numberDeltas (tx : SourceTransaction) (seq : Nat) (deltas : List Delta) :
    (numberDeltas tx seq deltas).map LoggedDelta.seq = List.range' (seq + 1) deltas.length := by
  induction deltas generalizing seq with
  | nil => rfl
  | cons d deltas ih => rw [numberDeltas, List.map_cons, ih, List.length_cons, List.range'_succ]

theorem seqs_numberBlocks (seq : Nat) (blocks : List (SourceTransaction × List Delta)) :
    (numberBlocks seq blocks).map LoggedDelta.seq = List.range' (seq + 1) (blockCount blocks) := by
  induction blocks generalizing seq with
  | nil => rfl
  | cons b blocks ih =>
      rw [numberBlocks, List.map_append, seqs_numberDeltas, ih, blockCount_cons, Nat.add_right_comm,
        ← List.range'_append_1]

theorem xid_numberDeltas {tx : SourceTransaction} {seq : Nat} {deltas : List Delta} {d : LoggedDelta}
    (member : d ∈ numberDeltas tx seq deltas) : d.xid = tx.xid := by
  induction deltas generalizing seq with
  | nil => exact absurd member List.not_mem_nil
  | cons first deltas ih =>
      rcases List.mem_cons.mp member with rfl | later
      · rfl
      · exact ih later

theorem mem_numberBlocks {seq : Nat} {blocks : List (SourceTransaction × List Delta)} {d : LoggedDelta}
    (member : d ∈ numberBlocks seq blocks) :
    seq < d.seq ∧ d.seq ≤ seq + blockCount blocks ∧ ∃ b ∈ blocks, d.lsn = b.1.endLsn ∧ d.xid = b.1.xid := by
  induction blocks generalizing seq with
  | nil => exact absurd member List.not_mem_nil
  | cons b blocks ih =>
      rw [numberBlocks] at member
      rw [blockCount_cons]
      rcases List.mem_append.mp member with here | later
      · obtain ⟨above, upTo, lsn⟩ := mem_numberDeltas here
        exact ⟨above, by omega, b, List.mem_cons_self, lsn, xid_numberDeltas here⟩
      · obtain ⟨above, upTo, c, within, lsn, xid⟩ := ih later
        exact ⟨by omega, by omega, c, List.mem_cons_of_mem _ within, lsn, xid⟩

/-- Log rows in their order: numbered upwards, their positions never going back, one xid
for each position. -/
def InOrder (a b : LoggedDelta) : Prop := a.seq < b.seq ∧ a.lsn ≤ b.lsn ∧ (a.lsn = b.lsn → a.xid = b.xid)

theorem numberDeltas_order (tx : SourceTransaction) (seq : Nat) (deltas : List Delta) :
    (numberDeltas tx seq deltas).Pairwise InOrder := by
  induction deltas generalizing seq with
  | nil => exact .nil
  | cons d deltas ih =>
      refine .cons (fun e member => ?_) (ih (seq + 1))
      obtain ⟨above, _, lsn⟩ := mem_numberDeltas member
      exact ⟨above, lsn.ge, fun _ => (xid_numberDeltas member).symm⟩

theorem numberBlocks_order (seq : Nat) {blocks : List (SourceTransaction × List Delta)}
    (increasing : (blocks.map fun b => b.1.endLsn).Pairwise (· < ·)) : (numberBlocks seq blocks).Pairwise InOrder := by
  induction blocks generalizing seq with
  | nil => exact .nil
  | cons b blocks ih =>
      rw [List.map_cons, List.pairwise_cons] at increasing
      rw [numberBlocks, List.pairwise_append]
      refine ⟨numberDeltas_order _ _ _, ih _ increasing.2, fun d here e later => ?_⟩
      obtain ⟨_, upTo, lsn⟩ := mem_numberDeltas here
      obtain ⟨above, _, c, within, lsn', _⟩ := mem_numberBlocks later
      have before := increasing.1 _ (List.mem_map_of_mem within)
      exact ⟨by omega, by omega, fun same => absurd same (by omega)⟩

structure LiveView.Logs (v : LiveView) : Prop where
  blocks : ∃ blocks, v.pending = numberBlocks v.row.lastSeq blocks ∧ (blocks.map fun b => b.1.endLsn).Pairwise (· < ·) ∧
    ∀ b ∈ blocks, v.row.frontier < b.1.endLsn ∧ b.1.endLsn ≤ v.frontier
  lastSeq : v.lastSeq = v.row.lastSeq + v.pending.length
  frontier : v.row.frontier ≤ v.frontier

theorem LiveView.load_logs (row : ViewRow) (stale : Option String) : LiveView.Logs { LiveView.load row with stale := stale } :=
  ⟨⟨[], rfl, .nil, fun _ member => absurd member List.not_mem_nil⟩, rfl, le_refl _⟩

theorem LiveView.SameWork.logs {v v' : LiveView} (work : v.SameWork v') (logs : v.Logs) : v'.Logs := by
  have lastSeq : v'.row.lastSeq = v.row.lastSeq := by rw [work.row]
  constructor
  · rw [work.pending, lastSeq, work.row.frontier, work.frontier]
    exact logs.blocks
  · rw [work.lastSeq, lastSeq, work.pending]
    exact logs.lastSeq
  · rw [work.row.frontier, work.frontier]
    exact logs.frontier

/-- Absorbing a transaction logs it as the next block. -/
theorem LiveView.Logs.absorb {v : LiveView} (logs : v.Logs) (tx : SourceTransaction) (ahead : v.frontier < tx.endLsn)
    (storage : List Record) (deltas : List Delta) :
    (v.absorb storage (numberDeltas tx v.lastSeq deltas) tx.endLsn).Logs := by
  obtain ⟨blocks, pending, increasing, bounds⟩ := logs.blocks
  have count : v.lastSeq = v.row.lastSeq + blockCount blocks := by rw [logs.lastSeq, pending, length_numberBlocks]
  constructor
  · refine ⟨blocks ++ [(tx, deltas)], ?_, ?_, ?_⟩
    · show v.pending ++ numberDeltas tx v.lastSeq deltas = numberBlocks v.row.lastSeq (blocks ++ [(tx, deltas)])
      rw [numberBlocks_append, ← pending, ← count, numberBlocks, numberBlocks, List.append_nil]
    · rw [List.map_append, List.pairwise_append]
      refine ⟨increasing, List.pairwise_singleton _ _, fun a left b right => ?_⟩
      obtain ⟨block, within, rfl⟩ := List.mem_map.mp left
      obtain rfl := List.mem_singleton.mp right
      exact (bounds block within).2.trans_lt ahead
    · intro b member
      show v.row.frontier < b.1.endLsn ∧ b.1.endLsn ≤ tx.endLsn
      rcases List.mem_append.mp member with earlier | new
      · exact ⟨(bounds b earlier).1, (bounds b earlier).2.trans ahead.le⟩
      · obtain rfl := List.mem_singleton.mp new
        exact ⟨logs.frontier.trans_lt ahead, le_refl _⟩
  · show v.lastSeq + _ = v.row.lastSeq + (v.pending ++ _).length
    rw [List.length_append, logs.lastSeq, Nat.add_assoc]
  · exact logs.frontier.trans ahead.le

theorem executeView_logs (tx : SourceTransaction) {v : LiveView} (logs : v.Logs) : (executeView pf settings faults tx v).Logs := by
  cases dead : (executeView pf settings faults tx v).dead with
  | true => exact (executeView_sameWork dead).logs logs
  | false =>
      unfold executeView at dead ⊢
      by_cases skipped : (v.dead || decide (tx.endLsn ≤ v.frontier)) = true
      · rw [if_pos skipped]
        exact logs
      · rw [if_neg skipped] at dead ⊢
        cases stale : v.stale with
        | some reason => simp only [stale, LiveView.markStale, reduceCtorEq] at dead
        | none =>
            cases failed : v.failed with
            | some message => simp only [stale, failed, LiveView.recordFailure, reduceCtorEq] at dead
            | none =>
                cases executed : inSubtransaction (faults.executing v.row.id tx.endLsn v.ops)
                    (execute pf v.row.spec v.row.storage v.ops) with
                | error message => simp only [stale, failed, executed, LiveView.recordFailure, reduceCtorEq] at dead
                | ok result =>
                    simp only [Bool.or_eq_true, decide_eq_true_eq, not_or, Nat.not_le] at skipped
                    have absorbed := logs.absorb tx skipped.2 result.1 (net pf v.row.spec result.2)
                    exact absorbed

theorem replay_logs (events : List ViewEvent) {v : LiveView} (logs : v.Logs) :
    (LiveView.replay pf settings faults events v).Logs := by
  induction events generalizing v with
  | nil => exact logs
  | cons event events ih =>
      refine ih ?_
      cases event with
      | plan e position relid tables rel change old =>
          exact (planView_kept pf faults e position relid tables rel change old v).sameWork.logs logs
      | lost relid rel message => exact (shadowLost_kept 0 relid rel message v).sameWork.logs logs
      | execute tx => exact executeView_logs tx logs

theorem applyRound_settled {cache : Nat → Option Relation} {c : Catalog} {txs : List SourceTransaction}
    {result : RoundResult} (ids : Keyed ViewRow.id c.views) (applied : applyRound pf settings faults cache c txs = .ok result) :
    ∃ (events : List ViewEvent) (h : LiveView → LiveView),
      (∀ v, ∃ stale, h v = LiveView.replay pf settings faults events { v with stale := stale }) ∧
      result.views = c.liveViews.map h ∧
      result.catalog.views = c.views.map fun row =>
        if row.status = .live then (h (LiveView.load row)).settledRow settings else row := by
  rcases applyRound_separates pf settings faults cache txs c.shadows with ⟨message, failed⟩ | ⟨drift, events, left, only, ran⟩
  · rw [failed c (List.forall₂_same.mpr fun s _ => ShadowRow.Like.refl s)] at applied
    exact absurd applied (by simp only [reduceCtorEq, not_false_iff])
  · obtain ⟨left', cache', blockedAt, _, eq⟩ := ran c (List.forall₂_same.mpr fun s _ => ShadowRow.Like.refl s)
    rw [eq] at applied
    cases done : finishViews settings (c.liveViews.map (LiveView.replay pf settings faults events ∘ drift)) with
    | error message =>
        rw [done] at applied
        exact absurd applied (by simp only [Except.map, reduceCtorEq, not_false_iff])
    | ok written =>
        rw [done] at applied
        obtain rfl := Except.ok.inj applied
        refine ⟨events, LiveView.replay pf settings faults events ∘ drift, fun v => ⟨(drift v).stale, ?_⟩, rfl, ?_⟩
        · rw [Function.comp_apply, only v]
        · have same : ∀ v, ((LiveView.replay pf settings faults events ∘ drift) v).row.id = v.row.id := by
            intro v
            rw [Function.comp_apply, replay_same_id, only v]
          rw [finishViews_settled done]
          exact Catalog.writeBack_settled ids same left'

/-- Everything logged for a view in its current epoch, numbered on from `first`. -/
structure Written where
  first : Nat
  deltas : List LoggedDelta

/-- A view's retained log is the end of what was written, and it ends at `last_seq`. -/
structure ViewRow.Keeps (row : ViewRow) (w : Written) : Prop where
  blocks : ∃ blocks, w.deltas = numberBlocks w.first blocks ∧ (blocks.map fun b => b.1.endLsn).Pairwise (· < ·) ∧
    ∀ b ∈ blocks, b.1.endLsn ≤ row.frontier
  last : row.lastSeq = w.first + w.deltas.length
  retained : ∃ gone, w.deltas = gone ++ row.deltas ∧ (gone ≠ [] → row.deltas ≠ [])

theorem ViewRow.Keeps.order {row : ViewRow} {w : Written} (keeps : row.Keeps w) : w.deltas.Pairwise InOrder := by
  obtain ⟨blocks, eq, increasing, _⟩ := keeps.blocks
  rw [eq]
  exact numberBlocks_order _ increasing

theorem collect_suffix {log : List LoggedDelta} (order : log.Pairwise InOrder) (retain lastSeq : Nat) :
    ∃ gone, log = gone ++ log.filter fun d => !decide (d.seq + retain ≤ lastSeq) := by
  induction log with
  | nil => exact ⟨[], rfl⟩
  | cons d log ih =>
      rw [List.pairwise_cons] at order
      by_cases old : d.seq + retain ≤ lastSeq
      · obtain ⟨gone, split⟩ := ih order.2
        refine ⟨d :: gone, ?_⟩
        rw [List.filter_cons_of_neg (by simp only [decide_eq_true old, Bool.not_true, Bool.false_eq_true, not_false_iff]),
          List.cons_append, ← split]
      · refine ⟨[], ?_⟩
        rw [List.nil_append, List.filter_eq_self.mpr]
        intro e member
        rw [Bool.not_eq_true', decide_eq_false_iff_not]
        rcases List.mem_cons.mp member with rfl | later
        · exact old
        · have above := (order.1 e later).1
          omega

def Written.append (w : Written) (new : List LoggedDelta) : Written := ⟨w.first, w.deltas ++ new⟩

@[simp] theorem Written.append_nil (w : Written) : w.append [] = w := by
  rw [Written.append, List.append_nil]

/-- A round's end, for one view. -/
theorem LiveView.Logs.settled {v : LiveView} (logs : v.Logs) (tidy : v.Tidy) {w : Written} (keeps : v.row.Keeps w)
    (retain : 1 ≤ settings.retainDeltas) : (v.settledRow settings).Keeps (w.append v.pending) := by
  obtain ⟨lastSeq, frontier, _⟩ := @LiveView.Tidy.settled settings v tidy
  obtain ⟨blocks, written, increasing, bounds⟩ := keeps.blocks
  obtain ⟨new, pending, increasing', bounds'⟩ := logs.blocks
  obtain ⟨gone, split, some⟩ := keeps.retained
  have whole : (w.append v.pending).deltas = numberBlocks w.first (blocks ++ new) := by
    rw [Written.append, numberBlocks_append, written, pending, keeps.last, written, length_numberBlocks]
  have rises : ((blocks ++ new).map fun b => b.1.endLsn).Pairwise (· < ·) := by
    rw [List.map_append, List.pairwise_append]
    refine ⟨increasing, increasing', fun a left b right => ?_⟩
    obtain ⟨c, within, rfl⟩ := List.mem_map.mp left
    obtain ⟨d, within', rfl⟩ := List.mem_map.mp right
    exact (bounds c within).trans_lt (bounds' d within').1
  refine ⟨⟨blocks ++ new, whole, rises, ?_⟩, ?_, ?_⟩
  · intro b member
    rw [frontier]
    rcases List.mem_append.mp member with earlier | later
    · exact (bounds b earlier).trans logs.frontier
    · exact (bounds' b later).2
  · rw [lastSeq, logs.lastSeq, keeps.last, Written.append, List.length_append, Nat.add_assoc]
  · have order : (v.row.deltas ++ v.pending).Pairwise InOrder := by
      have all := numberBlocks_order w.first rises
      rw [← whole, Written.append, split, List.append_assoc] at all
      exact (List.pairwise_append.mp all).2.1
    unfold LiveView.settledRow
    cases absorbed : v.absorbed.getLast? with
    | none =>
        obtain ⟨_, _, none⟩ := tidy.idle (List.getLast?_eq_none_iff.mp absorbed)
        refine ⟨gone, ?_, some⟩
        rw [Written.append, none, List.append_nil]
        exact split
    | some e =>
        dsimp only
        unfold LiveView.logged
        by_cases none : v.pending = []
        · rw [if_pos none]
          refine ⟨gone, ?_, some⟩
          rw [Written.append, none, List.append_nil]
          exact split
        · rw [if_neg none]
          obtain ⟨old, kept⟩ := collect_suffix order settings.retainDeltas v.lastSeq
          refine ⟨gone ++ old, ?_, fun _ lost => ?_⟩
          · rw [Written.append, List.append_assoc, ← kept, split, List.append_assoc]
          · -- the last delta is within any retention of one row or more
            have newest : v.lastSeq ∈ v.pending.map LoggedDelta.seq := by
              rw [logs.lastSeq, pending, seqs_numberBlocks, length_numberBlocks, List.mem_range'_1]
              have some := List.length_pos_iff.mpr none
              rw [pending, length_numberBlocks] at some
              omega
            obtain ⟨d, member, seq⟩ := List.mem_map.mp newest
            have dropped := List.filter_eq_nil_iff.mp lost d (List.mem_append_right _ member)
            rw [Bool.not_eq_true', decide_eq_false_iff_not, not_not] at dropped
            omega

/-- A step that leaves a view's log alone or empties it. -/
structure ViewRow.LogKept (row row' : ViewRow) : Prop where
  id : row'.id = row.id
  lastSeq : row'.lastSeq = row.lastSeq
  log : row'.deltas = [] ∨ row'.deltas = row.deltas ∧ row.frontier ≤ row'.frontier

theorem ViewRow.LogKept.refl (row : ViewRow) : row.LogKept row := ⟨rfl, rfl, .inr ⟨rfl, le_refl _⟩⟩

theorem ViewRow.LogKept.trans {row row' row'' : ViewRow} (first : row.LogKept row') (second : row'.LogKept row'') :
    row.LogKept row'' := by
  refine ⟨second.id.trans first.id, second.lastSeq.trans first.lastSeq, ?_⟩
  rcases second.log with emptied | ⟨kept, moved⟩
  · exact .inl emptied
  · rcases first.log with emptied | ⟨kept', moved'⟩
    · exact .inl (kept.trans emptied)
    · exact .inr ⟨kept.trans kept', moved'.trans moved⟩

/-- Every view of `c'` is one of `c` with its log kept or emptied. -/
def Catalog.LogsKept (c c' : Catalog) : Prop := List.Forall₂ ViewRow.LogKept c.views c'.views

theorem Catalog.LogsKept.trans {c c' c'' : Catalog} (first : c.LogsKept c') (second : c'.LogsKept c'') : c.LogsKept c'' :=
  forall₂_trans (fun _ _ _ left right => left.trans right) first second

theorem Catalog.LogsKept.of_views {c c' : Catalog} (same : c'.views = c.views) : c.LogsKept c' := by
  rw [Catalog.LogsKept, same]
  exact List.forall₂_same.mpr fun row _ => ViewRow.LogKept.refl row

theorem ViewRow.Built.logKept {sight : Sight} {point : Nat} {group : List Pending} {row row' : ViewRow}
    (built : row.Built sight point group row') : row.LogKept row' := by
  by_cases member : row.id ∈ group.map Pending.id
  · rcases built.inside member with ⟨view, _, _, spec, _, rfl⟩ | ⟨message, rfl⟩
    · exact ⟨rfl, rfl, .inl rfl⟩
    · exact ⟨rfl, rfl, .inr ⟨rfl, le_refl _⟩⟩
  · rw [built.outside member]
    exact .refl row

theorem buildGroup_logs {sight : Sight} {point : Nat} {views : List Pending} {done : List Nat} {c c' : Catalog}
    (built : buildGroup sight point views done c = .ok c') : c.LogsKept c' := by
  induction views generalizing done c with
  | nil =>
      obtain rfl := Except.ok.inj built
      exact .of_views rfl
  | cons view views ih =>
      rw [buildGroup] at built
      cases one : build sight point view done c with
      | error message => simp only [one, reduceCtorEq] at built
      | ok r =>
          simp only [one] at built
          exact Catalog.LogsKept.trans ((build_step one).views.imp fun _ _ => ViewRow.Built.logKept) (ih built)

/-- A group that is built empties the logs of its members, one that fails leaves every log alone. -/
theorem Catalog.populate_logs (sight : Sight) (point : Nat) (slot : Option Nat) (views : List Pending) (c : Catalog) :
    c.LogsKept (c.populate sight point slot views) := by
  have outcome := c.populate_cases sight point slot views
  generalize c.populate sight point slot views = c' at outcome
  cases outcome with
  | built main ok => exact buildGroup_logs ok
  | failed message =>
      refine (c.recordFailure_views views message).imp fun row row' step => ?_
      by_cases member : row.id ∈ views.map Pending.id
      · rw [step.2 member]
        exact ⟨rfl, rfl, .inr ⟨rfl, le_refl _⟩⟩
      · rw [step.1 member]
        exact .refl row

def RoundResult.logged (result : RoundResult) (id : Nat) : List LoggedDelta :=
  ((result.views.find? (·.row.id = id)).map LiveView.pending).getD []

/-- After a step outside a round: a view whose log is empty starts over at its `last_seq`. -/
def Catalog.restarted (c : Catalog) (w : Nat → Written) (id : Nat) : Written :=
  match c.views.find? (·.id = id) with
  | some row => if row.deltas = [] then ⟨row.lastSeq, []⟩ else w id
  | none => w id

/-- The catalogs of a run with all that was logged for each view in its epoch: rounds with
any settings that retain a row, with any faults, over any transactions; builds; and what
other sessions and the rest of the worker do, which leaves the delta logs alone. -/
inductive Logged (pf : Platform) : Catalog → (Nat → Written) → Prop where
  | start {c : Catalog} {w : Nat → Written} (ids : Keyed ViewRow.id c.views) (empty : ∀ row ∈ c.views, row.deltas = []) :
      Logged pf c (c.restarted w)
  | round {c : Catalog} {w : Nat → Written} {settings : Settings} {faults : Faults} {cache : Nat → Option Relation}
      {txs : List SourceTransaction} {result : RoundResult} (run : Logged pf c w) (retain : 1 ≤ settings.retainDeltas)
      (applied : applyRound pf settings faults cache c txs = .ok result) :
      Logged pf result.catalog fun id => (w id).append (result.logged id)
  | populated {c : Catalog} {w : Nat → Written} (run : Logged pf c w) (sight : Sight) (point : Nat) (slot : Option Nat)
      (views : List Pending) :
      Logged pf (c.populate sight point slot views) ((c.populate sight point slot views).restarted w)
  | others {c c' : Catalog} {w : Nat → Written} (run : Logged pf c w) (ids : Keyed ViewRow.id c'.views)
      (views : ∀ row' ∈ c'.views, (∃ row ∈ c.views, row.LogKept row') ∨ row'.deltas = []) :
      Logged pf c' (c'.restarted w)

theorem ViewRow.Keeps.empty {row : ViewRow} (none : row.deltas = []) : row.Keeps ⟨row.lastSeq, []⟩ where
  blocks := ⟨[], rfl, .nil, fun _ member => absurd member List.not_mem_nil⟩
  last := rfl
  retained := ⟨[], by rw [none]; rfl, fun some => absurd rfl some⟩

theorem ViewRow.Keeps.kept {row row' : ViewRow} {w : Written} (keeps : row.Keeps w) (lastSeq : row'.lastSeq = row.lastSeq)
    (deltas : row'.deltas = row.deltas) (frontier : row.frontier ≤ row'.frontier) : row'.Keeps w := by
  obtain ⟨blocks, written, increasing, bounds⟩ := keeps.blocks
  refine ⟨⟨blocks, written, increasing, fun b member => (bounds b member).trans frontier⟩, lastSeq.trans keeps.last, ?_⟩
  rw [deltas]
  exact keeps.retained

theorem Catalog.restarted_keeps {c : Catalog} (ids : Keyed ViewRow.id c.views) {w : Nat → Written} {row : ViewRow}
    (member : row ∈ c.views) (keeps : row.deltas ≠ [] → row.Keeps (w row.id)) : row.Keeps (c.restarted w row.id) := by
  unfold Catalog.restarted
  rw [ids.find_of_mem member]
  by_cases none : row.deltas = []
  · simp only [if_pos none]
    exact .empty none
  · simp only [if_neg none]
    exact keeps none

theorem applyRound_keeps {c : Catalog} {w : Nat → Written} (ids : Keyed ViewRow.id c.views) (kept : ∀ row ∈ c.views, row.Keeps (w row.id))
    {settings : Settings} {faults : Faults} {cache : Nat → Option Relation} {txs : List SourceTransaction} {result : RoundResult}
    (retain : 1 ≤ settings.retainDeltas) (applied : applyRound pf settings faults cache c txs = .ok result) :
    Keyed ViewRow.id result.catalog.views ∧ ∀ row ∈ result.catalog.views, row.Keeps ((w row.id).append (result.logged row.id)) := by
  obtain ⟨events, h, replays, views, rows⟩ := applyRound_settled ids applied
  have sameId : ∀ v, (h v).row.id = v.row.id := by
    intro v
    obtain ⟨stale, eq⟩ := replays v
    rw [eq, replay_same_id]
  have views' : result.views.map (fun v => v.row.id) = (c.views.filter (·.status = .live)).map ViewRow.id := by
    rw [views, Catalog.liveViews, List.map_map, List.map_map]
    exact List.map_congr_left fun row _ => sameId (LiveView.load row)
  have loaded : Keyed (fun v : LiveView => v.row.id) result.views := by
    rw [Keyed, views']
    exact ids.filter _
  constructor
  · rw [Keyed, rows, List.map_map]
    rw [show c.views.map _ = c.views.map ViewRow.id from List.map_congr_left fun row _ => ?_]
    · exact ids
    · rw [Function.comp_apply]
      split
      · exact (LiveView.settledRow_same _).1.trans (sameId _)
      · rfl
  · intro row' member
    rw [rows] at member
    obtain ⟨row, inCatalog, rfl⟩ := List.mem_map.mp member
    by_cases live : row.status = .live
    · rw [if_pos live]
      have sameRow : (h (LiveView.load row)).row.id = row.id := sameId (LiveView.load row)
      have within : h (LiveView.load row) ∈ result.views := by
        rw [views]
        exact List.mem_map_of_mem (List.mem_map_of_mem (List.mem_filter.mpr ⟨inCatalog, decide_eq_true live⟩))
      have found := loaded.find_of_mem within
      rw [sameRow] at found
      have logged : result.logged row.id = (h (LiveView.load row)).pending := by
        rw [RoundResult.logged, found, Option.map_some, Option.getD_some]
      rw [(LiveView.settledRow_same _).1, sameRow]
      show ViewRow.Keeps _ ((w row.id).append (result.logged row.id))
      rw [logged]
      obtain ⟨stale, eq⟩ := replays (LiveView.load row)
      rw [eq]
      have same := @replay_same pf settings faults events { LiveView.load row with stale := stale }
      refine (replay_logs events (LiveView.load_logs row stale)).settled (replay_tidy events (LiveView.load_tidy row stale))
        ((kept row inCatalog).kept ?_ ?_ same.frontier.ge) retain
      · rw [same]
        rfl
      · rw [same]
        rfl
    · rw [if_neg live]
      have missing : result.views.find? (·.row.id = row.id) = none := by
        rw [List.find?_eq_none]
        intro v within eq
        have listed := List.mem_map_of_mem (f := fun v : LiveView => v.row.id) within
        rw [views'] at listed
        obtain ⟨other, isLive, same⟩ := List.mem_map.mp listed
        rw [List.mem_filter, decide_eq_true_eq] at isLive
        rw [ids.eq_of_mem isLive.1 inCatalog (same.trans (of_decide_eq_true eq))] at isLive
        exact live isLive.2
      have none : result.logged row.id = [] := by
        rw [RoundResult.logged, missing, Option.map_none, Option.getD_none]
      show row.Keeps ((w row.id).append (result.logged row.id))
      rw [none, Written.append_nil]
      exact kept row inCatalog

/-- Each view's retained log is the end of its epoch's. -/
theorem Logged.keeps {c : Catalog} {w : Nat → Written} (run : Logged pf c w) :
    Keyed ViewRow.id c.views ∧ ∀ row ∈ c.views, row.Keeps (w row.id) := by
  induction run with
  | start ids empty =>
      exact ⟨ids, fun row member => Catalog.restarted_keeps ids member fun some => absurd (empty row member) some⟩
  | round run retain applied ih => exact applyRound_keeps ih.1 ih.2 retain applied
  | @populated c w run sight point slot views ih =>
      obtain ⟨ids, kept⟩ := ih
      have logs := c.populate_logs sight point slot views
      have ids' : Keyed ViewRow.id (c.populate sight point slot views).views := by
        rw [Keyed, map_eq_of_forall₂ logs fun _ _ step => step.id]
        exact ids
      refine ⟨ids', fun row' member => Catalog.restarted_keeps ids' member fun some => ?_⟩
      obtain ⟨row, inCatalog, step⟩ := mem_of_forall₂_right logs member
      rw [step.id]
      rcases step.log with none | ⟨deltas, frontier⟩
      · exact absurd none some
      · exact (kept row inCatalog).kept step.lastSeq deltas frontier
  | @others c c' w run ids views ih =>
      refine ⟨ids, fun row' member => Catalog.restarted_keeps ids member fun some => ?_⟩
      rcases views row' member with ⟨row, inCatalog, step⟩ | none
      · rcases step.log with none | ⟨deltas, frontier⟩
        · exact absurd none some
        · rw [step.id]
          exact (ih.2 row inCatalog).kept step.lastSeq deltas frontier
      · exact absurd none some

end Nabla
