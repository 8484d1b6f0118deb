import Nabla.Histories
import Nabla.Serving

/-! The numbers of a view's deltas over a whole run: one sequence through all its epochs, of
which every state retains a section, and which a reader follows page by page. -/
namespace Nabla
open Bags

variable {pf : Platform} {settings : Settings} {guard : Server → Event → Prop}

inductive ViewRow.LogTurns (row row' : ViewRow) : Prop where
  | appended (new : List LoggedDelta) (keeps : ∀ w, row.Keeps w → row'.Keeps (w.append new))
  | emptied (lastSeq : row'.lastSeq = row.lastSeq) (none : row'.deltas = [])

theorem ViewRow.LogTurns.of_kept {row row' : ViewRow} (kept : row.LogKept row') : row.LogTurns row' := by
  rcases kept.log with none | ⟨deltas, frontier⟩
  · exact .emptied kept.lastSeq none
  · exact .appended [] fun w keeps => by
      rw [Written.append_nil]
      exact keeps.kept kept.lastSeq deltas frontier

theorem ViewRow.Stays.log {row row' : ViewRow} (stays : row.Stays row') : row.LogTurns row' := by
  cases stays with
  | follows follows => exact .appended [] follows.keeps
  | renewed renewed => exact .emptied renewed.lastSeq renewed.deltas

theorem Server.Step.logTurns {s s' : Server} {e : Event} {id : Nat} (orderly : s.Orderly) (step : s.Step pf settings e s')
    (retain : 1 ≤ settings.retainDeltas) : ∀ row' ∈ s'.catalog.views, row'.id = id →
      (id ∉ s.used ∧ row'.lastSeq = 0 ∧ row'.deltas = []) ∨ ∃ row ∈ s.catalog.views, row.id = id ∧ row.LogTurns row' := by
  intro row' member same
  have kept : row' ∈ s.catalog.views → ∃ row ∈ s.catalog.views, row.id = id ∧ row.LogTurns row' :=
    fun before => ⟨row', before, same, .of_kept (.refl row')⟩
  cases step with
  | committed began fresh writes =>
      rcases Call.commit_stays writes row' member with ⟨name, definition, spec, rfl⟩ | ⟨row, before, own, stays⟩
      · obtain rfl : _ = id := same
        exact .inl ⟨fresh, rfl, rfl⟩
      · exact .inr ⟨row, before, own.symm.trans same, stays.log⟩
  | built next =>
      obtain ⟨row, before, built, _⟩ := mem_of_forall₂_right (Catalog.populate_views (orderly.head next) _ s.catalog) member
      exact .inr ⟨row, before, built.id.symm.trans same, .of_kept built.logKept⟩
  | applied done ran =>
      obtain ⟨row, before, stands⟩ := (applyRound_stands orderly.ids ran).row member
      obtain ⟨new, appends⟩ := applyRound_appends orderly.ids ran before member stands.id retain
      exact .inr ⟨row, before, stands.id.symm.trans same, .appended new appends⟩
  | idled done =>
      obtain ⟨row, before, ⟨rfl, _⟩ | ⟨rfl, _, ahead⟩⟩ := Catalog.idleAdvance_row member
      · exact .inr (kept before)
      · exact .inr ⟨row, before, same, .of_kept ⟨rfl, rfl, .inr ⟨rfl, ahead.le⟩⟩⟩
  | lagged done =>
      obtain ⟨row, before, rfl⟩ := List.mem_map.mp member
      refine .inr ⟨row, before, ?_, .of_kept ?_⟩
      · rw [← same]
        split <;> rfl
      · split
        · exact ⟨rfl, rfl, .inr ⟨rfl, le_refl _⟩⟩
        · exact .refl row
  | renamed => exact .inr (kept member)
  | createBegan => exact .inr (kept member)
  | refreshBegan => exact .inr (kept member)
  | updated => exact .inr (kept member)
  | viewDropBegan => exact .inr (kept member)
  | tableDropBegan => exact .inr (kept member)
  | shadowDropBegan => exact .inr (kept member)
  | aborted => exact .inr (kept member)
  | loaded => exact .inr (kept member)
  | restarted => exact .inr (kept member)

def Consecutive (all : List LoggedDelta) : Prop := all.map LoggedDelta.seq = List.range' 1 all.length

/-- What a row retains is the end of everything logged so far. -/
structure ViewRow.Ends (row : ViewRow) (all : List LoggedDelta) : Prop where
  consecutive : Consecutive all
  epoch : ∃ before w, all = before ++ w.deltas ∧ before.length = w.first ∧ row.Keeps w

/-- A row that was at the end of the sequence at some time. -/
def ViewRow.Within (row : ViewRow) (all : List LoggedDelta) : Prop :=
  ∃ gone later, all = gone ++ (row.deltas ++ later) ∧ row.lastSeq = gone.length + row.deltas.length

theorem Consecutive.append {all new : List LoggedDelta} (first : Consecutive all)
    (next : new.map LoggedDelta.seq = List.range' (all.length + 1) new.length) : Consecutive (all ++ new) := by
  rw [Consecutive, List.map_append, first, next, List.length_append, ← List.range'_append_1, Nat.add_comm]

theorem ViewRow.Ends.last {row : ViewRow} {all : List LoggedDelta} (ends : row.Ends all) : row.lastSeq = all.length := by
  obtain ⟨before, w, rfl, length, keeps⟩ := ends.epoch
  rw [keeps.last, List.length_append, length]

theorem ViewRow.Ends.within {row : ViewRow} {all : List LoggedDelta} (ends : row.Ends all) : row.Within all := by
  have last := ends.last
  obtain ⟨before, w, rfl, _, keeps⟩ := ends.epoch
  obtain ⟨gone, split, _⟩ := keeps.retained
  rw [split] at last ⊢
  refine ⟨before ++ gone, [], by rw [List.append_nil, List.append_assoc], ?_⟩
  rw [last, ← List.append_assoc, List.length_append]

theorem ViewRow.Within.append {row : ViewRow} {all : List LoggedDelta} (within : row.Within all) (new : List LoggedDelta) :
    row.Within (all ++ new) := by
  obtain ⟨gone, later, rfl, last⟩ := within
  exact ⟨gone, later ++ new, by rw [List.append_assoc, List.append_assoc], last⟩

theorem ViewRow.Ends.start {row : ViewRow} (zero : row.lastSeq = 0) (none : row.deltas = []) : row.Ends [] where
  consecutive := rfl
  epoch := ⟨[], ⟨row.lastSeq, []⟩, rfl, zero.symm, .empty none⟩

theorem ViewRow.Ends.turns {row row' : ViewRow} {all : List LoggedDelta} (ends : row.Ends all) (turns : row.LogTurns row') :
    ∃ new, row'.Ends (all ++ new) := by
  cases turns with
  | appended new keeps' =>
      refine ⟨new, ?_, ?_⟩
      · obtain ⟨before, w, rfl, length, keeps⟩ := ends.epoch
        have seqs := (keeps' w keeps).seqs
        rw [Written.append] at seqs
        refine ends.consecutive.append ?_
        rw [(seqs_cut seqs).2, List.length_append, length]
      · obtain ⟨before, w, rfl, length, keeps⟩ := ends.epoch
        exact ⟨before, w.append new, by rw [Written.append, List.append_assoc], length, keeps' w keeps⟩
  | emptied lastSeq none =>
      refine ⟨[], ?_, ?_⟩
      · rw [List.append_nil]
        exact ends.consecutive
      · rw [List.append_nil]
        exact ⟨all, ⟨row'.lastSeq, []⟩, (List.append_nil _).symm, by rw [lastSeq, ends.last], .empty none⟩

/-- The sequence of a view against an installation and the past of the view. -/
structure Numbers (all : List LoggedDelta) (id : Nat) (s : Server) (past : List ViewRow) : Prop where
  orderly : s.Orderly
  consecutive : Consecutive all
  within : ∀ r ∈ past, r.Within all
  rising : past.Pairwise fun later earlier => earlier.lastSeq ≤ later.lastSeq
  current : ∀ row ∈ s.catalog.views, row.id = id → row.Ends all
  unused : id ∉ s.used → past = [] ∧ all = []

theorem ViewRow.Within.last_le {row : ViewRow} {all : List LoggedDelta} (within : row.Within all) : row.lastSeq ≤ all.length := by
  obtain ⟨gone, later, rfl, last⟩ := within
  rw [last, List.length_append, List.length_append]
  omega

theorem Numbers.step {all : List LoggedDelta} {id : Nat} {s s' : Server} {e : Event} {past : List ViewRow} (numbers : Numbers all id s past)
    (retain : 1 ≤ settings.retainDeltas) (step : s.Step pf settings e s') : ∃ new, Numbers (all ++ new) id s' (s'.rows id ++ past) := by
  have orderly := step.orderly numbers.orderly
  have turns := @Server.Step.logTurns _ _ _ _ _ id numbers.orderly step retain
  cases rows : s'.rows id with
  | nil =>
      have gone : ∀ row ∈ s'.catalog.views, row.id ≠ id := by
        intro row member same
        exact absurd (Server.mem_rows.mpr ⟨member, same⟩) (by rw [rows]; exact List.not_mem_nil)
      refine ⟨[], orderly, ?_, ?_, numbers.rising, fun row member same => absurd same (gone row member), fun unused => ?_⟩
      · rw [List.append_nil]
        exact numbers.consecutive
      · rw [List.append_nil]
        exact numbers.within
      · rw [List.append_nil]
        exact numbers.unused fun used => unused (step.grows used)
  | cons row' others =>
      obtain ⟨member', own'⟩ := Server.mem_rows.mp (rows ▸ List.mem_cons_self : row' ∈ s'.rows id)
      have single : s'.rows id = [row'] := own' ▸ orderly.ids.group_of_mem member'
      obtain rfl : others = [] := (List.cons.inj (rows.symm.trans single)).2
      have only : ∀ row ∈ s'.catalog.views, row.id = id → row = row' :=
        fun row member same => orderly.ids.eq_of_mem member member' (same.trans own'.symm)
      have used : id ∈ s'.used := own' ▸ orderly.used row' member'
      have ends : ∃ new, row'.Ends (all ++ new) := by
        rcases turns row' member' own' with ⟨unused, zero, none⟩ | ⟨row, member, own, turns⟩
        · refine ⟨[], ?_⟩
          rw [(numbers.unused unused).2]
          exact .start zero none
        · exact (numbers.current row member own).turns turns
      obtain ⟨new, ends⟩ := ends
      refine ⟨new, orderly, ends.consecutive, ?_, ?_, fun row member same => only row member same ▸ ends, fun unused => absurd used unused⟩
      · exact List.forall_mem_cons.mpr ⟨ends.within, fun r member => (numbers.within r member).append new⟩
      · refine List.pairwise_cons.mpr ⟨fun r member => ?_, numbers.rising⟩
        exact ends.last ▸ ((numbers.within r member).append new).last_le

/-- Over a whole run the deltas of a view are one sequence, numbered from 1 on through all its
epochs: every state retains the section of it that ends at its `last_seq`, and the numbers only rise. -/
theorem Server.Recounts.one_sequence {id : Nat} {s : Server} {past : List ViewRow} (retain : 1 ≤ settings.retainDeltas)
    (run : s.Recounts pf settings guard id past) :
    (∃ all, Consecutive all ∧ ∀ r ∈ past, r.Within all) ∧ past.Pairwise fun later earlier => earlier.lastSeq ≤ later.lastSeq := by
  have numbers : ∃ all, Numbers all id s past := by
    induction run with
    | start starts new =>
        refine ⟨[], starts.orderly, rfl, fun _ member => absurd member List.not_mem_nil, .nil, fun row member => ?_, fun _ => ⟨rfl, rfl⟩⟩
        rw [starts.views] at member
        exact absurd member List.not_mem_nil
    | step _ step _ ih =>
        obtain ⟨all, numbers⟩ := ih
        obtain ⟨new, numbers'⟩ := numbers.step retain step
        exact ⟨all ++ new, numbers'⟩
  obtain ⟨all, numbers⟩ := numbers
  exact ⟨⟨all, numbers.consecutive, numbers.within⟩, numbers.rising⟩

theorem item_sequence : ∃ all, Consecutive all ∧ itemRow.Within all := by
  obtain ⟨past, run⟩ := itemServer_recounts
  obtain ⟨⟨all, consecutive, within⟩, _⟩ := run.one_sequence (by decide)
  exact ⟨all, consecutive, within itemRow List.mem_cons_self⟩

theorem ViewRow.Reached.boundary {row : ViewRow} {w : Written} (reached : row.Reached w) : w.Boundary row.lastSeq := by
  obtain ⟨upTo, later, split, last, behind, ahead⟩ := reached
  refine ⟨upTo, later, split, last, fun a before b after => ?_⟩
  rw [Bool.eq_false_iff, Ne, LoggedDelta.together_iff, not_and]
  exact fun same => absurd same ((behind a before).trans_lt (ahead b after)).ne

theorem ViewRow.Keeps.retained_of_answered {row : ViewRow} {w : Written} (keeps : row.Keeps w) (served : row.Served) {after : Nat}
    (boundary : w.Boundary after) {maxRows : Int} {keep : Bool} {rows : List Client.ServerRow}
    (answered : changes row after row.epoch maxRows keep = .ok rows) : ∀ d ∈ w.since after, d ∈ row.deltas := by
  intro d member
  by_contra gone
  obtain ⟨oldest, refused⟩ := (keeps.serves served boundary maxRows keep).lagged.mpr ⟨d, member, gone⟩
  rw [answered] at refused
  cases refused

/-- Who read a view in an earlier state and is not refused reads, page by page, the deltas
that take what it read to what the view shows now. -/
theorem Server.Recounts.catches_up {id : Nat} {s : Server} {past : List ViewRow} (retain : 1 ≤ settings.retainDeltas)
    (run : s.Recounts pf settings (Server.Faithful pf settings id) id past) {earlier row : ViewRow} (before : earlier ∈ past)
    (populated : earlier.populated = true) (member : row ∈ s.catalog.views) (own : row.id = id) {maxRows : Int} {keep : Bool}
    {first : List Client.ServerRow} (answered : changes row earlier.lastSeq earlier.epoch maxRows keep = .ok first) {calls : Nat}
    (enough : row.lastSeq ≤ earlier.lastSeq + calls) :
    ∃ log, drain row maxRows keep calls earlier.lastSeq =
        .ok (log.map (LoggedDelta.output (if keep then [] else row.spec.hiddenColumns))) ∧
      Patches (earlier.spec.shown earlier.storage) (row.spec.shownEvents log) (row.spec.shown row.storage) := by
  obtain ⟨ch, records⟩ := run.records retain
  have current := records.current row member own
  obtain ⟨served, epoch⟩ := changes_ok answered
  have here : earlier.epoch = ch.epoch := (Int.ofNat.inj epoch).trans current.epoch
  rw [epoch] at answered
  have reached := records.told.reached earlier before populated
  rw [here] at reached
  have boundary := reached.boundary
  have kept := current.keeps.retained_of_answered served boundary answered
  have populated' : row.populated = true := by
    cases none : row.populated with
    | true => rfl
    | false => exact absurd (populated.symm.trans ((current.untold none).2 earlier before)) Bool.noConfusion
  obtain ⟨upTo, later, split, last, _⟩ := reached
  have since : (ch.written ch.epoch).since earlier.lastSeq = later := by
    have seqs := current.keeps.seqs
    rw [split] at seqs
    rw [Written.since, split, last, filter_cut seqs]
  have reach : row.lastSeq = earlier.lastSeq + later.length := by
    rw [current.keeps.last, split, List.length_append, last, Nat.add_assoc]
  refine ⟨later, ?_, ?_⟩
  · have few : ((ch.written ch.epoch).since earlier.lastSeq).length ≤ calls := by
      rw [since]
      omega
    have drained := current.keeps.drain served maxRows keep boundary kept few
    rwa [since] at drained
  · have agree := records.told.tells.agree _ (mem_editions before populated) _ (mem_editions (current.told populated') populated')
      (here.trans current.epoch.symm) (by rw [ViewRow.edition, ViewRow.edition, reach]; exact Nat.le_add_right _ _)
    have log : (ch.story.volumes earlier.epoch).between earlier.lastSeq row.lastSeq = row.spec.shownEvents later := by
      have part := @Volume.between_section _ (shownLog (ch.hidden ch.epoch) upTo) (shownLog (ch.hidden ch.epoch) later) []
        (ch.written ch.epoch).first
      rw [shownLog, shownLog, List.length_map, List.length_map, ← last, ← reach, List.append_nil] at part
      rw [here, ViewSpec.shownEvents_eq, current.hidden populated']
      show ((ch.written ch.epoch).volume (ch.hidden ch.epoch)).between _ _ = _
      rw [Written.volume, split, shownLog_append]
      exact part
    exact log ▸ agree

def itemsChanged : List SourceTransaction :=
  [⟨8, 13, 14, [.insert 1 [.text "b"], .insert 1 [.text "c"]]⟩, ⟨9, 15, 16, [.delete 1 75 [.text "a"]]⟩]

def itemNamed (id : String) : Json := .obj [("id", .str id)]

def itemsRow : ViewRow :=
  { itemRow with
    frontier := 16
    lastSeq := 4
    storage := [[("id", .text "b")], [("id", .text "c")]]
    deltas := [⟨1, 12, 7, .I, itemNamed "a"⟩, ⟨2, 14, 8, .I, itemNamed "b"⟩, ⟨3, 14, 8, .I, itemNamed "c"⟩, ⟨4, 16, 9, .D, itemNamed "a"⟩] }

def itemsServer : Server := { idServer with catalog := ⟨[itemsRow], [(1, 1)], []⟩ }

theorem items_applied : ∃ result, applyRound .basic shopSettings Faults.none (fun _ => some itemsRelation) itemServer.catalog itemsChanged = .ok result ∧
    result.catalog = itemsServer.catalog := ⟨_, rfl, rfl⟩

theorem items_faithful : itemServer.Faithful .basic shopSettings 1 (.applied Faults.none (fun _ => some itemsRelation) itemsChanged) := by
  intro v member _
  obtain ⟨first, second, both, ops, ops', spec, spec'⟩ : ∃ first second,
      roundExecutions .basic shopSettings Faults.none (fun _ => some itemsRelation) itemServer.catalog itemsChanged = [first, second] ∧
      first.ops = [.row .plus (itemNamed "b"), .row .plus (itemNamed "c")] ∧ (∃ conds values, second.ops = [.deleteByKey conds values]) ∧
      first.row.spec = idSpec 1 ∧ second.row.spec = idSpec 1 := ⟨_, _, rfl, rfl, ⟨_, _, rfl⟩, rfl, rfl⟩
  rw [both] at member
  refine ⟨?_, fun _ deltas _ d _ => rfl⟩
  rcases List.mem_cons.mp member with rfl | last
  · rw [ops, spec]
    intro op one
    have plus : ∃ id, op = .row .plus (itemNamed id) := by
      rcases List.mem_cons.mp one with rfl | last
      · exact ⟨_, rfl⟩
      · exact ⟨_, List.mem_singleton.mp last⟩
    obtain ⟨id, rfl⟩ := plus
    intro _ r read c key
    obtain rfl : [("id", Datum.text id)] = r := Option.some.inj read
    obtain rfl := List.mem_singleton.mp key
    exact Datum.noConfusion
  · obtain rfl := List.mem_singleton.mp last
    obtain ⟨conds, values, ops'⟩ := ops'
    rw [ops']
    intro op one
    obtain rfl := List.mem_singleton.mp one
    exact trivial

theorem itemsServer_recounts : ∃ past, itemsServer.Recounts .basic shopSettings (Server.Faithful .basic shopSettings 1) 1
    (itemsRow :: itemRow :: past) := by
  obtain ⟨past, run⟩ := itemServer_recounts
  obtain ⟨result, applied, catalog⟩ := items_applied
  have changed := run.step (.applied rfl applied) items_faithful
  rw [catalog] at changed
  exact ⟨_, changed⟩

theorem items_page : changes itemsRow 1 1 1 false = .ok [⟨2, "0/E", some 8, "I", itemNamed "b"⟩, ⟨3, "0/E", some 8, "I", itemNamed "c"⟩] := by
  have order : itemsRow.deltas.Pairwise InOrder := by
    unfold InOrder
    decide
  have rows := pageRows_since order 1 1
  have shown : (wholePage (itemsRow.deltas.filter fun d => decide (1 < d.seq)) 1).map (LoggedDelta.output []) =
      [⟨2, "0/E", some 8, "I", itemNamed "b"⟩, ⟨3, "0/E", some 8, "I", itemNamed "c"⟩] := rfl
  rw [← shown]
  exact congrArg (fun page => Except.ok (page.map (LoggedDelta.output []))) rows

/-- A reader that saw the first item gets the changes since, a row a page where a transaction has no more. -/
theorem items_caught_up : ∃ log, drain itemsRow 1 false 3 1 = .ok (log.map (LoggedDelta.output [])) ∧
    Patches [itemNamed "a"] ((idSpec 1).shownEvents log) [itemNamed "b", itemNamed "c"] := by
  obtain ⟨past, run⟩ := itemsServer_recounts
  exact run.catches_up (by decide) (List.mem_cons_of_mem _ List.mem_cons_self) rfl List.mem_cons_self rfl items_page (by decide)

end Nabla
