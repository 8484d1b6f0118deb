import Nabla.Epochs
import Nabla.Feeding
import Nabla.Races
import Nabla.Lib.Editions

/-! The rows of one view over a whole run, and the log of each of its epochs: between any two
states of an epoch it says how a copy of what the first showed becomes what the second shows. -/
namespace Nabla
open Bags

variable {pf : Platform} {settings : Settings} {spec : ViewSpec}

/-- Rows that the new storage table and its index take. -/
structure ViewSpec.Fills (spec : ViewSpec) (rows : List Record) : Prop where
  fits : ∀ r ∈ rows, r.Matches spec.tableColumns
  keyable : ∀ r ∈ rows, spec.Keyable r
  indexed : spec.shape = .projection → Keyed spec.viewKey rows

/-- Rows that a key tells apart are told apart by the key in JSON. -/
theorem ViewSpec.Fills.keyed {rows : List Record} (fills : spec.Fills rows) {κ : Type} {key : Record → κ} (keyed : Keyed key rows)
    (finer : ∀ r ∈ rows, ∀ r' ∈ rows, (∀ c ∈ identityColumns spec, r.get c = r'.get c) → key r = key r') : Keyed spec.jsonKey rows := by
  refine List.Nodup.map_on (fun r left r' right same => ?_) keyed.nodup
  refine keyed.eq_of_mem left right (finer r left r' right ?_)
  exact (ViewSpec.jsonKey_iff (fills.fits r left) (fills.fits r' right) (fills.keyable r left) (fills.keyable r' right)).mp same

/-- The populate query fills a table that the view holds. -/
theorem ViewSpec.Tabled.populated (tabled : spec.Tabled) {tables : List (List BaseRow)} (fills : spec.Fills (spec.evalQuery tables)) :
    spec.Held (spec.evalQuery tables) := by
  cases shape : spec.shape with
  | projection =>
      refine ⟨fills.fits, fills.keyable, ?_, fun r _ aggregate => absurd (shape.symm.trans aggregate) Shape.noConfusion⟩
      refine fills.keyed (fills.indexed shape) fun r _ r' _ same => ?_
      rw [identityColumns, shape] at same
      exact List.map_congr_left same
  | aggregate =>
      have view := tabled.isAggregate shape
      have grouped : Grouped spec.groupKeys spec.rowKeys spec.groupRow (spec.joined tables) (spec.evalQuery tables) := by
        rw [ViewSpec.evalQuery, ViewSpec.output, shape]
        exact (grouped_iff_perm view.aggregation).mpr (.refl _)
      refine ⟨fills.fits, fills.keyable, ?_, fun r member _ count named => ?_⟩
      · refine fills.keyed grouped.keyed fun r _ r' _ same => ?_
        rw [view.identity] at same
        exact List.map_congr_left fun o member => same o.aliasName (List.mem_map_of_mem member)
      · obtain rfl := Option.some.inj (view.countAlias.symm.trans named)
        exact view.count_pos grouped member

/-- The steps at which the planned rows of a view are read back as written, and its storage
table and index take what the populate query returns. -/
def Server.Faithful (pf : Platform) (settings : Settings) (id : Nat) (s : Server) : Event → Prop
  | .built sight _ _ group => ∀ view ∈ group, view.id = id → ∀ spec, sight.spec view = .ok spec → spec.Tabled ∧ spec.Fills (sight.populate spec)
  | .applied faults cache txs => ∀ v ∈ roundExecutions pf settings faults cache s.catalog txs, v.row.id = id → v.Faithful pf
  | _ => True

/-- What is known of the row of a view in any state. -/
structure ViewRow.Ready (row : ViewRow) : Prop where
  live : row.status = .live → row.populated = true
  initial : row.status = .initializing → row.populated = false
  tabled : row.populated = true → row.spec.Tabled
  held : row.populated = true → row.spec.Held row.storage

/-- A row built anew, under the next epoch unless it is the first time. -/
structure ViewRow.Renewed (row row' : ViewRow) : Prop where
  id : row'.id = row.id
  epoch : row'.epoch = row.epoch + if row.populated then 1 else 0
  lastSeq : row'.lastSeq = row.lastSeq
  deltas : row'.deltas = []
  populated : row'.populated = true
  ready : row'.Ready

inductive ViewRow.Turns (row row' : ViewRow) : Prop where
  | follows (new : List LoggedDelta) (follows : row.Follows new row')
  | renewed (renewed : row.Renewed row')

/-- What a step that is no round makes of a row: it logs nothing. -/
inductive ViewRow.Stays (row row' : ViewRow) : Prop where
  | follows (follows : row.Follows [] row')
  | renewed (renewed : row.Renewed row')

theorem ViewRow.Stays.turns {row row' : ViewRow} (stays : row.Stays row') : row.Turns row' := by
  cases stays with
  | follows follows => exact .follows [] follows
  | renewed renewed => exact .renewed renewed

theorem ViewRow.Follows.ready {row row' : ViewRow} {new : List LoggedDelta} (follows : row.Follows new row') (ready : row.Ready) : row'.Ready where
  live := by
    intro live
    rw [follows.populated]
    rcases follows.status with same | ⟨other, _⟩
    · exact ready.live (same.symm.trans live)
    · exact absurd live other
  initial := by
    intro initial
    rw [follows.populated]
    rcases follows.status with same | ⟨_, other⟩
    · exact ready.initial (same.symm.trans initial)
    · exact absurd initial other
  tabled := by
    rw [follows.populated, follows.spec]
    exact ready.tabled
  held := by
    rw [follows.populated, follows.spec]
    exact fun populated => (follows.patches (ready.held populated)).1

theorem ViewRow.Turns.ready {row row' : ViewRow} (turns : row.Turns row') (ready : row.Ready) : row'.Ready := by
  cases turns with
  | follows new follows => exact follows.ready ready
  | renewed renewed => exact renewed.ready

theorem ViewRow.Follows.idled {row : ViewRow} {frontier : Nat} (ahead : row.frontier < frontier) : row.Follows [] { row with frontier := frontier } :=
  .of_quiet rfl rfl rfl rfl (.inl rfl) rfl rfl ahead.le rfl

/-- A group is populated: a view it leaves alone, one that failed, one that was built. -/
theorem ViewRow.Built.stays {s : Server} (orderly : s.Orderly) {sight : Sight} {point : Nat} {group : List Pending} {groups : List (List Pending)}
    (next : s.groups = group :: groups) {row row' : ViewRow} (member : row ∈ s.catalog.views) (ready : row.Ready)
    (built : row.Built sight point group row')
    (faithful : ∀ view ∈ group, view.id = row.id → ∀ spec, sight.spec view = .ok spec → spec.Tabled ∧ spec.Fills (sight.populate spec)) :
    row.Stays row' := by
  by_cases inside : row.id ∈ group.map Pending.id
  · rcases built.inside inside with ⟨view, within, same, spec, validated, rfl⟩ | ⟨message, rfl⟩
    · have loaded := orderly.loaded view (by rw [next, List.flatten_cons]; exact List.mem_append_left _ within)
      have pending := loaded.2.2 row member same.symm
      have status : row.status = .initializing ∨ row.status = .refreshing := by
        have waiting := loaded.2.1
        rw [← pending] at waiting
        exact waiting
      have rebuild : view.rebuild = row.populated := by
        rw [← pending, Pending.rebuild]
        show (decide (row.status = .refreshing) && row.populated) = row.populated
        rcases status with initializing | refreshing
        · rw [ready.initial initializing, Bool.and_false]
        · rw [decide_eq_true refreshing, Bool.true_and]
      obtain ⟨tabled, fills⟩ := faithful view within same spec validated
      have specs : (if view.rebuild then spec else row.spec) = spec := by
        by_cases again : view.rebuild = true
        · rw [if_pos again]
        · rw [if_neg again]
          rw [Sight.spec, if_neg again, Except.ok.injEq, ← pending] at validated
          exact validated
      refine .renewed ⟨rfl, ?_, rfl, rfl, rfl, fun _ => rfl, fun initial => absurd initial Status.noConfusion, fun _ => ?_, fun _ => ?_⟩
      · rw [← rebuild]
        rfl
      · show (if view.rebuild then spec else row.spec).Tabled
        rw [specs]
        exact tabled
      · show (if view.rebuild then spec else row.spec).Held (sight.populate spec)
        rw [specs]
        exact tabled.populated fills
    · exact .follows (.of_quiet rfl rfl rfl rfl (.inr ⟨Status.noConfusion, Status.noConfusion⟩) rfl rfl (le_refl _) rfl)
  · rw [built.outside inside]
    exact .follows (.refl row)

theorem Call.commit_stays {s : Server} {call : Call} {id : Nat} {publication : List Nat} {c : Catalog}
    (writes : call.commit s.names id s.publication s.catalog = some (publication, c)) : ∀ row' ∈ c.views,
      (∃ name definition spec, row' = .initial id name definition spec) ∨ ∃ row ∈ s.catalog.views, row'.id = row.id ∧ row.Stays row' := by
  intro row' member
  have kept : row' ∈ s.catalog.views → ∃ row ∈ s.catalog.views, row'.id = row.id ∧ row.Stays row' :=
    fun before => ⟨row', before, rfl, .follows (.refl row')⟩
  cases call with
  | create name definition spec added =>
      simp only [Call.commit] at writes
      split at writes
      · cases writes
      · obtain ⟨rfl, rfl⟩ := Prod.mk.inj (Option.some.inj writes)
        rcases List.mem_append.mp member with before | new
        · exact .inr (kept before)
        · exact .inl ⟨name, definition, spec, List.mem_singleton.mp new⟩
  | refresh _ _ => cases writes
  | marked ids added =>
      simp only [Call.commit] at writes
      split at writes
      · cases writes
      · obtain ⟨rfl, rfl⟩ := Prod.mk.inj (Option.some.inj writes)
        obtain ⟨row, before, rfl | ⟨_, rfl⟩⟩ := mem_of_forall₂_right (s.catalog.markRefreshing_views ids) member
        · exact .inr (kept before)
        · refine .inr ⟨row, before, rfl, .follows ?_⟩
          exact .of_quiet rfl rfl rfl rfl (.inr ⟨Status.noConfusion, Status.noConfusion⟩) rfl rfl (le_refl _) rfl
  | dropView view pruned =>
      obtain ⟨rfl, rfl⟩ := Prod.mk.inj (Option.some.inj writes)
      exact .inr (kept (Catalog.mem_forgetView.mp member).1)
  | dropTable relid pruned =>
      obtain ⟨rfl, rfl⟩ := Prod.mk.inj (Option.some.inj writes)
      exact .inr (kept (Catalog.mem_dropTable.mp member).1)
  | dropShadow relid pruned =>
      obtain ⟨rfl, rfl⟩ := Prod.mk.inj (Option.some.inj writes)
      exact .inr (kept member)

/-- A step that is no round keeps the row of a view, or builds it anew; a new row has an id
of its own. -/
theorem Server.Step.stays {s s' : Server} {e : Event} {id : Nat} (orderly : s.Orderly) (step : s.Step pf settings e s')
    (faithful : s.Faithful pf settings id e) (still : ∀ faults cache txs, e ≠ .applied faults cache txs) (ready : ∀ row ∈ s.catalog.views, row.id = id → row.Ready) :
    ∀ row' ∈ s'.catalog.views, row'.id = id →
      (id ∉ s.used ∧ ∃ name definition spec, row' = .initial id name definition spec) ∨ ∃ row ∈ s.catalog.views, row.id = id ∧ row.Stays row' := by
  intro row' member same
  have kept : row' ∈ s.catalog.views → ∃ row ∈ s.catalog.views, row.id = id ∧ row.Stays row' :=
    fun before => ⟨row', before, same, .follows (.refl row')⟩
  cases step with
  | committed began fresh writes =>
      rcases Call.commit_stays writes row' member with ⟨name, definition, spec, rfl⟩ | ⟨row, before, own, stays⟩
      · obtain rfl : _ = id := same
        exact .inl ⟨fresh, name, definition, spec, rfl⟩
      · exact .inr ⟨row, before, own.symm.trans same, stays⟩
  | built next =>
      obtain ⟨row, before, built, _⟩ := mem_of_forall₂_right (Catalog.populate_views (orderly.head next) _ s.catalog) member
      have own : row.id = id := built.id.symm.trans same
      refine .inr ⟨row, before, own, built.stays orderly next before (ready row before own) ?_⟩
      rw [own]
      exact faithful
  | applied done ran => exact absurd rfl (still _ _ _)
  | idled done =>
      obtain ⟨row, before, ⟨rfl, _⟩ | ⟨rfl, _, ahead⟩⟩ := Catalog.idleAdvance_row member
      · exact .inr (kept before)
      · exact .inr ⟨row, before, same, .follows (.idled ahead)⟩
  | lagged done =>
      obtain ⟨row, before, rfl⟩ := List.mem_map.mp member
      refine .inr ⟨row, before, ?_, .follows ?_⟩
      · rw [← same]
        split <;> rfl
      · split
        · exact .of_quiet rfl rfl rfl rfl (.inr ⟨Status.noConfusion, Status.noConfusion⟩) rfl rfl (le_refl _) rfl
        · exact .refl row
  | renamed => exact .inr (kept member)
  | createBegan => exact .inr (kept member)
  | refreshBegan => exact .inr (kept member)
  | updated => exact .inr (kept member)
  | viewDropBegan => exact .inr (kept member)
  | tableDropBegan => exact .inr (kept member)
  | shadowDropBegan => exact .inr (kept member)
  | aborted => exact .inr (kept member)
  | loaded => exact .inr (kept member)
  | restarted => exact .inr (kept member)

/-- Every step takes the row of a view to one that follows it or is built anew; a new row
has an id of its own. -/
theorem Server.Step.turns {s s' : Server} {e : Event} {id : Nat} (orderly : s.Orderly) (step : s.Step pf settings e s')
    (faithful : s.Faithful pf settings id e) (retain : 1 ≤ settings.retainDeltas) (ready : ∀ row ∈ s.catalog.views, row.id = id → row.Ready) :
    ∀ row' ∈ s'.catalog.views, row'.id = id →
      (id ∉ s.used ∧ ∃ name definition spec, row' = .initial id name definition spec) ∨ ∃ row ∈ s.catalog.views, row.id = id ∧ row.Turns row' := by
  intro row' member same
  by_cases round : ∃ faults cache txs, e = .applied faults cache txs
  · obtain ⟨faults, cache, txs, rfl⟩ := round
    cases step with
    | applied done ran =>
        obtain ⟨row, before, stands⟩ := (applyRound_stands orderly.ids ran).row member
        have own : row.id = id := stands.id.symm.trans same
        have known := ready row before own
        obtain ⟨new, follows⟩ := applyRound_follows orderly.ids ran before member stands.id retain (fun live => known.tabled (known.live live))
          (fun live => known.held (known.live live)) fun v within its => faithful v within (its.trans own)
        exact .inr ⟨row, before, own, .follows new follows⟩
  · rcases step.stays orderly faithful (fun faults cache txs same => round ⟨faults, cache, txs, same⟩) ready row' member same with
      new | ⟨row, before, own, stays⟩
    · exact .inl new
    · exact .inr ⟨row, before, own, stays.turns⟩

def shownLog (hidden : List String) (log : List LoggedDelta) : List (Bags.Event Json) := log.map fun d => d.delta.event.map (Json.without hidden)

def Written.volume (w : Written) (hidden : List String) : Volume Json := ⟨w.first, shownLog hidden w.deltas⟩

/-- Everything logged for a view in each of its epochs, with the columns hidden in it. -/
structure Chronicle where
  epoch : Nat
  hidden : Nat → List String
  written : Nat → Written

def Chronicle.story (ch : Chronicle) : Story Json := ⟨ch.epoch, fun e => (ch.written e).volume (ch.hidden e)⟩

def Chronicle.log (ch : Chronicle) (new : List LoggedDelta) : Chronicle :=
  { ch with written := Function.update ch.written ch.epoch ((ch.written ch.epoch).append new) }

def Chronicle.hide (ch : Chronicle) (hidden : List String) : Chronicle := { ch with hidden := Function.update ch.hidden ch.epoch hidden }

def Chronicle.renew (ch : Chronicle) (first : Nat) (hidden : List String) : Chronicle where
  epoch := ch.epoch + 1
  hidden := Function.update ch.hidden (ch.epoch + 1) hidden
  written := Function.update ch.written (ch.epoch + 1) ⟨first, []⟩

/-- Nothing is logged from one chronicle to the other. -/
def Chronicle.Quiet (ch ch' : Chronicle) : Prop := ∀ e, ch'.written e = ch.written e ∨ (ch'.written e).deltas = []

/-- How the chronicle of a view goes on in one step of the installation. -/
inductive Chronicle.Next (ch : Chronicle) : Chronicle → Prop where
  | stays : Next ch ch
  | logged (new : List LoggedDelta) (beyond : ∀ a ∈ (ch.written ch.epoch).deltas, ∀ d ∈ new, a.lsn < d.lsn) : Next ch (ch.log new)
  | hidden (hidden : List String) (empty : (ch.written ch.epoch).deltas = []) : Next ch (ch.hide hidden)
  | renewed (first : Nat) (hidden : List String) : Next ch (ch.renew first hidden)

theorem shownLog_append (hidden : List String) (first second : List LoggedDelta) :
    shownLog hidden (first ++ second) = shownLog hidden first ++ shownLog hidden second := List.map_append

theorem visible_eq (spec : ViewSpec) : visible spec = Json.without spec.hiddenColumns := by
  funext j
  cases j <;> rfl

theorem ViewSpec.shownEvents_eq (spec : ViewSpec) (log : List LoggedDelta) : spec.shownEvents log = shownLog spec.hiddenColumns log := by
  rw [ViewSpec.shownEvents, shownLog, ← visible_eq]
  rfl

@[simp] theorem Chronicle.log_nil (ch : Chronicle) : ch.log [] = ch := by
  rw [Chronicle.log, Written.append_nil, Function.update_eq_self]

theorem Chronicle.story_log (ch : Chronicle) (new : List LoggedDelta) :
    (ch.log new).story = ch.story.grow (shownLog (ch.hidden ch.epoch) new) := by
  simp only [Chronicle.story, Chronicle.log, Story.grow, Story.mk.injEq, true_and]
  funext e
  by_cases here : e = ch.epoch
  · subst here
    simp only [Function.update_self, Written.volume, Written.append, Volume.append, shownLog_append]
  · simp only [Function.update_of_ne here]

theorem Chronicle.story_hide {ch : Chronicle} (hidden : List String) (empty : (ch.written ch.epoch).deltas = []) :
    (ch.hide hidden).story = ch.story := by
  simp only [Chronicle.story, Chronicle.hide, Story.mk.injEq, true_and]
  funext e
  by_cases here : e = ch.epoch
  · subst here
    simp only [Written.volume, empty, shownLog, List.map_nil]
  · simp only [Function.update_of_ne here]

theorem Chronicle.story_renew (ch : Chronicle) (first : Nat) (hidden : List String) :
    (ch.renew first hidden).story = ch.story.renew first := by
  simp only [Chronicle.story, Chronicle.renew, Story.renew, Story.mk.injEq, true_and]
  funext e
  by_cases here : e = ch.epoch + 1
  · subst here
    simp only [Function.update_self, Written.volume, shownLog, List.map_nil]
  · simp only [Function.update_of_ne here]

def ViewRow.edition (row : ViewRow) : Edition Json := ⟨row.epoch, row.lastSeq, row.spec.shown row.storage⟩

def editions (past : List ViewRow) : List (Edition Json) := (past.filter ViewRow.populated).map ViewRow.edition

/-- The row of a view against its chronicle and its past. -/
structure Chronicle.Current (ch : Chronicle) (past : List ViewRow) (row : ViewRow) : Prop where
  ready : row.Ready
  epoch : row.epoch = ch.epoch
  keeps : row.Keeps (ch.written ch.epoch)
  hidden : row.populated = true → row.spec.hiddenColumns = ch.hidden ch.epoch
  told : row.populated = true → row ∈ past
  untold : row.populated = false → (ch.written ch.epoch).deltas = [] ∧ ∀ r ∈ past, r.populated = false
  latest : ∀ r ∈ past, r.populated = true → r.epoch = row.epoch → r.frontier ≤ row.frontier

/-- A state of a view behind what was written up to its position; the rest is of later ones. -/
def ViewRow.Reached (row : ViewRow) (w : Written) : Prop :=
  ∃ upTo later, w.deltas = upTo ++ later ∧ row.lastSeq = w.first + upTo.length ∧ (∀ a ∈ upTo, a.lsn ≤ row.frontier) ∧
    ∀ b ∈ later, row.frontier < b.lsn

/-- The past of a view is as its chronicle tells it. -/
structure Chronicle.Past (ch : Chronicle) (past : List ViewRow) : Prop where
  tells : ch.story.Tells (editions past)
  hidden : ∀ r ∈ past, r.populated = true → r.spec.hiddenColumns = ch.hidden r.epoch
  reached : ∀ r ∈ past, r.populated = true → r.Reached (ch.written r.epoch)

theorem ViewRow.Keeps.lsn_le {row : ViewRow} {w : Written} (keeps : row.Keeps w) {d : LoggedDelta} (member : d ∈ w.deltas) : d.lsn ≤ row.frontier := by
  obtain ⟨blocks, written, _, bounds⟩ := keeps.blocks
  rw [written] at member
  obtain ⟨_, _, b, within, lsn, _⟩ := mem_numberBlocks member
  exact lsn ▸ bounds b within

theorem ViewRow.Keeps.reached {row : ViewRow} {w : Written} (keeps : row.Keeps w) : row.Reached w :=
  ⟨w.deltas, [], (List.append_nil _).symm, keeps.last, fun _ logged => keeps.lsn_le logged, fun _ none => absurd none List.not_mem_nil⟩

theorem ViewRow.Reached.append {row : ViewRow} {w : Written} (reached : row.Reached w) {new : List LoggedDelta}
    (beyond : ∀ d ∈ new, row.frontier < d.lsn) : row.Reached (w.append new) := by
  obtain ⟨upTo, later, split, last, behind, ahead⟩ := reached
  exact ⟨upTo, later ++ new, by rw [Written.append, split, List.append_assoc], last, behind, List.forall_mem_append.mpr ⟨ahead, beyond⟩⟩

theorem editions_cons {row : ViewRow} (populated : row.populated = true) (past : List ViewRow) :
    editions (row :: past) = row.edition :: editions past := by
  rw [editions, List.filter_cons_of_pos populated, List.map_cons, editions]

theorem editions_skip {row : ViewRow} (unpopulated : row.populated = false) (past : List ViewRow) : editions (row :: past) = editions past := by
  rw [editions, List.filter_cons_of_neg (by rw [unpopulated]; exact Bool.false_ne_true), editions]

theorem mem_editions {row : ViewRow} {past : List ViewRow} (member : row ∈ past) (populated : row.populated = true) : row.edition ∈ editions past :=
  List.mem_map_of_mem (List.mem_filter.mpr ⟨member, populated⟩)

theorem Chronicle.Past.known {ch : Chronicle} {past : List ViewRow} (told : ch.Past past) {r : ViewRow} (member : r ∈ past)
    (populated : r.populated = true) : r.epoch ≤ ch.epoch := told.tells.known _ (mem_editions member populated)

theorem ViewRow.Keeps.volume_last {row : ViewRow} {w : Written} (keeps : row.Keeps w) (hidden : List String) : (w.volume hidden).last = row.lastSeq := by
  rw [Volume.last, Written.volume, shownLog, List.length_map, keeps.last]

section Turns

variable {ch : Chronicle} {past : List ViewRow} {row row' : ViewRow} (current : ch.Current past row) (told : ch.Past past)
include current told

/-- A row that followed is told by what was logged. -/
theorem Chronicle.Current.follows {new : List LoggedDelta} (follows : row.Follows new row') :
    ch.Next (ch.log new) ∧ (ch.log new).Past (row' :: past) ∧ (ch.log new).Current (row' :: past) row' := by
  have ready := follows.ready current.ready
  have keeps := follows.keeps _ current.keeps
  have epoch := follows.epoch.trans current.epoch
  have latest : ∀ r ∈ row' :: past, r.populated = true → r.epoch = row'.epoch → r.frontier ≤ row'.frontier := by
    refine List.forall_mem_cons.mpr ⟨fun _ _ => le_refl _, fun r member some same => ?_⟩
    exact (current.latest r member some (same.trans follows.epoch)).trans follows.frontier
  cases populated : row.populated with
  | false =>
      obtain rfl : new = [] := by
        by_contra some
        have live := current.ready.live (follows.logs some)
        rw [populated] at live
        exact Bool.false_ne_true live
      have unpopulated : row'.populated = false := follows.populated.trans populated
      obtain ⟨empty, before⟩ := current.untold populated
      rw [Written.append_nil] at keeps
      rw [Chronicle.log_nil]
      refine ⟨.stays, ⟨?_, ?_, ?_⟩, ready, epoch, keeps, ?_, ?_, fun _ => ⟨empty, ?_⟩, latest⟩
      · rw [editions_skip unpopulated]
        exact told.tells
      · refine List.forall_mem_cons.mpr ⟨fun some => ?_, told.hidden⟩
        exact absurd (unpopulated.symm.trans some) Bool.false_ne_true
      · refine List.forall_mem_cons.mpr ⟨fun some => ?_, told.reached⟩
        exact absurd (unpopulated.symm.trans some) Bool.false_ne_true
      · exact fun some => absurd (unpopulated.symm.trans some) Bool.false_ne_true
      · exact fun some => absurd (unpopulated.symm.trans some) Bool.false_ne_true
      · exact List.forall_mem_cons.mpr ⟨unpopulated, before⟩
  | true =>
      have populated' : row'.populated = true := follows.populated.trans populated
      have hidden : row'.spec.hiddenColumns = ch.hidden ch.epoch := by rw [follows.spec, current.hidden populated]
      have written : (ch.log new).written ch.epoch = (ch.written ch.epoch).append new := Function.update_self _ _ _
      have patches := (follows.patches (current.ready.held populated)).2
      rw [ViewSpec.shownEvents_eq, current.hidden populated] at patches
      have last : row.edition.seq = (ch.story.volumes ch.story.epoch).last := (current.keeps.volume_last _).symm
      have grown := told.tells.grow (mem_editions (current.told populated) populated) current.epoch last patches
      have beyond : ∀ a ∈ (ch.written ch.epoch).deltas, ∀ d ∈ new, a.lsn < d.lsn :=
        fun a earlier d later => (current.keeps.lsn_le earlier).trans_lt (follows.beyond d later)
      refine ⟨.logged new beyond, ⟨?_, ?_, ?_⟩, ready, epoch, ?_, fun _ => hidden, fun _ => List.mem_cons_self, ?_, latest⟩
      · rw [editions_cons populated', ch.story_log]
        have edition : row'.edition = ⟨ch.story.epoch, (ch.story.volumes ch.story.epoch).last + (shownLog (ch.hidden ch.epoch) new).length,
            row.spec.shown row'.storage⟩ := by
          rw [← last, shownLog, List.length_map, ViewRow.edition, follows.spec, follows.epoch, current.epoch]
          have reached := keeps.last
          rw [Written.append, List.length_append, ← Nat.add_assoc, ← current.keeps.last] at reached
          rw [reached]
          rfl
        rw [edition]
        exact grown
      · refine List.forall_mem_cons.mpr ⟨fun _ => ?_, told.hidden⟩
        rw [hidden, epoch]
        rfl
      · refine List.forall_mem_cons.mpr ⟨fun _ => ?_, fun r member some => ?_⟩
        · rw [epoch, written]
          exact keeps.reached
        · have before := told.reached r member some
          by_cases here : r.epoch = ch.epoch
          · have behind := current.latest r member some (here.trans current.epoch.symm)
            rw [here] at before ⊢
            rw [written]
            exact before.append fun d later => behind.trans_lt (follows.beyond d later)
          · have other : (ch.log new).written r.epoch = ch.written r.epoch := Function.update_of_ne here _ _
            rw [other]
            exact before
      · show row'.Keeps ((ch.log new).written ch.epoch)
        rw [written]
        exact keeps
      · exact fun none => absurd (none.symm.trans populated') Bool.false_ne_true

theorem Chronicle.Current.renewed (renewed : row.Renewed row') :
    ∃ ch', ch.Next ch' ∧ ch.Quiet ch' ∧ ch'.Past (row' :: past) ∧ ch'.Current (row' :: past) row' := by
  have keeps := ViewRow.Keeps.empty renewed.deltas
  have settled : ∀ ch' : Chronicle, row'.populated = false → (ch'.written ch'.epoch).deltas = [] ∧ ∀ r ∈ row' :: past, r.populated = false :=
    fun _ none => absurd (none.symm.trans renewed.populated) Bool.false_ne_true
  cases populated : row.populated with
  | false =>
      obtain ⟨empty, before⟩ := current.untold populated
      have first : (ch.written ch.epoch).first = row'.lastSeq := by
        have last := current.keeps.last
        rw [empty, List.length_nil, Nat.add_zero] at last
        rw [renewed.lastSeq, last]
      have written : ch.written ch.epoch = ⟨row'.lastSeq, []⟩ := by rw [← first, ← empty]
      have epoch : row'.epoch = ch.epoch := by rw [renewed.epoch, populated, current.epoch]; rfl
      have hidden : (ch.hide row'.spec.hiddenColumns).hidden ch.epoch = row'.spec.hiddenColumns := Function.update_self _ _ _
      have none : editions past = [] := by
        rw [editions, List.map_eq_nil_iff, List.filter_eq_nil_iff]
        exact fun r member => by rw [before r member]; exact Bool.false_ne_true
      have latest : ∀ r ∈ row' :: past, r.populated = true → r.epoch = row'.epoch → r.frontier ≤ row'.frontier := by
        refine List.forall_mem_cons.mpr ⟨fun _ _ => le_refl _, fun r member some => ?_⟩
        exact absurd ((before r member).symm.trans some) Bool.false_ne_true
      refine ⟨ch.hide row'.spec.hiddenColumns, .hidden _ empty, fun _ => .inl rfl, ⟨?_, ?_, ?_⟩, renewed.ready, epoch, ?_, fun _ => hidden.symm,
        fun _ => List.mem_cons_self, settled _, latest⟩
      · rw [editions_cons renewed.populated, ch.story_hide _ empty, ViewRow.edition, epoch]
        refine told.tells.enter (fun e member => ?_) ?_ _
        · rw [none] at member
          exact absurd member List.not_mem_nil
        · show row'.lastSeq = ((ch.written ch.epoch).volume _).last
          rw [written]
          rfl
      · refine List.forall_mem_cons.mpr ⟨fun _ => ?_, fun r member some => ?_⟩
        · rw [epoch, hidden]
        · rw [before r member] at some
          exact absurd some Bool.false_ne_true
      · refine List.forall_mem_cons.mpr ⟨fun _ => ?_, fun r member some => ?_⟩
        · rw [epoch]
          show row'.Reached (ch.written ch.epoch)
          rw [written]
          exact keeps.reached
        · rw [before r member] at some
          exact absurd some Bool.false_ne_true
      · show row'.Keeps (ch.written ch.epoch)
        rw [written]
        exact keeps
  | true =>
      have epoch : row'.epoch = ch.epoch + 1 := by rw [renewed.epoch, populated, current.epoch]; rfl
      have hidden : (ch.renew row'.lastSeq row'.spec.hiddenColumns).hidden (ch.epoch + 1) = row'.spec.hiddenColumns := Function.update_self _ _ _
      have written : (ch.renew row'.lastSeq row'.spec.hiddenColumns).written (ch.epoch + 1) = ⟨row'.lastSeq, []⟩ := Function.update_self _ _ _
      have quiet : ch.Quiet (ch.renew row'.lastSeq row'.spec.hiddenColumns) := by
        intro e
        by_cases here : e = ch.epoch + 1
        · rw [here, written]
          exact .inr rfl
        · exact .inl (Function.update_of_ne here _ _)
      have latest : ∀ r ∈ row' :: past, r.populated = true → r.epoch = row'.epoch → r.frontier ≤ row'.frontier := by
        refine List.forall_mem_cons.mpr ⟨fun _ _ => le_refl _, fun r member some same => ?_⟩
        have known := told.known member some
        omega
      refine ⟨ch.renew row'.lastSeq row'.spec.hiddenColumns, .renewed _ _, quiet, ⟨?_, ?_, ?_⟩, renewed.ready, epoch, ?_, fun _ => hidden.symm,
        fun _ => List.mem_cons_self, settled _, latest⟩
      · have next := told.tells.renew row'.lastSeq
        have volume : (ch.story.renew row'.lastSeq).volumes (ch.story.renew row'.lastSeq).epoch = ⟨row'.lastSeq, []⟩ := Function.update_self _ _ _
        rw [editions_cons renewed.populated, ch.story_renew, ViewRow.edition, epoch]
        refine next.enter (fun e member same => ?_) ?_ _
        · have known := told.tells.known e member
          exact absurd known (by rw [same]; exact Nat.not_succ_le_self _)
        · rw [volume]
          rfl
      · refine List.forall_mem_cons.mpr ⟨fun _ => ?_, fun r member some => ?_⟩
        · rw [epoch, hidden]
        · have known := told.known member some
          rw [told.hidden r member some]
          exact (Function.update_of_ne (by omega) _ _).symm
      · refine List.forall_mem_cons.mpr ⟨fun _ => ?_, fun r member some => ?_⟩
        · rw [epoch, written]
          exact keeps.reached
        · have known := told.known member some
          have other : (ch.renew row'.lastSeq row'.spec.hiddenColumns).written r.epoch = ch.written r.epoch := Function.update_of_ne (by omega) _ _
          rw [other]
          exact told.reached r member some
      · show row'.Keeps ((ch.renew row'.lastSeq row'.spec.hiddenColumns).written (ch.epoch + 1))
        rw [written]
        exact keeps

end Turns

theorem Chronicle.Current.turns {ch : Chronicle} {past : List ViewRow} {row row' : ViewRow} (current : ch.Current past row) (told : ch.Past past)
    (turns : row.Turns row') : ∃ ch', ch.Next ch' ∧ ch'.Past (row' :: past) ∧ ch'.Current (row' :: past) row' := by
  cases turns with
  | follows new follows => exact ⟨_, current.follows told follows⟩
  | renewed renewed =>
      obtain ⟨ch', next, _, past', current'⟩ := current.renewed told renewed
      exact ⟨ch', next, past', current'⟩

def Chronicle.start : Chronicle := ⟨1, fun _ => [], fun _ => ⟨0, []⟩⟩

/-- A state of an installation against the past of one of its views. -/
structure Chronicle.Records (ch : Chronicle) (id : Nat) (s : Server) (past : List ViewRow) : Prop where
  orderly : s.Orderly
  told : ch.Past past
  current : ∀ row ∈ s.catalog.views, row.id = id → ch.Current past row
  unused : id ∉ s.used → past = [] ∧ ch = .start

def Server.rows (s : Server) (id : Nat) : List ViewRow := s.catalog.views.filter fun row => decide (row.id = id)

theorem Server.mem_rows {s : Server} {id : Nat} {row : ViewRow} : row ∈ s.rows id ↔ row ∈ s.catalog.views ∧ row.id = id := by
  rw [Server.rows, List.mem_filter, decide_eq_true_eq]

/-- The runs of an installation all of whose steps meet a condition, with the past of a view:
its rows in the states so far, the latest first. -/
inductive Server.Recounts (pf : Platform) (settings : Settings) (guard : Server → Event → Prop) (id : Nat) : Server → List ViewRow → Prop where
  | start {s : Server} (starts : s.Starts) (new : id ∉ s.used) : Recounts pf settings guard id s []
  | step {s s' : Server} {e : Event} {past : List ViewRow} (run : Recounts pf settings guard id s past) (step : s.Step pf settings e s')
      (meets : guard s e) : Recounts pf settings guard id s' (s'.rows id ++ past)

theorem ViewRow.initial_current (id : Nat) (name definition : String) (spec : ViewSpec) :
    Chronicle.start.Current [.initial id name definition spec] (.initial id name definition spec) where
  ready := ⟨fun live => absurd live Status.noConfusion, fun _ => rfl, fun some => absurd some Bool.false_ne_true, fun some => absurd some Bool.false_ne_true⟩
  epoch := rfl
  keeps := .empty rfl
  hidden := fun some => absurd some Bool.false_ne_true
  told := fun some => absurd some Bool.false_ne_true
  untold := fun _ => ⟨rfl, fun _ member => List.mem_singleton.mp member ▸ rfl⟩
  latest := fun _ member _ _ => List.mem_singleton.mp member ▸ le_refl _

theorem Chronicle.Past.start (row : ViewRow) (unpopulated : row.populated = false) : Chronicle.start.Past [row] where
  tells := by
    rw [editions_skip unpopulated]
    exact .nil _
  hidden := by
    intro r member some
    rw [List.mem_singleton.mp member, unpopulated] at some
    exact absurd some Bool.false_ne_true
  reached := by
    intro r member some
    rw [List.mem_singleton.mp member, unpopulated] at some
    exact absurd some Bool.false_ne_true

/-- A step of the installation, with the states of the view `between` the one before and the
one after: it drops the view, enters it, or goes on from its row. -/
theorem Chronicle.Records.advance {ch : Chronicle} {id : Nat} {s s' : Server} {e : Event} {past between : List ViewRow} {P : Chronicle → Prop}
    (records : ch.Records id s past) (step : s.Step pf settings e s') (stays : P ch) (still : s'.rows id = [] ∨ id ∉ s.used → between = [])
    (goes : ∀ row' ∈ s'.catalog.views, row'.id = id →
      (id ∉ s.used ∧ ∃ name definition spec, row' = .initial id name definition spec) ∨
        ∃ ch', P ch' ∧ ch'.Past (row' :: (between ++ past)) ∧ ch'.Current (row' :: (between ++ past)) row') :
    ∃ ch', P ch' ∧ ch'.Records id s' (s'.rows id ++ (between ++ past)) := by
  have orderly := step.orderly records.orderly
  cases rows : s'.rows id with
  | nil =>
      obtain rfl := still (.inl rows)
      have gone : ∀ row ∈ s'.catalog.views, row.id ≠ id := by
        intro row member same
        exact absurd (Server.mem_rows.mpr ⟨member, same⟩) (by rw [rows]; exact List.not_mem_nil)
      refine ⟨ch, stays, orderly, records.told, fun row member same => absurd same (gone row member), fun unused => ?_⟩
      exact records.unused fun used => unused (step.grows used)
  | cons row' others =>
      obtain ⟨member', own'⟩ := Server.mem_rows.mp (rows ▸ List.mem_cons_self : row' ∈ s'.rows id)
      have single : s'.rows id = [row'] := own' ▸ orderly.ids.group_of_mem member'
      obtain rfl : others = [] := (List.cons.inj (rows.symm.trans single)).2
      have only : ∀ row ∈ s'.catalog.views, row.id = id → row = row' :=
        fun row member same => orderly.ids.eq_of_mem member member' (same.trans own'.symm)
      have used : id ∈ s'.used := own' ▸ orderly.used row' member'
      rcases goes row' member' own' with ⟨new, name, definition, spec, rfl⟩ | ⟨ch', holds, told', current'⟩
      · obtain rfl := still (.inr new)
        obtain ⟨rfl, rfl⟩ := records.unused new
        refine ⟨.start, stays, orderly, .start _ rfl, fun row member same => ?_, fun unused => absurd used unused⟩
        rw [only row member same]
        exact ViewRow.initial_current id name definition spec
      · exact ⟨ch', holds, orderly, told', fun row member same => only row member same ▸ current', fun unused => absurd used unused⟩

/-- The chronicle of a view goes on with every step. -/
theorem Chronicle.Records.step {ch : Chronicle} {id : Nat} {s s' : Server} {e : Event} {past : List ViewRow} (records : ch.Records id s past)
    (retain : 1 ≤ settings.retainDeltas) (step : s.Step pf settings e s') (faithful : s.Faithful pf settings id e) :
    ∃ ch', ch.Next ch' ∧ ch'.Records id s' (s'.rows id ++ past) := by
  have turns := step.turns records.orderly faithful retain fun row member same => (records.current row member same).ready
  refine records.advance step .stays (fun _ => rfl) fun row' member' own' => ?_
  rcases turns row' member' own' with new | ⟨row, member, own, turns⟩
  · exact .inl new
  · exact .inr ((records.current row member own).turns records.told turns)

theorem Server.Starts.records {id : Nat} {s : Server} (starts : s.Starts) : Chronicle.start.Records id s [] where
  orderly := starts.orderly
  told := ⟨.nil _, fun _ member => absurd member List.not_mem_nil, fun _ member => absurd member List.not_mem_nil⟩
  current := by
    intro row member
    rw [starts.views] at member
    exact absurd member List.not_mem_nil
  unused := fun _ => ⟨rfl, rfl⟩

theorem Server.Recounts.records {id : Nat} {s : Server} {past : List ViewRow} (retain : 1 ≤ settings.retainDeltas)
    (run : s.Recounts pf settings (Server.Faithful pf settings id) id past) : ∃ ch : Chronicle, ch.Records id s past := by
  induction run with
  | start starts new => exact ⟨.start, starts.records⟩
  | step _ step faithful ih =>
      obtain ⟨ch, records⟩ := ih
      obtain ⟨ch', _, records'⟩ := records.step retain step faithful
      exact ⟨ch', records'⟩

def itemsRelation : Relation := ⟨1, "public", "items", 100, [⟨"id", true, 25, -1, some "text"⟩]⟩

def itemAdded : SourceTransaction := ⟨7, 11, 12, [.insert 1 [.text "a"]]⟩

def itemJson : Json := .obj [("id", .str "a")]

def itemRow : ViewRow :=
  { idRow.built 10 false [] with
    frontier := 12
    lastSeq := 1
    storage := [[("id", .text "a")]]
    deltas := [⟨1, 12, 7, .I, itemJson⟩] }

def itemServer : Server := { idServer with catalog := ⟨[itemRow], [(1, 1)], []⟩ }

theorem item_applied : ∃ result, applyRound .basic shopSettings Faults.none (fun _ => some itemsRelation) idServer.catalog [itemAdded] = .ok result ∧
    result.catalog = itemServer.catalog := ⟨_, rfl, rfl⟩

theorem idSpec_tabled (oid : Nat) : (idSpec oid).Tabled := ⟨List.nodup_singleton _, fun aggregate => absurd aggregate Shape.noConfusion⟩

theorem idServer_recounts : ∃ past, idServer.Recounts .basic shopSettings (Server.Faithful .basic shopSettings 1) 1
    (idRow.built 10 false [] :: past) := by
  have begun : Server.Recounts .basic shopSettings (Server.Faithful .basic shopSettings 1) 1 ⟨⟨[], [], []⟩, [], idServer.names,
      [.create "public.v" "SELECT id FROM items" (idSpec 1) [1]], [], []⟩ [] :=
    .step (.start ⟨rfl, rfl, rfl, rfl, rfl⟩ List.not_mem_nil)
      (@Server.Step.createBegan .basic shopSettings ⟨⟨[], [], []⟩, [], idServer.names, [], [], []⟩ (idSession 1) "v" "SELECT id FROM items" _ rfl
        fun _ _ other member => absurd member List.not_mem_nil) trivial
  have created : Server.Recounts .basic shopSettings (Server.Faithful .basic shopSettings 1) 1 ⟨⟨[idRow], [(1, 1)], []⟩, [1], idServer.names, [], [], [1]⟩ [idRow] :=
    .step begun (.committed (.refl _) List.not_mem_nil rfl) trivial
  have loaded : Server.Recounts .basic shopSettings (Server.Faithful .basic shopSettings 1) 1 ⟨⟨[idRow], [(1, 1)], []⟩, [1], idServer.names, [], [[idRow.pending]], [1]⟩ [idRow, idRow] := by
    have groups : group (Catalog.loadPending ⟨[idRow], [(1, 1)], []⟩) = [[idRow.pending]] := by
      rw [Catalog.loadPending_single rfl]
      rfl
    rw [← groups]
    exact .step created (.loaded rfl) trivial
  have populated : Catalog.populate (idSight 1) 10 none [idRow.pending] ⟨[idRow], [(1, 1)], []⟩ = idServer.catalog := rfl
  rw [show idServer = ⟨idServer.catalog, [1], idServer.names, [], [], [1]⟩ from rfl, ← populated]
  refine ⟨_, .step loaded (@Server.Step.built .basic shopSettings _ (idSight 1) 10 none _ _ rfl) ?_⟩
  intro view member _ spec planned
  obtain rfl := List.mem_singleton.mp member
  obtain rfl : idSpec 1 = spec := Except.ok.inj planned
  refine ⟨idSpec_tabled 1, fun r member => ?_, fun r member => ?_, fun _ => List.nodup_nil⟩
  · exact absurd (member : r ∈ []) List.not_mem_nil
  · exact absurd (member : r ∈ []) List.not_mem_nil

theorem item_faithful : idServer.Faithful .basic shopSettings 1 (.applied Faults.none (fun _ => some itemsRelation) [itemAdded]) := by
  intro v member _
  have planned : ∃ v, roundExecutions .basic shopSettings Faults.none (fun _ => some itemsRelation) idServer.catalog [itemAdded] = [v] ∧
      v.ops = [.row .plus itemJson] ∧ v.row.spec = idSpec 1 ∧ v.row.storage = [] := ⟨_, rfl, rfl, rfl, rfl⟩
  obtain ⟨v', only, ops, spec, storage⟩ := planned
  rw [only] at member
  obtain rfl := List.mem_singleton.mp member
  constructor
  · rw [ops, spec]
    intro op one
    obtain rfl := List.mem_singleton.mp one
    intro _ r read c key
    obtain rfl : [("id", Datum.text "a")] = r := Option.some.inj read
    obtain rfl := List.mem_singleton.mp key
    exact Datum.noConfusion
  · intro _ deltas _ d _
    rfl

theorem itemServer_recounts : ∃ past, itemServer.Recounts .basic shopSettings (Server.Faithful .basic shopSettings 1) 1
    (itemRow :: idRow.built 10 false [] :: past) := by
  obtain ⟨past, run⟩ := idServer_recounts
  obtain ⟨result, applied, catalog⟩ := item_applied
  have added := run.step (.applied rfl applied) item_faithful
  rw [catalog] at added
  exact ⟨past, added⟩

end Nabla
