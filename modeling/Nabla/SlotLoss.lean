import Nabla.ReadYourWrites
import Nabla.References

/-! The main slot dropped for lag and created again by `ensure_slot`. Both take effect at
once, the catalog changes when a transaction commits. -/
namespace Nabla
open Bags

variable {pf : Platform} {settings : Settings} {stream : List SourceTransaction}

/-- The worker with the open transactions of sessions. `lagging`: the lag path has dropped
the slot and its transaction is open. -/
structure Attended where
  running : Running
  calls : List Call
  lagging : Bool

inductive Happening where
  | flushed
  | ensured (start : Nat)
  | began
  | updated
  | committed
  | aborted
  | worked
  | built
  | lagged
  | marked
  | interrupted

/-- One step. `ensure_slot` comes before anything a call reads; a slot starts past what was
flushed when it was asked for. -/
inductive Attended.Step (pf : Platform) (settings : Settings) (stream : List SourceTransaction) : Attended → Happening → Attended → Prop where
  | flushed {a : Attended} {flush : Nat} (later : a.running.flush ≤ flush) :
      Step pf settings stream a .flushed { a with running := { a.running with flush := flush } }
  | ensured {a : Attended} {start flush : Nat} (missing : a.running.durable.slot = none) (past : a.running.flush ≤ start) (visible : start ≤ flush) :
      Step pf settings stream a (.ensured start) { a with running := { a.running with
        durable := { a.running.durable with slot := some start }
        flush := flush } }
  | createBegan {a : Attended} {session : Session} {publication : List Nat} {name definition : String} {call : Call}
      (present : a.running.durable.slot ≠ none)
      (read : createView session publication a.running.durable.catalog name definition = .ok call) :
      Step pf settings stream a .began { a with calls := call :: a.calls }
  | refreshBegan {a : Attended} {session : Session} {publication : List Nat} {view : ViewRow} {call : Call}
      (present : a.running.durable.slot ≠ none) (found : view ∈ a.running.views)
      (read : refresh session publication a.running.durable.catalog view = .ok call) :
      Step pf settings stream a .began { a with calls := call :: a.calls }
  | updated {a : Attended} {ids added : List Nat} {rest : List Call} (began : a.calls.Perm (.refresh ids added :: rest))
      (unlocked : ∀ id ∈ a.running.durable.catalog.refreshable ids, ∀ other ∈ a.calls, other.holds id = false) :
      Step pf settings stream a .updated { a with calls := .marked (a.running.durable.catalog.refreshable ids) added :: rest }
  | viewDropBegan {a : Attended} {names : Nat → String} {publication : List Nat} {id : Nat} :
      Step pf settings stream a .began { a with calls := dropView names publication a.running.durable.catalog id :: a.calls }
  | tableDropBegan {a : Attended} {names : Nat → String} {publication : List Nat} {relid : Nat} :
      Step pf settings stream a .began { a with calls := dropTable names publication a.running.durable.catalog relid :: a.calls }
  | committed {a : Attended} {call : Call} {names : Nat → String} {id flush : Nat} {publication publication' : List Nat} {c : Catalog}
      {rest : List Call} (began : a.calls.Perm (call :: rest)) (fresh : id ∉ a.running.views.map ViewRow.id)
      (writes : call.commit names id publication a.running.durable.catalog = some (publication', c)) (written : a.running.flush < flush) :
      Step pf settings stream a .committed { a with
        running := { a.running with
          durable := { a.running.durable with catalog := c }
          flush := flush
          ledger := fun id => if id ∈ a.running.views.map ViewRow.id then a.running.ledger id else ⟨0, []⟩ }
        calls := rest }
  | aborted {a : Attended} {call : Call} {rest : List Call} (began : a.calls.Perm (call :: rest)) :
      Step pf settings stream a .aborted { a with calls := rest }
  | worked {a : Attended} {s : Running} (free : a.lagging = false) (elsewhere : ∀ base built, a.running.phase ≠ .building base built)
      (step : Running.Step pf settings stream a.running s) : Step pf settings stream a .worked { a with running := s }
  | built {a : Attended} {base point flush : Nat} {built : Bool} {sight : Sight} {group : List Pending}
      (phase : a.running.phase = .building base built) (distinct : (group.map Pending.id).Nodup) (after : base ≤ point)
      (visible : point ≤ flush) (written : a.running.flush < flush) :
      Step pf settings stream a .built { a with running := { a.running with
        durable := { a.running.durable with catalog := a.running.durable.catalog.populate sight point a.running.durable.slot group }
        flush := flush
        phase := .building flush true
        ledger := builtLedger a.running.ledger point group (a.running.durable.catalog.populate sight point a.running.durable.slot group) } }
  | allBuilt {a : Attended} {base : Nat} (phase : a.running.phase = .building base true) :
      Step pf settings stream a .worked { a with running := { a.running with phase := .ready } }
  | lagged {a : Attended} {confirmed current : Nat} (free : a.lagging = false) (phase : a.running.phase = .ready)
      (slot : a.running.durable.slot = some confirmed) (written : a.running.flush ≤ current)
      (exceeds : settings.maxSlotLagBytes < (current : Int) - confirmed) :
      Step pf settings stream a .lagged { a with
        running := { a.running with durable := { a.running.durable with slot := none } }
        lagging := true }
  | marked {a : Attended} {flush : Nat} (lagging : a.lagging = true) (later : a.running.flush ≤ flush)
      (written : a.running.durable.catalog.markLagged.views ≠ a.running.views → a.running.flush < flush) :
      Step pf settings stream a .marked { a with
        running := { a.running with
          durable := { a.running.durable with catalog := a.running.durable.catalog.markLagged }
          flush := flush
          phase := .idle }
        lagging := false }
  | failed {a : Attended} : Step pf settings stream a .interrupted { a with running := { a.running with phase := .idle }, lagging := false }
  | restarted {a : Attended} : Step pf settings stream a .interrupted { a with
      running := { a.running with phase := .idle, selfFlush := 0, lastAdvance := 0 }
      lagging := false }

/-- The states of the runs all of whose steps meet a condition. -/
inductive Attended.Reachable (pf : Platform) (settings : Settings) (stream : List SourceTransaction) (guard : Attended → Happening → Prop) :
    Attended → Prop where
  | start {a : Attended} (starts : a.running.Starts) (calls : a.calls = []) (free : a.lagging = false) : Reachable pf settings stream guard a
  | step {a a' : Attended} {e : Happening} (reached : Reachable pf settings stream guard a) (step : Step pf settings stream a e a')
      (meets : guard a e) : Reachable pf settings stream guard a'

def Running.NoneLive (s : Running) : Prop := ∀ row ∈ s.views, row.status ≠ .live

/-- The lag path commits once it has dropped the slot, no slot is created before it has,
and views are populated while there is a slot. -/
def Attended.Manned (a : Attended) : Happening → Prop
  | .ensured _ => a.lagging = true → a.running.NoneLive
  | .interrupted => a.lagging = true → a.running.NoneLive
  | .built => a.running.durable.slot ≠ none
  | _ => True

theorem SessionRow.of_mem {views : List ViewRow} {row : ViewRow} (member : row ∈ views) : SessionRow views row :=
  .inl ⟨row, member, rfl, rfl, .inl rfl⟩

theorem Catalog.dropTable_ids {c : Catalog} {relid : Nat} (ids : Keyed ViewRow.id c.views) : Keyed ViewRow.id (c.dropTable relid).views :=
  Catalog.foldl_forgetView_ids ids

theorem Call.commit_session {call : Call} {names : Nat → String} {id : Nat} {publication publication' : List Nat} {c c' : Catalog}
    (ids : Keyed ViewRow.id c.views) (fresh : id ∉ c.views.map ViewRow.id)
    (writes : call.commit names id publication c = some (publication', c')) :
    Keyed ViewRow.id c'.views ∧ ∀ row' ∈ c'.views, SessionRow c.views row' := by
  cases call with
  | create name definition spec added =>
      rw [Call.commit] at writes
      split at writes
      · cases writes
      · cases writes
        constructor
        · exact ids.concat fresh
        · intro row' member
          rw [Catalog.insertView, List.mem_append, List.mem_singleton] at member
          rcases member with before | rfl
          · exact .of_mem before
          · exact .inr ⟨fresh, rfl, rfl⟩
  | refresh _ _ => cases writes
  | marked asked added =>
      rw [Call.commit] at writes
      split at writes
      · cases writes
      · cases writes
        have rows := c.markRefreshing_views asked
        constructor
        · rw [Keyed, map_eq_of_forall₂ rows]
          · exact ids
          · rintro row row' (rfl | ⟨_, rfl⟩) <;> rfl
        · intro row' member
          obtain ⟨row, before, rfl | ⟨_, rfl⟩⟩ := mem_of_forall₂_right rows member
          · exact .of_mem before
          · exact .inl ⟨row, before, rfl, rfl, .inr rfl⟩
  | dropView dropped pruned =>
      cases writes
      constructor
      · rw [Catalog.forgetView_views]
        exact ids.filter _
      · exact fun row' member => .of_mem (Catalog.mem_forgetView.mp member).1
  | dropTable relid pruned =>
      cases writes
      exact ⟨Catalog.dropTable_ids ids, fun row' member => .of_mem (Catalog.mem_dropTable.mp member).1⟩
  | dropShadow relid pruned =>
      cases writes
      exact ⟨ids, fun row' member => .of_mem member⟩

def Phase.Slotless : Phase → Prop
  | .idle | .building _ _ | .ready => True
  | _ => False

theorem Running.NoneLive.session {s s' : Running} (none : s.NoneLive) (rows : ∀ row' ∈ s'.views, SessionRow s.views row') : s'.NoneLive := by
  intro row' member live
  rcases rows row' member with ⟨row, before, _, _, same | refreshed⟩ | ⟨_, created, _⟩
  · exact none row before (same.symm.trans live)
  · exact absurd (refreshed.symm.trans live) Status.noConfusion
  · exact absurd (created.symm.trans live) Status.noConfusion

/-- Without a slot the worker gets no further than a ready round, and only a population
makes a view live. -/
theorem Running.Step.slotless {s s' : Running} (step : Step pf settings stream s s') (elsewhere : ∀ base built, s.phase ≠ .building base built)
    (missing : s.durable.slot = none) (slotless : s.phase.Slotless) (none : s.NoneLive) : s'.phase.Slotless ∧ s'.NoneLive := by
  cases step with
  | flushed => exact ⟨slotless, none⟩
  | session _ _ rows => exact ⟨slotless, none.session rows⟩
  | failed => exact ⟨trivial, none⟩
  | restarted => exact ⟨trivial, none⟩
  | nonePending => exact ⟨trivial, none⟩
  | somePending => exact ⟨trivial, none⟩
  | build phase => exact absurd phase (elsewhere _ _)
  | allBuilt phase => exact absurd phase (elsewhere _ _)
  | peek _ slot => exact absurd (missing.symm.trans slot) (Option.some_ne_none _).symm
  | publish phase => rw [phase] at slotless; exact slotless.elim
  | nothing phase => rw [phase] at slotless; exact slotless.elim
  | apply phase => rw [phase] at slotless; exact slotless.elim
  | slotted phase => rw [phase] at slotless; exact slotless.elim
  | moved phase => rw [phase] at slotless; exact slotless.elim
  | advance phase => rw [phase] at slotless; exact slotless.elim
  | selfFlush phase => rw [phase] at slotless; exact slotless.elim

/-- The worker's own steps but the lag path neither drop nor create the slot. -/
theorem Running.Step.slot {s s' : Running} (step : Step pf settings stream s s') : s'.durable.slot = none ↔ s.durable.slot = none := by
  have moves (d : Durable) (lsn : Nat) : (d.advanceSlot lsn).slot = none ↔ d.slot = none := by
    rw [Durable.advanceSlot, Option.map_eq_none_iff]
  cases step with
  | slotted => exact moves _ _
  | moved => exact moves _ _
  | _ => exact Iff.rfl

theorem Running.Sound.dropped {s : Running} (sound : s.Sound stream) :
    Running.Sound stream { s with durable := { s.durable with slot := none } } := by
  refine ⟨sound.ids, fun row member => ?_, fun confirmed slot => ?_, sound.window, sound.current, sound.selfFlush, sound.memory⟩
  · have ok := sound.rows row member
    exact ⟨ok.flushed, ok.resting, ok.since, ok.ends⟩
  · cases slot

/-- No live view has missed what a new slot will not decode, when there is none. -/
theorem Running.Sound.created {s : Running} (sound : s.Sound stream) (none : s.NoneLive) {start : Nat} (visible : start ≤ s.flush) :
    Running.Sound stream { s with durable := { s.durable with slot := some start } } := by
  refine ⟨sound.ids, fun row member => ?_, fun confirmed slot => ?_, sound.window, sound.current, sound.selfFlush, sound.memory⟩
  · have ok := sound.rows row member
    exact ⟨ok.flushed, ok.resting, ok.since, ok.ends⟩
  · obtain rfl := Option.some.inj slot
    exact ⟨visible, fun row member live => absurd live (none row member)⟩

/-- Where the worker stands before it has read the slot, its position does not matter. -/
theorem Running.AtPhase.slotless {s : Running} (at_ : s.AtPhase stream) (slotless : s.phase.Slotless) (slot : Option Nat) :
    Running.AtPhase stream { s with durable := { s.durable with slot := slot } } := by
  unfold Running.AtPhase at at_ ⊢
  cases stands : s.phase with
  | idle => trivial
  | building base built =>
      rw [stands] at at_
      exact at_
  | ready =>
      rw [stands] at at_
      exact at_
  | _ =>
      rw [stands] at slotless
      exact slotless.elim

theorem Running.Sound.marked {s : Running} (sound : s.Sound stream) {flush : Nat} (later : s.flush ≤ flush)
    (written : s.durable.catalog.markLagged.views ≠ s.views → s.flush < flush) :
    Running.Sound stream { s with
      durable := { s.durable with catalog := s.durable.catalog.markLagged }
      flush := flush
      phase := .idle } := by
  have rows := s.durable.catalog.markLagged_views
  have noneLive := s.durable.catalog.markLagged_noneLive
  refine ⟨?_, fun row' member => ?_, fun confirmed slot => ?_, fun w some => ?_, sound.current, sound.selfFlush.trans later, fun positive same => ?_⟩
  · show Keyed ViewRow.id s.durable.catalog.markLagged.views
    rw [Keyed, map_eq_of_forall₂ rows fun _ _ row => row.1]
    exact sound.ids
  · obtain ⟨row, before, id, frontier, moved⟩ := mem_of_forall₂_right rows member
    have ok := sound.rows row before
    refine ⟨frontier ▸ ok.flushed.trans later, fun resting => ?_, ?_, ?_⟩
    · rcases moved with ⟨rfl, _⟩ | ⟨live, stale⟩
      · exact (ok.resting resting).trans_le later
      · -- it was live, so the commit has written
        have changed : s.durable.catalog.markLagged.views ≠ s.views := by
          intro same
          exact noneLive row (same ▸ before) live
        exact frontier ▸ ok.flushed.trans_lt (written changed)
    · rw [id, frontier]
      exact ok.since
    · rw [id, frontier]
      exact ok.ends
  · exact ⟨(sound.slot confirmed slot).1.trans later, fun row member live => absurd live (noneLive row member)⟩
  · refine ⟨(sound.window w some).1.trans later, fun positive => ?_⟩
    rcases (sound.window w some).2 positive with silent | apart
    · exact .inl silent
    · refine .inr fun row' member => ?_
      obtain ⟨row, before, _, frontier, moved⟩ := mem_of_forall₂_right rows member
      rcases apart row before with past | ⟨other, low⟩
      · exact .inl (frontier ▸ past)
      · rcases moved with ⟨rfl, _⟩ | ⟨live, _⟩
        · exact .inr ⟨other, low⟩
        · exact absurd live other
  · have still : s.flush = s.selfFlush := le_antisymm (later.trans (le_of_eq same)) sound.selfFlush
    have unwritten : s.durable.catalog.markLagged.views = s.views := by
      by_contra changed
      exact absurd (same.trans still.symm) (written changed).ne'
    show Within s.durable.catalog.markLagged.views s.lastAdvance
    rw [unwritten]
    exact sound.memory positive still

structure Attended.Held (stream : List SourceTransaction) (a : Attended) : Prop where
  sound : a.running.Sound stream
  at_ : a.running.AtPhase stream
  slotless : a.running.durable.slot = none → a.running.phase.Slotless
  manned : a.running.durable.slot = none → a.lagging = false → a.running.NoneLive
  lagging : a.lagging = true → a.running.phase = .ready

theorem Attended.Held.starts {a : Attended} (starts : a.running.Starts) (free : a.lagging = false) : a.Held stream where
  sound := starts.settled
  at_ := starts.atPhase
  slotless := fun _ => starts.phase ▸ trivial
  manned := fun _ _ _ member => absurd (starts.views ▸ member) List.not_mem_nil
  lagging := fun lost => absurd (free.symm.trans lost) Bool.false_ne_true

section Step

variable {a a' : Attended} (held : a.Held stream)
include held

theorem Attended.Held.worked (ordered : stream.Pairwise fun t u => t.endLsn < u.endLsn) {s : Running} (free : a.lagging = false)
    (elsewhere : ∀ base built, a.running.phase ≠ .building base built) (step : Running.Step pf settings stream a.running s) :
    Attended.Held stream { a with running := s } := by
  obtain ⟨sound, at_⟩ := step.keeps ordered held.sound held.at_
  refine ⟨sound, at_, fun missing => ?_, fun missing _ => ?_, fun lost => absurd (free.symm.trans lost) Bool.false_ne_true⟩
  · exact (step.slotless elsewhere (step.slot.mp missing) (held.slotless (step.slot.mp missing)) (held.manned (step.slot.mp missing) free)).1
  · exact (step.slotless elsewhere (step.slot.mp missing) (held.slotless (step.slot.mp missing)) (held.manned (step.slot.mp missing) free)).2

theorem Attended.Held.step (ordered : stream.Pairwise fun t u => t.endLsn < u.endLsn) {e : Happening}
    (step : Attended.Step pf settings stream a e a') (meets : a.Manned e) : a'.Held stream := by
  have building : ∀ {base built}, a.running.phase = .building base built → a.lagging = true → False := by
    intro base built phase lost
    rw [held.lagging lost] at phase
    cases phase
  cases step with
  | flushed later =>
      obtain ⟨sound, at_⟩ := held.sound.flushed held.at_ later rfl
      exact ⟨sound, at_, held.slotless, held.manned, held.lagging⟩
  | @ensured start flush missing past visible =>
      have none : a.running.NoneLive := by
        cases lost : a.lagging with
        | false => exact held.manned missing lost
        | true => exact meets lost
      obtain ⟨sound, at_⟩ := held.sound.flushed held.at_ (past.trans visible) rfl
      exact ⟨sound.created none visible, at_.slotless (held.slotless missing) (some start), fun gone => absurd gone (Option.some_ne_none start),
        fun gone => absurd gone (Option.some_ne_none start), held.lagging⟩
  | createBegan | refreshBegan | updated | viewDropBegan | tableDropBegan | aborted =>
      exact ⟨held.sound, held.at_, held.slotless, held.manned, held.lagging⟩
  | committed began fresh writes written =>
      obtain ⟨ids, rows⟩ := Call.commit_session held.sound.ids fresh writes
      obtain ⟨sound, at_⟩ := Running.Sound.session written rows rfl held.sound held.at_ ids
      exact ⟨sound, at_, held.slotless, fun missing free => (held.manned missing free).session rows, held.lagging⟩
  | worked free elsewhere step => exact held.worked ordered free elsewhere step
  | @built base point flush built sight group phase distinct after visible written =>
      have moved := @Running.Step.build pf settings stream a.running base point flush built sight group phase distinct after visible written
      obtain ⟨sound, at_⟩ := moved.keeps ordered held.sound held.at_
      exact ⟨sound, at_, fun missing => absurd missing meets, fun missing => absurd missing meets, fun lost => (building phase lost).elim⟩
  | allBuilt phase =>
      have moved : Running.Step pf settings stream a.running _ := .allBuilt phase
      obtain ⟨sound, at_⟩ := moved.keeps ordered held.sound held.at_
      exact ⟨sound, at_, fun _ => trivial, held.manned, fun lost => (building phase lost).elim⟩
  | lagged free phase slot written exceeds =>
      have slotless : a.running.phase.Slotless := phase ▸ trivial
      exact ⟨held.sound.dropped, held.at_.slotless slotless none, fun _ => slotless, fun _ free => absurd free.symm Bool.false_ne_true,
        fun _ => phase⟩
  | marked lagging later written =>
      exact ⟨held.sound.marked later written, trivial, fun _ => trivial, fun _ _ => a.running.durable.catalog.markLagged_noneLive,
        fun lost => absurd lost Bool.false_ne_true⟩
  | failed =>
      refine ⟨held.sound.of_phase .idle, trivial, fun _ => trivial, fun missing _ => ?_, fun lost => absurd lost Bool.false_ne_true⟩
      cases lost : a.lagging with
      | false => exact held.manned missing lost
      | true => exact meets lost
  | restarted =>
      have moved : Running.Step pf settings stream a.running _ := .restarted
      obtain ⟨sound, at_⟩ := moved.keeps ordered held.sound held.at_
      refine ⟨sound, at_, fun _ => trivial, fun missing _ => ?_, fun lost => absurd lost Bool.false_ne_true⟩
      cases lost : a.lagging with
      | false => exact held.manned missing lost
      | true => exact meets lost

end Step

theorem Attended.Reachable.held (ordered : stream.Pairwise fun t u => t.endLsn < u.endLsn) {a : Attended}
    (reached : Attended.Reachable pf settings stream Attended.Manned a) : a.Held stream := by
  induction reached with
  | start starts _ free => exact .starts starts free
  | step _ step meets held => exact held.step ordered step meets

/-- A live view has absorbed what was published up to its frontier, and up to the slot, and
no slot is created while a view is live before its start. -/
theorem Attended.Reachable.no_hole (ordered : stream.Pairwise fun t u => t.endLsn < u.endLsn) {a : Attended}
    (reached : Attended.Reachable pf settings stream Attended.Manned a) :
    (∀ row ∈ a.running.views, row.status = .live →
      (∀ tx ∈ stream, tx.endLsn ≤ row.frontier → a.running.Has row.id tx) ∧
      ∀ confirmed, a.running.durable.slot = some confirmed → ∀ tx ∈ stream, tx.endLsn ≤ confirmed → a.running.Has row.id tx) ∧
    ∀ start a', Attended.Step pf settings stream a (.ensured start) a' → a.Manned (.ensured start) →
      ∀ row ∈ a'.running.views, row.status = .live → start ≤ row.frontier := by
  have held := reached.held ordered
  constructor
  · intro row member live
    have has : ∀ tx ∈ stream, tx.endLsn ≤ row.frontier → a.running.Has row.id tx := fun tx inStream low => held.sound.has member inStream low
    refine ⟨has, fun confirmed slot tx inStream low => has tx inStream ?_⟩
    exact (held.sound.slot confirmed slot).2 row member live tx.endLsn (List.mem_map_of_mem inStream) low
  · intro start a' step meets row member live
    cases step with
    | ensured missing =>
        have none : a.running.NoneLive := by
          cases lost : a.lagging with
          | false => exact held.manned missing lost
          | true => exact meets lost
        exact absurd live (none row member)

def lateStream : List SourceTransaction := [{ shopDecoded .null with endLsn := 9 }]

/-- A transaction before the slot is dropped for lag and one after it was created again. -/
def splitStream : List SourceTransaction := lateStream ++ [{ shopDecoded .null with endLsn := 2000030 }]

def shopUnattended : Attended := ⟨⟨⟨⟨[], [], []⟩, none⟩, 4, 0, 0, some ⟨0, 0⟩, .idle, [⟨0, 0⟩], fun _ => ⟨0, []⟩⟩, [], false⟩

def shopFirst : Catalog := joinCreated.populate (joinSight 0) 5 (some 4) [(joinRow 1 "public.a").pending]

def shopAttended : Attended where
  running := ⟨⟨shopFirst, some 4⟩, 6, 0, 0, some ⟨0, 0⟩, .ready, [⟨0, 0⟩],
    builtLedger (fun _ => ⟨0, []⟩) 5 [(joinRow 1 "public.a").pending] shopFirst⟩
  calls := []
  lagging := false

theorem shopAttended_reachable {guard : Attended → Happening → Prop} (meets : ∀ a e, a.Manned e → guard a e) :
    Attended.Reachable .basic shopSettings stream guard shopAttended := by
  have started : Attended.Reachable .basic shopSettings stream guard shopUnattended :=
    .start ⟨rfl, by rintro _ ⟨⟩, rfl, rfl, by rintro _ ⟨⟩; rfl, rfl, rfl⟩ rfl rfl
  have ensured := started.step (@Attended.Step.ensured _ _ _ shopUnattended 4 4 rfl (le_refl _) (le_refl _))
    (meets _ _ fun lost => absurd lost Bool.false_ne_true)
  have began := ensured.step (@Attended.Step.createBegan _ _ _ _ (joinSession "public.a") [] "a" "select" _ (Option.some_ne_none _) rfl)
    (meets _ _ trivial)
  have created := began.step (@Attended.Step.committed _ _ _ _ _ (fun _ => "") 1 5 [] _ _ [] (List.Perm.refl _) (by decide) rfl (by decide))
    (meets _ _ trivial)
  have pending := created.step (.worked rfl nofun (.somePending rfl fun none =>
    loadPending_nil none (joinRow 1 "public.a") List.mem_cons_self (.inl rfl))) (meets _ _ trivial)
  have built := pending.step (@Attended.Step.built _ _ _ _ 5 5 6 false (joinSight 0) [(joinRow 1 "public.a").pending] rfl
    (show [1].Nodup by decide) (by decide) (by decide) (by decide)) (meets _ _ (Option.some_ne_none _))
  have ready := built.step (.allBuilt rfl) (meets _ _ trivial)
  exact ready

/-- The view takes the first transaction from the slot, the slot is dropped and created again,
the view is refreshed and takes the second from the new slot. -/
theorem shopAttended_returns : ∃ a, Attended.Reachable .basic shopSettings splitStream Attended.Manned a ∧
    (a.running.views.map fun row => (row.id, row.status, row.frontier)) = [(1, .live, 2000030)] ∧ a.running.durable.slot = some 2000021 ∧
    a.running.ledger 1 = ⟨2000022, [2000030]⟩ := by
  have ready := @shopAttended_reachable splitStream Attended.Manned fun _ _ meets => meets
  have flushed := ready.step (@Attended.Step.flushed _ _ _ _ 10 (by decide)) trivial
  have reads : Peek.Reads splitStream 4 ⟨0, 10, lateStream, true, false⟩ := ⟨10, rfl, fun _ => le_refl _⟩
  have peeked := flushed.step (.worked rfl nofun (.peek rfl rfl (by decide) rfl reads (by decide) nofun)) trivial
  have applied := peeked.step (.worked rfl nofun (@Running.Step.apply _ _ _ _ _ _ 11 Faults.none (some ∘ shopRelation) _ _ rfl rfl rfl rfl
    (by decide) fun _ => by decide)) trivial
  have moved := (applied.step (.worked rfl nofun (.slotted rfl)) trivial).step (.worked rfl nofun (.moved rfl)) trivial
  have advanced := moved.step (.worked rfl nofun (@Running.Step.advance _ _ _ _ 10 12 rfl (by decide) fun _ => by decide)) trivial
  have idle := advanced.step (.worked rfl nofun (.selfFlush rfl)) trivial
  have next := idle.step (.worked rfl nofun (.nonePending rfl (loadPending_live rfl))) trivial
  -- the lag path and the slot after it
  have behind := next.step (@Attended.Step.flushed _ _ _ _ 2000020 (by decide)) trivial
  have dropped := behind.step (@Attended.Step.lagged _ _ _ _ 10 2000020 rfl rfl rfl (le_refl _) (by decide)) trivial
  have marked := dropped.step (@Attended.Step.marked _ _ _ _ 2000021 rfl (by decide) fun _ => by decide) trivial
  have ensured := marked.step (@Attended.Step.ensured _ _ _ _ 2000021 2000021 rfl (le_refl _) (le_refl _))
    fun lost => absurd lost Bool.false_ne_true
  -- the refresh and the rebuild
  have asked := ensured.step (@Attended.Step.refreshBegan _ _ _ _ (joinSession "public.a") [1, 2] _ _ (Option.some_ne_none _)
    List.mem_cons_self rfl) trivial
  have updated := asked.step (.updated (List.Perm.refl _) fun _ _ => List.forall_mem_singleton.mpr rfl) trivial
  have committed := updated.step (@Attended.Step.committed _ _ _ _ _ (fun _ => "") 2 2000022 [] _ _ [] (List.Perm.refl _) (by decide) rfl
    (by decide)) trivial
  have waiting := committed.step (.worked rfl nofun (.somePending rfl fun none => loadPending_nil none _ List.mem_cons_self (.inr rfl))) trivial
  have rebuilt := waiting.step (@Attended.Step.built _ _ _ _ 2000022 2000022 2000023 false (joinSight 0) [joinLate] rfl
    (show [1].Nodup by decide) (by decide) (by decide) (by decide)) (Option.some_ne_none _)
  have later := (rebuilt.step (.allBuilt rfl) trivial).step (@Attended.Step.flushed _ _ _ _ 2000030 (by decide)) trivial
  have reads' : Peek.Reads splitStream 2000021 ⟨0, 2000030, [{ shopDecoded .null with endLsn := 2000030 }], true, false⟩ :=
    ⟨2000030, rfl, fun _ => le_refl _⟩
  have peeked' := later.step (.worked rfl nofun (.peek rfl rfl (by decide) rfl reads' (by decide) nofun)) trivial
  have applied' := peeked'.step (.worked rfl nofun (@Running.Step.apply _ _ _ _ _ _ 2000031 Faults.none (some ∘ shopRelation) _ _ rfl rfl rfl rfl
    (by decide) fun _ => by decide)) trivial
  exact ⟨_, applied', rfl, rfl, rfl⟩

theorem shopAttended_no_hole : ∃ a row, Attended.Reachable .basic shopSettings splitStream Attended.Manned a ∧ row ∈ a.running.views ∧
    row.status = .live ∧ row.frontier = 2000030 ∧ a.running.durable.slot = some 2000021 ∧
    (∀ tx ∈ splitStream, tx.endLsn ≤ row.frontier → a.running.Has row.id tx) ∧
    ∀ tx ∈ splitStream, tx.endLsn ≤ 2000021 → a.running.Has row.id tx := by
  obtain ⟨a, reached, views, slot, _⟩ := shopAttended_returns
  obtain ⟨row, member, same⟩ := List.mem_map.mp (views ▸ List.mem_singleton_self (1, Status.live, 2000030))
  obtain ⟨_, live, frontier⟩ : row.id = 1 ∧ row.status = .live ∧ row.frontier = 2000030 := by
    simpa only [Prod.mk.injEq] using same
  obtain ⟨frontiers, slots⟩ := (Attended.Reachable.no_hole (show splitStream.Pairwise _ by decide) reached).1 row member live
  exact ⟨a, row, reached, member, live, frontier, slot, frontiers, slots 2000021 slot⟩

/-- The worker is killed between dropping the slot and marking the view: the next slot
starts past a transaction the view never absorbs. -/
theorem shopAttended_hole :
    (∃ a start a' row, Attended.Reachable .basic shopSettings lateStream (fun _ _ => True) a ∧
      Attended.Step .basic shopSettings lateStream a (.ensured start) a' ∧ row ∈ a'.running.views ∧ row.status = .live ∧ row.frontier < start) ∧
    ∃ a row, Attended.Reachable .basic shopSettings lateStream (fun _ _ => True) a ∧ row ∈ a.running.views ∧ row.status = .live ∧
      ∃ tx ∈ lateStream, tx.endLsn ≤ row.frontier ∧ ¬ a.running.Has row.id tx := by
  have reached := @shopAttended_reachable lateStream (fun _ _ => True) fun _ _ _ => trivial
  have behind := reached.step (@Attended.Step.flushed _ _ _ _ 2000000 (by decide)) trivial
  have dropped := behind.step (@Attended.Step.lagged _ _ _ _ 4 2000000 rfl rfl rfl (le_refl 2000000) (by decide)) trivial
  have killed := dropped.step .restarted trivial
  refine ⟨⟨_, 2000000, _, _, killed, .ensured rfl (le_refl 2000000) (le_refl 2000000), List.mem_cons_self, rfl, by decide⟩, ?_⟩
  have again := killed.step (.ensured rfl (le_refl 2000000) (le_refl 2000000)) trivial
  have ready := again.step (.worked rfl nofun (.nonePending rfl (loadPending_live rfl))) trivial
  have reads : Peek.Reads lateStream 2000000 ⟨0, 2000000, [], true, false⟩ := ⟨2000000, rfl, fun _ => le_refl _⟩
  have peeked := ready.step (.worked rfl nofun (.peek rfl rfl (by decide) rfl reads (fun _ member => absurd member List.not_mem_nil) nofun)) trivial
  have moved := (peeked.step (.worked rfl nofun (.nothing rfl rfl rfl rfl)) trivial).step (.worked rfl nofun (.moved rfl)) trivial
  have advanced := moved.step (.worked rfl nofun (@Running.Step.advance _ _ _ _ 2000000 2000001 rfl (by decide) fun _ => by decide)) trivial
  refine ⟨_, _, advanced, List.mem_cons_self, rfl, _, List.mem_cons_self, by decide, ?_⟩
  show ¬ (9 ≤ (shopAttended.running.ledger 1).since ∨ 9 ∈ (shopAttended.running.ledger 1).ends)
  decide

end Nabla
