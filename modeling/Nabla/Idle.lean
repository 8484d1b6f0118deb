import Nabla.Changes
import Nabla.Delivery

/-! The idle window of `idle.rs`, the polls of `nabla.wait_for`, and the steps of the
worker's loop between which other sessions commit. -/
namespace Nabla
open Bags

/-- A range of the WAL in which the worker found no published change. -/
structure IdleWindow where
  fromLsn : Nat
  toLsn : Nat

/-- `effective_frontier`; there is no window without the shared segment. -/
def effectiveFrontier (window : Option IdleWindow) (frontier : Nat) : Nat :=
  match window with
  | none => frontier
  | some w => if w.fromLsn ≠ 0 ∧ w.fromLsn ≤ frontier ∧ frontier < w.toLsn then w.toLsn else frontier

def publish (window : Option IdleWindow) (fromLsn toLsn : Nat) : Option IdleWindow :=
  window.map fun _ => ⟨fromLsn, toLsn⟩

/-- One turn of `wait_for_frontier`: the view's row as it was read, the window as it was
read after it. -/
def waitForFrontier (row : ViewRow) (window : Option IdleWindow) (target : Nat) : Except ApiError Bool :=
  match row.status with
  | .stale => .error (errStale row.name row.staleReason)
  | .failed => .error (errFailed row.name row.lastError)
  | _ => .ok (decide (target ≤ effectiveFrontier window row.frontier))

/-- Where the worker stands in `run_round`. -/
inductive Phase where
  | idle
  /-- In `run_pending`, no slot of a group created before `base` was flushed. -/
  | building (base : Nat) (built : Bool)
  | ready
  | peeked (peek : Peek)
  /-- The round is committed; the slot moves next, then the frontiers when the peek was drained. -/
  | slotting (moved : Nat) (next : Option Nat)
  | drained (frontier : Nat)
  | moving (frontier : Nat)
  /-- The idle advance is committed, `self_flush` is read next. -/
  | advanced (frontier : Nat)

/-- The worker with its memory, the shared window, the flush position, and for the proofs
every window that was shared and what each view absorbed. -/
structure Running where
  durable : Durable
  flush : Nat
  selfFlush : Nat
  lastAdvance : Nat
  window : Option IdleWindow
  phase : Phase
  published : List IdleWindow
  ledger : Nat → Absorption

def Running.views (s : Running) : List ViewRow := s.durable.catalog.views

/-- What other sessions do to a view: refresh it, or create it. -/
def SessionRow (views : List ViewRow) (row' : ViewRow) : Prop :=
  (∃ row ∈ views, row.id = row'.id ∧ row.frontier = row'.frontier ∧ (row'.status = row.status ∨ row'.status = .refreshing)) ∨
  (row'.id ∉ views.map ViewRow.id ∧ row'.status = .initializing ∧ row'.frontier = 0)

/-- What a group that was built leaves of its views: populated at `point`. -/
def builtLedger (ledger : Nat → Absorption) (point : Nat) (group : List Pending) (c : Catalog) (id : Nat) : Absorption :=
  if (group.any fun view => view.id = id) && c.views.any (fun row => row.id = id && row.status = .live) then ⟨point, []⟩
  else ledger id

/-- A step of the worker or of another session. A transaction is committed when the flush
position has reached its end; a commit that wrote to the views moves the flush position. -/
inductive Running.Step (pf : Platform) (settings : Settings) (stream : List SourceTransaction) : Running → Running → Prop where
  | flushed {s : Running} {flush : Nat} (later : s.flush ≤ flush) : Step pf settings stream s { s with flush := flush }
  | session {s : Running} {c : Catalog} {flush : Nat} (written : s.flush < flush) (ids : Keyed ViewRow.id c.views)
      (rows : ∀ row' ∈ c.views, SessionRow s.views row') :
      Step pf settings stream s { s with
        durable := { s.durable with catalog := c }
        flush := flush
        ledger := fun id => if id ∈ s.views.map ViewRow.id then s.ledger id else ⟨0, []⟩ }
  | failed {s : Running} : Step pf settings stream s { s with phase := .idle }
  | restarted {s : Running} : Step pf settings stream s { s with phase := .idle, selfFlush := 0, lastAdvance := 0 }
  | nonePending {s : Running} (phase : s.phase = .idle) (none : s.durable.catalog.loadPending = []) :
      Step pf settings stream s { s with phase := .ready }
  | somePending {s : Running} (phase : s.phase = .idle) (some : s.durable.catalog.loadPending ≠ []) :
      Step pf settings stream s { s with phase := .building s.flush false }
  | build {s : Running} {base point flush : Nat} {built : Bool} {sight : Sight} {group : List Pending}
      (phase : s.phase = .building base built) (distinct : (group.map Pending.id).Nodup) (after : base ≤ point)
      (visible : point ≤ flush) (written : s.flush < flush) :
      Step pf settings stream s { s with
        durable := { s.durable with catalog := s.durable.catalog.populate sight point s.durable.slot group }
        flush := flush
        phase := .building flush true
        ledger := builtLedger s.ledger point group (s.durable.catalog.populate sight point s.durable.slot group) }
  | allBuilt {s : Running} {base : Nat} (phase : s.phase = .building base true) : Step pf settings stream s { s with phase := .ready }
  | peek {s : Running} {confirmed : Nat} {peek : Peek} (phase : s.phase = .ready) (slot : s.durable.slot = some confirmed)
      (lag : peek.lag ≤ settings.maxSlotLagBytes) (target : peek.target = s.flush) (reads : peek.Reads stream confirmed)
      (committed : ∀ tx ∈ peek.transactions, tx.endLsn ≤ s.flush)
      (quiet : peek.quiet = true → peek.transactions = [] ∧ peek.drained = true ∧ peek.target = s.selfFlush) :
      Step pf settings stream s { s with phase := .peeked peek }
  | publish {s : Running} {peek : Peek} (phase : s.phase = .peeked peek) (quiet : peek.quiet = true) :
      Step pf settings stream s { s with
        phase := .idle
        window := if s.lastAdvance > 0 then publish s.window s.lastAdvance peek.target else s.window
        published := if s.lastAdvance > 0 then ⟨s.lastAdvance, peek.target⟩ :: s.published else s.published }
  | nothing {s : Running} {peek : Peek} {confirmed : Nat} (phase : s.phase = .peeked peek) (slot : s.durable.slot = some confirmed)
      (loud : peek.quiet = false) (none : peek.transactions = []) :
      Step pf settings stream s { s with phase := if peek.drained then .drained (max peek.target confirmed) else .idle }
  | apply {s : Running} {peek : Peek} {confirmed flush : Nat} {faults : Faults} {cache : Nat → Option Relation}
      {last : SourceTransaction} {result : RoundResult} (phase : s.phase = .peeked peek) (slot : s.durable.slot = some confirmed)
      (final : peek.transactions.getLast? = some last)
      (applied : applyRound pf settings faults cache s.durable.catalog peek.transactions = .ok result)
      (later : s.flush ≤ flush) (written : result.catalog.views ≠ s.views → s.flush < flush) :
      Step pf settings stream s { s with
        durable := { s.durable with catalog := result.catalog }
        flush := flush
        phase :=
          match result.blockedAt with
          | some 0 => .idle
          | some (k + 1) => (peek.transactions[k]?).elim .idle fun tx => .slotting tx.endLsn none
          | none =>
            let lastEnd := max confirmed last.endLsn
            .slotting lastEnd (if peek.drained then some (max peek.target lastEnd) else none)
        ledger := fun id => ⟨(s.ledger id).since, (s.ledger id).ends ++ result.absorbed id⟩ }
  | slotted {s : Running} {moved : Nat} {next : Option Nat} (phase : s.phase = .slotting moved next) :
      Step pf settings stream s { s with durable := s.durable.advanceSlot moved, phase := next.elim .idle .drained }
  | moved {s : Running} {frontier : Nat} (phase : s.phase = .drained frontier) :
      Step pf settings stream s { s with durable := s.durable.advanceSlot frontier, phase := .moving frontier }
  | advance {s : Running} {frontier flush : Nat} (phase : s.phase = .moving frontier) (later : s.flush ≤ flush)
      (written : (s.durable.catalog.idleAdvance frontier).views ≠ s.views → s.flush < flush) :
      Step pf settings stream s { s with
        durable := { s.durable with catalog := s.durable.catalog.idleAdvance frontier }
        flush := flush
        phase := .advanced frontier }
  | selfFlush {s : Running} {frontier : Nat} (phase : s.phase = .advanced frontier) :
      Step pf settings stream s { s with
        selfFlush := s.flush
        lastAdvance := frontier
        window := publish s.window frontier frontier
        published := ⟨frontier, frontier⟩ :: s.published
        phase := .idle }

/-- A new installation: no views, a slot, a window that was never shared. -/
structure Running.Starts (s : Running) : Prop where
  views : s.views = []
  slot : ∀ confirmed, s.durable.slot = some confirmed → confirmed ≤ s.flush
  selfFlush : s.selfFlush = 0
  lastAdvance : s.lastAdvance = 0
  window : ∀ w, s.window = some w → w = ⟨0, 0⟩
  phase : s.phase = .idle
  published : s.published = [⟨0, 0⟩]

inductive Running.Reachable (pf : Platform) (settings : Settings) (stream : List SourceTransaction) : Running → Prop where
  | start {s : Running} (starts : s.Starts) : Reachable pf settings stream s
  | step {s s' : Running} (reached : Reachable pf settings stream s) (step : Step pf settings stream s s') :
      Reachable pf settings stream s'

inductive Running.Later (pf : Platform) (settings : Settings) (stream : List SourceTransaction) (s : Running) : Running → Prop where
  | refl : Later pf settings stream s s
  | step {s₁ s₂ : Running} (later : Later pf settings stream s s₁) (step : Step pf settings stream s₁ s₂) : Later pf settings stream s s₂

/-- From one moment to a later one, while a view is there all along. -/
inductive Running.While (pf : Platform) (settings : Settings) (stream : List SourceTransaction) (id : Nat) (s : Running) :
    Running → Prop where
  | refl : While pf settings stream id s s
  | step {s₁ s₂ : Running} (later : While pf settings stream id s s₁) (step : Step pf settings stream s₁ s₂)
      (there : id ∈ s₂.views.map ViewRow.id) : While pf settings stream id s s₂

end Nabla
