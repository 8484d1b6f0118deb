import Nabla.Building
import Nabla.Idle

/-! `nabla.wait_for`: what a frontier read at one moment and the idle window read at
another say about the transactions a view reflects. -/
namespace Nabla
open Bags

variable {pf : Platform} {settings : Settings} {stream : List SourceTransaction}

def Silent (stream : List SourceTransaction) (lo hi : Nat) : Prop := ∀ tx ∈ stream, lo < tx.endLsn → hi < tx.endLsn

/-- No frontier of the views can be taken over the range by mistake: nothing was published
in it, or every view is past it, or before it and not live. -/
def Sealed (stream : List SourceTransaction) (views : List ViewRow) (lo hi : Nat) : Prop :=
  Silent stream lo hi ∨ ∀ row ∈ views, hi ≤ row.frontier ∨ row.status ≠ .live ∧ row.frontier < lo

theorem effectiveFrontier_cases (window : Option IdleWindow) (frontier : Nat) :
    effectiveFrontier window frontier = frontier ∨ ∃ w, window = some w ∧ w.fromLsn ≠ 0 ∧ w.fromLsn ≤ frontier ∧
      frontier < w.toLsn ∧ effectiveFrontier window frontier = w.toLsn := by
  unfold effectiveFrontier
  cases window with
  | none => exact .inl rfl
  | some w =>
      by_cases within : w.fromLsn ≠ 0 ∧ w.fromLsn ≤ frontier ∧ frontier < w.toLsn
      · exact .inr ⟨w, rfl, within.1, within.2.1, within.2.2, if_pos within⟩
      · exact .inl (if_neg within)

/-- Nothing the view owes was published between its frontier and what the window makes of it. -/
def Reflects (stream : List SourceTransaction) (window : Option IdleWindow) (frontier : Nat) : Prop :=
  ∀ tx ∈ stream, frontier < tx.endLsn → effectiveFrontier window frontier < tx.endLsn

theorem Reflects.of_window {window : Option IdleWindow} {frontier : Nat}
    (silent : ∀ w, window = some w → w.fromLsn ≠ 0 → w.fromLsn ≤ frontier → frontier < w.toLsn → Silent stream w.fromLsn w.toLsn) :
    Reflects stream window frontier := by
  intro tx inStream above
  rcases effectiveFrontier_cases window frontier with same | ⟨w, some, nonzero, reached, short, moved⟩
  · rwa [same]
  · rw [moved]
    exact silent w some nonzero reached short tx inStream (reached.trans_lt above)

/-- A view that waits for `run_pending`. -/
def ViewRow.Waits (row : ViewRow) : Prop := row.status = .initializing ∨ row.status = .refreshing

def ViewRow.Resting (row : ViewRow) : Prop := row.status = .stale ∨ row.status = .failed

/-- No view is past `hi`, and a resting one is before it. -/
def Within (views : List ViewRow) (hi : Nat) : Prop :=
  ∀ row ∈ views, row.frontier ≤ hi ∧ (row.Resting → row.frontier < hi)

/-- Live views have absorbed what ends at or below `hi`. -/
def Absorbed (stream : List SourceTransaction) (views : List ViewRow) (hi : Nat) : Prop :=
  ∀ row ∈ views, row.status = .live → ∀ x ∈ stream.map SourceTransaction.endLsn, x ≤ hi → x ≤ row.frontier

structure Running.Reaching (stream : List SourceTransaction) (s : Running) (hi : Nat) : Prop where
  flushed : hi ≤ s.flush
  window : ∀ w ∈ s.published, w.toLsn ≤ hi
  within : Within s.views hi
  absorbed : Absorbed stream s.views hi

def Running.AtPhase (stream : List SourceTransaction) (s : Running) : Prop :=
  match s.phase with
  | .idle => True
  | .building base built => base ≤ s.flush ∧ (∀ w ∈ s.published, w.toLsn ≤ base) ∧
      (∀ row ∈ s.views, row.frontier ≤ base) ∧ (built = true → s.selfFlush < s.flush)
  | .ready => s.flush = s.selfFlush → ∀ row ∈ s.views, ¬ row.Waits
  | .peeked peek => peek.target ≤ s.flush ∧ (∀ w ∈ s.published, w.toLsn ≤ peek.target) ∧ Within s.views peek.target ∧
      (∀ tx ∈ peek.transactions, tx.endLsn ≤ s.flush) ∧ (∀ confirmed, s.durable.slot = some confirmed → peek.Reads stream confirmed) ∧
      (peek.quiet = true → s.lastAdvance ≠ 0 → Silent stream s.lastAdvance peek.target ∨
        ∀ row ∈ s.views, row.status ≠ .live ∧ row.frontier < s.lastAdvance)
  | .slotting moved next => moved ≤ s.flush ∧ Absorbed stream s.views moved ∧ ∀ hi, next = some hi → s.Reaching stream hi
  | .drained hi => s.Reaching stream hi
  | .moving hi => s.Reaching stream hi
  | .advanced hi => s.Reaching stream hi

structure Running.RowOk (stream : List SourceTransaction) (s : Running) (row : ViewRow) : Prop where
  flushed : row.frontier ≤ s.flush
  resting : row.Resting → row.frontier < s.flush
  since : (s.ledger row.id).since ≤ row.frontier
  ends : (s.ledger row.id).ends = Bags.window (stream.map SourceTransaction.endLsn) (s.ledger row.id).since row.frontier

structure Running.Sound (stream : List SourceTransaction) (s : Running) : Prop where
  ids : Keyed ViewRow.id s.views
  rows : ∀ row ∈ s.views, s.RowOk stream row
  slot : ∀ confirmed, s.durable.slot = some confirmed → confirmed ≤ s.flush ∧ Absorbed stream s.views confirmed
  window : ∀ w ∈ s.published, w.toLsn ≤ s.flush ∧ (w.fromLsn ≠ 0 → Sealed stream s.views w.fromLsn w.toLsn)
  current : ∀ w, s.window = some w → w ∈ s.published
  selfFlush : s.selfFlush ≤ s.flush
  memory : s.lastAdvance ≠ 0 → s.flush = s.selfFlush → Within s.views s.lastAdvance

section Session

variable {views views' : List ViewRow} (rows : ∀ row' ∈ views', SessionRow views row')
include rows

theorem Within.session {hi : Nat} (within : Within views hi) : Within views' hi := by
  intro row' member
  rcases rows row' member with ⟨row, inViews, _, frontier, status⟩ | ⟨_, status, frontier⟩
  · rw [← frontier]
    refine ⟨(within row inViews).1, fun resting => (within row inViews).2 ?_⟩
    rcases status with same | refreshed
    · rwa [ViewRow.Resting, same] at resting
    · rw [ViewRow.Resting, refreshed] at resting
      exact absurd resting (by decide)
  · rw [frontier]
    refine ⟨Nat.zero_le _, fun resting => ?_⟩
    rw [ViewRow.Resting, status] at resting
    exact absurd resting (by decide)

theorem Absorbed.session {hi : Nat} (absorbed : Absorbed stream views hi) : Absorbed stream views' hi := by
  intro row' member live x inEnds le
  rcases rows row' member with ⟨row, inViews, _, frontier, status⟩ | ⟨_, status, _⟩
  · rcases status with same | refreshed
    · rw [← frontier]
      exact absorbed row inViews (same ▸ live) x inEnds le
    · exact absurd (refreshed.symm.trans live) Status.noConfusion
  · exact absurd (status.symm.trans live) Status.noConfusion

theorem SessionRow.before {lo : Nat} (positive : lo ≠ 0) {row' : ViewRow} (member : row' ∈ views')
    (before : ∀ row ∈ views, row.id = row'.id → row.frontier = row'.frontier → row.status ≠ .live ∧ row.frontier < lo) :
    row'.status ≠ .live ∧ row'.frontier < lo := by
  rcases rows row' member with ⟨row, inViews, id, frontier, status⟩ | ⟨_, status, frontier⟩
  · obtain ⟨other, low⟩ := before row inViews id frontier
    refine ⟨fun live => ?_, frontier ▸ low⟩
    rcases status with same | refreshed
    · exact other (same ▸ live)
    · exact absurd (refreshed.symm.trans live) Status.noConfusion
  · rw [status, frontier]
    exact ⟨Status.noConfusion, Nat.pos_of_ne_zero positive⟩

theorem Sealed.session {lo hi : Nat} (positive : lo ≠ 0) (closed : Sealed stream views lo hi) : Sealed stream views' lo hi := by
  rcases closed with silent | apart
  · exact .inl silent
  · refine .inr fun row' member => ?_
    by_cases past : hi ≤ row'.frontier
    · exact .inl past
    · refine .inr (SessionRow.before rows positive member fun row inViews _ frontier => ?_)
      exact (apart row inViews).resolve_left (frontier ▸ past)

end Session

section SessionStep

variable {s s' : Running} {c : Catalog} {flush : Nat} (written : s.flush < flush) (rows : ∀ row' ∈ c.views, SessionRow s.views row')
  (eq : s' = { s with
    durable := { s.durable with catalog := c }
    flush := flush
    ledger := fun id => if id ∈ s.views.map ViewRow.id then s.ledger id else ⟨0, []⟩ })
include written rows eq

theorem Running.Reaching.session {hi : Nat} (reach : s.Reaching stream hi) : s'.Reaching stream hi := by
  subst eq
  exact ⟨reach.flushed.trans written.le, reach.window, reach.within.session rows, reach.absorbed.session rows⟩

theorem Running.RowOk.session (ok : ∀ row ∈ s.views, s.RowOk stream row) {row' : ViewRow} (member : row' ∈ c.views) : s'.RowOk stream row' := by
  subst eq
  rcases rows row' member with ⟨row, inViews, id, frontier, status⟩ | ⟨new, status, frontier⟩
  · have ok := ok row inViews
    have old : row'.id ∈ s.views.map ViewRow.id := id ▸ List.mem_map_of_mem inViews
    refine ⟨frontier ▸ ok.flushed.trans written.le, fun _ => frontier ▸ ok.flushed.trans_lt written, ?_, ?_⟩
    · simp only [if_pos old]
      rw [← id, ← frontier]
      exact ok.since
    · simp only [if_pos old]
      rw [← id, ← frontier]
      exact ok.ends
  · refine ⟨?_, fun _ => ?_, ?_, ?_⟩
    · rw [frontier]
      exact Nat.zero_le _
    · rw [frontier]
      exact (Nat.zero_le _).trans_lt written
    · simp only [if_neg new]
      exact Nat.zero_le _
    · simp only [if_neg new, frontier]
      exact (window_self _ _).symm

/-- Where the worker stands, whatever another session commits. -/
theorem Running.AtPhase.session (selfFlush : s.selfFlush ≤ s.flush) (at_ : s.AtPhase stream) : s'.AtPhase stream := by
  have phase : s'.phase = s.phase := by rw [eq]
  have views : s'.views = c.views := by rw [eq]; rfl
  have reaching : ∀ hi, s.Reaching stream hi → s'.Reaching stream hi := fun hi reach => reach.session written rows eq
  unfold Running.AtPhase at at_ ⊢
  rw [phase]
  cases stands : s.phase with
  | idle => trivial
  | ready =>
      intro same
      rw [eq] at same
      exact absurd same (selfFlush.trans_lt written).ne'
  | building base built =>
      rw [stands] at at_
      obtain ⟨low, window, frontiers, fresh⟩ := at_
      refine ⟨?_, ?_, fun row' member => ?_, fun built => ?_⟩
      · rw [eq]
        exact low.trans written.le
      · rw [eq]
        exact window
      · rcases rows row' (views ▸ member) with ⟨row, inViews, _, frontier, _⟩ | ⟨_, _, frontier⟩
        · exact frontier ▸ frontiers row inViews
        · rw [frontier]
          exact Nat.zero_le _
      · rw [eq]
        exact (fresh built).trans written
  | peeked peek =>
      rw [stands] at at_
      obtain ⟨low, window, within, committed, reads, quiet⟩ := at_
      rw [← views] at rows
      refine ⟨?_, ?_, within.session rows, fun tx member => ?_, ?_, fun still positive => ?_⟩
      · rw [eq]
        exact low.trans written.le
      · rw [eq]
        exact window
      · rw [eq]
        exact (committed tx member).trans written.le
      · rw [eq]
        exact reads
      · have advance : s'.lastAdvance = s.lastAdvance := by rw [eq]
        rw [advance] at positive ⊢
        rcases quiet still positive with silent | apart
        · exact .inl silent
        · exact .inr fun row' member => SessionRow.before rows positive member fun row inViews _ _ => apart row inViews
  | slotting moved next =>
      rw [stands] at at_
      obtain ⟨low, absorbed, onward⟩ := at_
      refine ⟨?_, views ▸ absorbed.session rows, fun hi some => reaching hi (onward hi some)⟩
      rw [eq]
      exact low.trans written.le
  | drained hi =>
      rw [stands] at at_
      exact reaching hi at_
  | moving hi =>
      rw [stands] at at_
      exact reaching hi at_
  | advanced hi =>
      rw [stands] at at_
      exact reaching hi at_

theorem Running.Sound.session (sound : s.Sound stream) (at_ : s.AtPhase stream) (ids : Keyed ViewRow.id c.views) :
    s'.Sound stream ∧ s'.AtPhase stream := by
  refine ⟨?_, at_.session written rows eq sound.selfFlush⟩
  have moved : ¬ flush = s.selfFlush := (sound.selfFlush.trans_lt written).ne'
  have each : ∀ row' ∈ c.views, s'.RowOk stream row' := fun _ member => Running.RowOk.session written rows eq sound.rows member
  subst eq
  refine ⟨ids, each, fun confirmed slot => ?_, fun w some => ?_, sound.current, sound.selfFlush.trans written.le, ?_⟩
  · exact ⟨(sound.slot confirmed slot).1.trans written.le, (sound.slot confirmed slot).2.session rows⟩
  · exact ⟨(sound.window w some).1.trans written.le, fun positive => ((sound.window w some).2 positive).session rows positive⟩
  · exact fun _ same => absurd same moved

end SessionStep

theorem Running.Sound.flushed {s : Running} (sound : s.Sound stream) (at_ : s.AtPhase stream) {flush : Nat} (later : s.flush ≤ flush)
    {s' : Running} (eq : s' = { s with flush := flush }) : s'.Sound stream ∧ s'.AtPhase stream := by
  have reaching : ∀ hi, s.Reaching stream hi → s'.Reaching stream hi := by
    intro hi reach
    rw [eq]
    exact ⟨reach.flushed.trans later, reach.window, reach.within, reach.absorbed⟩
  constructor
  · subst eq
    refine ⟨sound.ids, fun row member => ?_, fun confirmed slot => ?_, fun w some => ?_, sound.current, sound.selfFlush.trans later, ?_⟩
    · have ok := sound.rows row member
      exact ⟨ok.flushed.trans later, fun resting => (ok.resting resting).trans_le later, ok.since, ok.ends⟩
    · exact ⟨(sound.slot confirmed slot).1.trans later, (sound.slot confirmed slot).2⟩
    · exact ⟨(sound.window w some).1.trans later, (sound.window w some).2⟩
    · exact fun positive still => sound.memory positive (le_antisymm (later.trans still.le) sound.selfFlush)
  · have phase : s'.phase = s.phase := by rw [eq]
    unfold Running.AtPhase at at_ ⊢
    rw [phase]
    cases stands : s.phase with
    | idle => trivial
    | ready =>
        rw [stands] at at_
        subst eq
        exact fun still => at_ (le_antisymm (later.trans still.le) sound.selfFlush)
    | building base built =>
        rw [stands] at at_
        subst eq
        exact ⟨at_.1.trans later, at_.2.1, at_.2.2.1, fun built => (at_.2.2.2 built).trans_le later⟩
    | peeked peek =>
        rw [stands] at at_
        subst eq
        obtain ⟨low, window, within, committed, rest⟩ := at_
        exact ⟨low.trans later, window, within, fun tx member => (committed tx member).trans later, rest⟩
    | slotting moved next =>
        rw [stands] at at_
        obtain ⟨low, absorbed, onward⟩ := at_
        refine ⟨?_, ?_, fun hi some => reaching hi (onward hi some)⟩
        · subst eq
          exact low.trans later
        · subst eq
          exact absorbed
    | drained hi =>
        rw [stands] at at_
        exact reaching hi at_
    | moving hi =>
        rw [stands] at at_
        exact reaching hi at_
    | advanced hi =>
        rw [stands] at at_
        exact reaching hi at_

theorem builtLedger_other {ledger : Nat → Absorption} {point : Nat} {group : List Pending} {c : Catalog} {id : Nat}
    (other : id ∉ group.map Pending.id) : builtLedger ledger point group c id = ledger id := by
  have none : (group.any fun view => view.id = id) = false := by
    rw [List.any_eq_false]
    intro view member same
    exact other (of_decide_eq_true same ▸ List.mem_map_of_mem member)
  rw [builtLedger, none, Bool.false_and, if_neg Bool.false_ne_true]

theorem builtLedger_live {ledger : Nat → Absorption} {point : Nat} {group : List Pending} {c : Catalog} {row : ViewRow}
    (member : row ∈ c.views) (within : row.id ∈ group.map Pending.id) (live : row.status = .live) :
    builtLedger ledger point group c row.id = ⟨point, []⟩ := by
  obtain ⟨view, inGroup, same⟩ := List.mem_map.mp within
  rw [builtLedger, if_pos]
  rw [Bool.and_eq_true, List.any_eq_true, List.any_eq_true]
  refine ⟨⟨view, inGroup, decide_eq_true same⟩, row, member, ?_⟩
  rw [Bool.and_eq_true, decide_eq_true_eq, decide_eq_true_eq]
  exact ⟨rfl, live⟩

theorem builtLedger_failed {ledger : Nat → Absorption} {point : Nat} {group : List Pending} {c : Catalog} {row : ViewRow}
    (ids : Keyed ViewRow.id c.views) (member : row ∈ c.views) (other : row.status ≠ .live) :
    builtLedger ledger point group c row.id = ledger row.id := by
  have none : (c.views.any fun other => decide (other.id = row.id) && decide (other.status = .live)) = false := by
    rw [List.any_eq_false]
    intro row' member' both
    rw [Bool.and_eq_true, decide_eq_true_eq, decide_eq_true_eq] at both
    exact other (ids.eq_of_mem member' member both.1 ▸ both.2)
  rw [builtLedger, none, Bool.and_false, if_neg Bool.false_ne_true]

theorem Running.Sound.build {s : Running} (sound : s.Sound stream) {base point flush : Nat} {sight : Sight} {group : List Pending}
    (window : ∀ w ∈ s.published, w.toLsn ≤ base) (distinct : (group.map Pending.id).Nodup) (after : base ≤ point) (visible : point ≤ flush) (written : s.flush < flush) {s' : Running}
    (eq : s' = { s with
      durable := { s.durable with catalog := s.durable.catalog.populate sight point s.durable.slot group }
      flush := flush
      phase := .building flush true
      ledger := builtLedger s.ledger point group (s.durable.catalog.populate sight point s.durable.slot group) }) :
    s'.Sound stream ∧ s'.AtPhase stream := by
  have populated := @Catalog.populate_views sight point group distinct s.durable.slot s.durable.catalog
  generalize s.durable.catalog.populate sight point s.durable.slot group = c at eq populated
  have views : s'.views = c.views := by rw [eq]; rfl
  have ids : Keyed ViewRow.id c.views := by
    rw [Keyed, map_eq_of_forall₂ populated fun row row' step => step.1.id]
    exact sound.ids
  -- a row stands, is built at the point, or has failed where it was
  have rows : ∀ row' ∈ c.views, ∃ row ∈ s.views, row'.id = row.id ∧
      ((row' = row ∧ row.id ∉ group.map Pending.id) ∨
        (row'.status = .live ∧ row'.frontier = point ∧ row.id ∈ group.map Pending.id ∧
          ∀ confirmed, s.durable.slot = some confirmed → confirmed ≤ point) ∨
        (row'.status = .failed ∧ row'.frontier = row.frontier)) := by
    intro row' member
    obtain ⟨row, inViews, step, main⟩ := mem_of_forall₂_right populated member
    refine ⟨row, inViews, step.id, ?_⟩
    by_cases inGroup : row.id ∈ group.map Pending.id
    · rcases step.inside inGroup with ⟨view, _, _, spec, _, rfl⟩ | ⟨message, rfl⟩
      · exact .inr (.inl ⟨rfl, rfl, inGroup, main inGroup rfl⟩)
      · exact .inr (.inr ⟨rfl, rfl⟩)
    · exact .inl ⟨step.outside inGroup, inGroup⟩
  have bounded : ∀ row' ∈ c.views, row'.frontier ≤ flush ∧ (row'.Resting → row'.frontier < flush) := by
    intro row' member
    obtain ⟨row, inViews, _, ⟨rfl, _⟩ | ⟨live, frontier, _⟩ | ⟨_, frontier⟩⟩ := rows row' member
    · have ok := sound.rows row' inViews
      exact ⟨ok.flushed.trans written.le, fun _ => ok.flushed.trans_lt written⟩
    · refine ⟨frontier ▸ visible, fun resting => ?_⟩
      rw [ViewRow.Resting, live] at resting
      exact absurd resting (by decide)
    · have ok := sound.rows row inViews
      exact ⟨frontier ▸ ok.flushed.trans written.le, fun _ => frontier ▸ ok.flushed.trans_lt written⟩
  have moved : ¬ flush = s.selfFlush := (sound.selfFlush.trans_lt written).ne'
  constructor
  · subst eq
    refine ⟨ids, fun row' member => ?_, fun confirmed slot => ⟨(sound.slot confirmed slot).1.trans written.le, ?_⟩, fun w some => ?_,
      sound.current, sound.selfFlush.trans written.le, fun _ same => absurd same moved⟩
    · obtain ⟨frontier, resting⟩ := bounded row' member
      refine ⟨frontier, resting, ?_, ?_⟩
      all_goals
        obtain ⟨row, inViews, id, ⟨rfl, other⟩ | ⟨live, frontier, inGroup, _⟩ | ⟨failed, frontier⟩⟩ := rows row' member
      · simp only [builtLedger_other other]
        exact (sound.rows row' inViews).since
      · simp only [builtLedger_live member (id ▸ inGroup) live]
        exact frontier.ge
      · simp only [builtLedger_failed ids member (failed ▸ Status.noConfusion)]
        rw [id, frontier]
        exact (sound.rows row inViews).since
      · simp only [builtLedger_other other]
        exact (sound.rows row' inViews).ends
      · simp only [builtLedger_live member (id ▸ inGroup) live, frontier]
        exact (window_self _ _).symm
      · simp only [builtLedger_failed ids member (failed ▸ Status.noConfusion)]
        rw [id, frontier]
        exact (sound.rows row inViews).ends
    · intro row' member live x inEnds le
      obtain ⟨row, inViews, _, ⟨rfl, _⟩ | ⟨_, frontier, _, main⟩ | ⟨failed, _⟩⟩ := rows row' member
      · exact (sound.slot confirmed slot).2 row' inViews live x inEnds le
      · rw [frontier]
        exact le.trans (main confirmed slot)
      · exact absurd (failed.symm.trans live) Status.noConfusion
    · refine ⟨(sound.window w some).1.trans written.le, fun positive => ?_⟩
      rcases (sound.window w some).2 positive with silent | apart
      · exact .inl silent
      · refine .inr fun row' member => ?_
        obtain ⟨row, inViews, _, ⟨rfl, _⟩ | ⟨_, frontier, _⟩ | ⟨failed, frontier⟩⟩ := rows row' member
        · exact apart row' inViews
        · exact .inl (frontier ▸ (window w some).trans after)
        · rcases apart row inViews with past | ⟨_, low⟩
          · exact .inl (frontier ▸ past)
          · exact .inr ⟨failed ▸ Status.noConfusion, frontier ▸ low⟩
  · subst eq
    refine ⟨le_refl _, fun w some => (sound.window w some).1.trans written.le, fun row' member => (bounded row' member).1, fun _ => ?_⟩
    exact sound.selfFlush.trans_lt written

theorem Running.Sound.once {s : Running} (sound : s.Sound stream) {confirmed : Nat} (slot : s.durable.slot = some confirmed)
    {row : ViewRow} (member : row ∈ s.views) (live : row.status = .live) :
    row.ExactlyOnce (stream.map SourceTransaction.endLsn) (s.ledger row.id) confirmed :=
  ⟨(sound.rows row member).since, (sound.rows row member).ends, (sound.slot confirmed slot).2 row member live⟩

theorem ViewRow.Went.delivered {txs : List SourceTransaction} {result : RoundResult} {row row' : ViewRow}
    (went : row.Went txs result row') (wasLive : row.status = .live) (live : row'.status = .live) :
    row.Delivered txs result row' := by
  obtain ⟨n, le, absorbed, frontier, stopped⟩ := went.through wasLive
  exact ⟨wasLive, went.id, n, le, went.id ▸ absorbed, went.id ▸ frontier, stopped live⟩

/-- Live before and after, or left alone, or fallen out of the round before one of its ends. -/
theorem ViewRow.Went.cases {txs : List SourceTransaction} {result : RoundResult} {row row' : ViewRow} (went : row.Went txs result row') :
    (row' = row ∧ row.status ≠ .live) ∨ (row.status = .live ∧ row'.status = .live) ∨
    (row.status = .live ∧ row'.status ≠ .live ∧ ∃ tx ∈ txs, row'.frontier < tx.endLsn) := by
  by_cases wasLive : row.status = .live
  · by_cases live : row'.status = .live
    · exact .inr (.inl ⟨wasLive, live⟩)
    · exact .inr (.inr ⟨wasLive, live, went.fell wasLive live⟩)
  · exact .inl ⟨(went.other wasLive).1, wasLive⟩

section Went

variable {txs : List SourceTransaction} {result : RoundResult} {row row' : ViewRow} {ends : List Nat} {confirmed cut : Nat} {a : Absorption}
  (went : row.Went txs result row') (ordered : ends.Pairwise (· < ·))
  (peeked : txs.map SourceTransaction.endLsn = Bags.window ends confirmed cut)
  (since : a.since ≤ row.frontier) (absorbed : a.ends = Bags.window ends a.since row.frontier)
  (safe : row.status = .live → ∀ x ∈ ends, x ≤ confirmed → x ≤ row.frontier)
include went ordered peeked since absorbed safe

/-- What a round adds to a ledger, whatever becomes of the view. -/
theorem ViewRow.Went.ledger : row.frontier ≤ row'.frontier ∧
    a.ends ++ result.absorbed row.id = Bags.window ends a.since row'.frontier ∧
    ∀ hi, row.frontier ≤ hi → (∀ tx ∈ txs, tx.endLsn ≤ hi) → row'.frontier ≤ hi := by
  by_cases live : row.status = .live
  · obtain ⟨n, _, fresh, frontier, _⟩ := went.through live
    rw [peeked] at fresh
    obtain ⟨onward, read, _⟩ := window_resume ordered (safe live) cut n fresh frontier
    refine ⟨onward, ?_, fun hi low bound => ?_⟩
    · rw [read, absorbed, window_append ordered since onward]
    · rw [frontier]
      cases last : (result.absorbed row.id).getLast? with
      | none => exact low
      | some e =>
          have within := List.mem_of_getLast? last
          rw [fresh, ← peeked] at within
          obtain ⟨tx, inTxs, rfl⟩ := List.mem_map.mp (List.mem_of_mem_take (List.mem_filter.mp within).1)
          exact bound tx inTxs
  · obtain ⟨rfl, none⟩ := went.other live
    exact ⟨le_refl _, by rw [none, List.append_nil, absorbed], fun hi low _ => low⟩

end Went

/-- The slot may move, and the frontiers advance, where a state of the round says so. -/
theorem absorbed_of_state {d : Durable} {ledger : Nat → Absorption} {position : Nat} (slot : d.slot = some position)
    (once : ∃ moved, d.ExactlyOnce (stream.map SourceTransaction.endLsn) ledger moved) : Absorbed stream d.catalog.views position := by
  obtain ⟨moved, once⟩ := once
  obtain rfl := Option.some.inj (once.slot.symm.trans slot)
  exact fun row member live => (once.views row member live).safe

theorem Absorbed.mono {views : List ViewRow} {lo hi : Nat} (absorbed : Absorbed stream views hi) (low : lo ≤ hi) :
    Absorbed stream views lo := fun row member live x inEnds le => absorbed row member live x inEnds (le.trans low)

/-- What a round makes of the rows, of the ledgers and of where the slot may move. -/
structure Running.Round (stream : List SourceTransaction) (s : Running) (peek : Peek) (confirmed flush : Nat) (last : SourceTransaction)
    (result : RoundResult) : Prop where
  ids : Keyed ViewRow.id result.catalog.views
  went : ∀ row' ∈ result.catalog.views, ∃ row ∈ s.views, row.Went peek.transactions result row'
  ledger : ∀ row ∈ s.views, ∀ row', row.Went peek.transactions result row' → row.frontier ≤ row'.frontier ∧
    (s.ledger row.id).ends ++ result.absorbed row.id = Bags.window (stream.map SourceTransaction.endLsn) (s.ledger row.id).since row'.frontier ∧
    ∀ hi, row.frontier ≤ hi → (∀ tx ∈ peek.transactions, tx.endLsn ≤ hi) → row'.frontier ≤ hi
  left : ∀ row ∈ s.views, ∀ row' ∈ result.catalog.views, row'.id = row.id → row.status = .live → row'.status ≠ .live → s.flush < flush
  states : ∀ {d : Durable}, RoundStates result peek confirmed last d →
    ∃ moved, d.ExactlyOnce (stream.map SourceTransaction.endLsn) (fun id => ⟨(s.ledger id).since, (s.ledger id).ends ++ result.absorbed id⟩) moved

theorem Running.Sound.round (ordered : stream.Pairwise fun t u => t.endLsn < u.endLsn) {s : Running} (sound : s.Sound stream) {peek : Peek}
    {confirmed flush : Nat} {faults : Faults} {cache : Nat → Option Relation} {last : SourceTransaction} {result : RoundResult}
    (reads : peek.Reads stream confirmed) (slot : s.durable.slot = some confirmed) (final : peek.transactions.getLast? = some last)
    (applied : applyRound pf settings faults cache s.durable.catalog peek.transactions = .ok result)
    (written : result.catalog.views ≠ s.views → s.flush < flush) : s.Round stream peek confirmed flush last result := by
  obtain ⟨cut, peeked, all⟩ := reads
  have increasing : (stream.map SourceTransaction.endLsn).Pairwise (· < ·) := List.pairwise_map.mpr ordered
  have sorted : peek.transactions.Pairwise fun t u => t.endLsn < u.endLsn := peeked ▸ ordered.filter _
  have ends : peek.transactions.map SourceTransaction.endLsn = Bags.window (stream.map SourceTransaction.endLsn) confirmed cut := by
    rw [peeked, ends_filter]
  obtain ⟨sameIds, went⟩ := applyRound_went sound.ids sorted applied
  have steps : ∀ row' ∈ result.catalog.views, row'.status = .live →
      row'.ExactlyOnce (stream.map SourceTransaction.endLsn) ⟨(s.ledger row'.id).since, (s.ledger row'.id).ends ++ result.absorbed row'.id⟩ confirmed ∧
      ∃ n, (∀ x ∈ (Bags.window (stream.map SourceTransaction.endLsn) confirmed cut).take n, x ≤ row'.frontier) ∧
        (n = (Bags.window (stream.map SourceTransaction.endLsn) confirmed cut).length ∨ ∃ k, result.blockedAt = some k ∧ k ≤ n) := by
    intro row' member live
    obtain ⟨row, inViews, went⟩ := went row' member
    have wasLive : row.status = .live := by
      by_contra other
      exact other ((went.other other).1 ▸ live)
    have step := (went.delivered wasLive live).exactlyOnce increasing ends (sound.once slot inViews wasLive)
    rwa [went.id] at step ⊢
  constructor
  · rw [Keyed, sameIds]
    exact sound.ids
  · exact went
  · intro row inViews row' went
    exact went.ledger increasing ends (sound.rows row inViews).since (sound.rows row inViews).ends
      ((sound.slot confirmed slot).2 row inViews)
  · intro row inViews row' member id live gone
    apply written
    intro same
    have stood : row' ∈ s.views := same ▸ member
    rw [sound.ids.eq_of_mem stood inViews id] at gone
    exact gone live
  · intro d state
    exact state.exactlyOnce ends all final sameIds sound.ids steps

section Round

variable {s : Running} (sound : s.Sound stream) {peek : Peek} {confirmed flush : Nat} {last : SourceTransaction} {result : RoundResult}
  (round : s.Round stream peek confirmed flush last result) (slot : s.durable.slot = some confirmed)
  (committed : ∀ tx ∈ peek.transactions, tx.endLsn ≤ s.flush) (later : s.flush ≤ flush)
include sound round slot committed later

/-- Between the commit of a round and the move of the slot. -/
theorem Running.Sound.applied (written : result.catalog.views ≠ s.views → s.flush < flush) (phase : Phase) :
    Running.Sound stream { s with
      durable := { s.durable with catalog := result.catalog }
      flush := flush
      phase := phase
      ledger := fun id => ⟨(s.ledger id).since, (s.ledger id).ends ++ result.absorbed id⟩ } := by
  refine ⟨round.ids, fun row' member => ?_, fun confirmed' slot' => ?_, fun w some => ⟨(sound.window w some).1.trans later, fun positive => ?_⟩,
    sound.current, sound.selfFlush.trans later, fun positive same => ?_⟩
  · obtain ⟨row, inViews, went⟩ := round.went row' member
    obtain ⟨onward, read, bound⟩ := round.ledger row inViews row' went
    have ok := sound.rows row inViews
    refine ⟨(bound s.flush ok.flushed committed).trans later, fun resting => ?_, ?_, ?_⟩
    · rcases went.cases with ⟨rfl, _⟩ | ⟨_, live⟩ | ⟨live, gone, _⟩
      · exact (ok.resting resting).trans_le later
      · rw [ViewRow.Resting, live] at resting
        exact absurd resting (by decide)
      · exact (bound s.flush ok.flushed committed).trans_lt (round.left row inViews row' member went.id live gone)
    · show (s.ledger row'.id).since ≤ row'.frontier
      rw [went.id]
      exact ok.since.trans onward
    · show (s.ledger row'.id).ends ++ result.absorbed row'.id = _
      rw [went.id]
      exact read
  · obtain rfl := Option.some.inj (slot.symm.trans slot')
    exact ⟨(sound.slot confirmed slot).1.trans later, absorbed_of_state (d := ⟨result.catalog, some confirmed⟩) rfl (round.states .committed)⟩
  · rcases (sound.window w some).2 positive with silent | apart
    · exact .inl silent
    · refine .inr fun row' member => ?_
      obtain ⟨row, inViews, went⟩ := round.went row' member
      rcases apart row inViews with past | ⟨other, before⟩
      · exact .inl (past.trans (round.ledger row inViews row' went).1)
      · rw [(went.other other).1]
        exact .inr ⟨other, before⟩
  · have still : s.flush = s.selfFlush := le_antisymm (later.trans same.le) sound.selfFlush
    have unwritten : result.catalog.views = s.views := by
      by_contra changed
      exact absurd (same.trans still.symm) (written changed).ne'
    show Within result.catalog.views s.lastAdvance
    rw [unwritten]
    exact sound.memory positive still

/-- A drained round without a block leaves every view where the idle advance wants it. -/
theorem Running.Sound.drains (sorted : peek.transactions.Pairwise fun t u => t.endLsn < u.endLsn)
    (final : peek.transactions.getLast? = some last) (low : peek.target ≤ s.flush) (behind : ∀ w ∈ s.published, w.toLsn ≤ peek.target)
    (within : Within s.views peek.target) (free : result.blockedAt = none) (drained : peek.drained = true) {s' : Running}
    (flushed : s'.flush = flush) (published : s'.published = s.published) (views : s'.views = result.catalog.views) :
    s'.Reaching stream (max peek.target (max confirmed last.endLsn)) := by
  have reached : max confirmed last.endLsn ≤ s.flush :=
    max_le (sound.slot confirmed slot).1 (committed last (List.mem_of_getLast? final))
  have idle := absorbed_of_state (d := ⟨result.catalog, Option.some (max (max peek.target (max confirmed last.endLsn)) (max (max confirmed last.endLsn) confirmed))⟩)
    rfl (round.states (.idle free (by rw [Durable.idle, if_pos drained]; exact List.mem_cons_self)))
  have upTo : ∀ tx ∈ peek.transactions, tx.endLsn ≤ max peek.target (max confirmed last.endLsn) := fun tx inPeek =>
    (endLsn_le_last sorted final tx inPeek).trans ((le_max_right _ _).trans (le_max_right _ _))
  constructor
  · rw [flushed]
    exact (max_le low reached).trans later
  · rw [published]
    exact fun w some => (behind w some).trans (le_max_left _ _)
  · rw [views]
    intro row' member
    obtain ⟨row, inViews, went⟩ := round.went row' member
    refine ⟨(round.ledger row inViews row' went).2.2 _ ((within row inViews).1.trans (le_max_left _ _)) upTo, fun resting => ?_⟩
    rcases went.cases with ⟨rfl, _⟩ | ⟨_, live⟩ | ⟨_, _, tx, inPeek, short⟩
    · exact ((within row' inViews).2 resting).trans_le (le_max_left _ _)
    · rw [ViewRow.Resting, live] at resting
      exact absurd resting (by decide)
    · exact short.trans_le (upTo tx inPeek)
  · rw [views]
    exact idle.mono (le_max_left _ _)

end Round

theorem Running.Sound.apply (ordered : stream.Pairwise fun t u => t.endLsn < u.endLsn) {s : Running} (sound : s.Sound stream) {peek : Peek}
    {confirmed flush : Nat} {faults : Faults} {cache : Nat → Option Relation} {last : SourceTransaction} {result : RoundResult}
    (low : peek.target ≤ s.flush) (behind : ∀ w ∈ s.published, w.toLsn ≤ peek.target) (within : Within s.views peek.target)
    (committed : ∀ tx ∈ peek.transactions, tx.endLsn ≤ s.flush) (reads : peek.Reads stream confirmed) (slot : s.durable.slot = some confirmed)
    (final : peek.transactions.getLast? = some last)
    (applied : applyRound pf settings faults cache s.durable.catalog peek.transactions = .ok result)
    (later : s.flush ≤ flush) (written : result.catalog.views ≠ s.views → s.flush < flush) {s' : Running}
    (eq : s' = { s with
        durable := { s.durable with catalog := result.catalog }
        flush := flush
        phase :=
          match result.blockedAt with
          | some 0 => .idle
          | some (k + 1) => (peek.transactions[k]?).elim .idle fun tx => .slotting tx.endLsn none
          | none =>
            let lastEnd := max confirmed last.endLsn
            .slotting lastEnd (if peek.drained then some (max peek.target lastEnd) else none)
        ledger := fun id => ⟨(s.ledger id).since, (s.ledger id).ends ++ result.absorbed id⟩ }) :
    s'.Sound stream ∧ s'.AtPhase stream := by
  have round := sound.round ordered reads slot final applied written
  subst eq
  refine ⟨sound.applied round slot committed later written _, ?_⟩
  cases blocked : result.blockedAt with
  | some k =>
      cases k with
      | zero => simp only [Running.AtPhase]
      | succ k =>
          cases before : peek.transactions[k]? with
          | none => simp only [Running.AtPhase, before, Option.elim]
          | some tx =>
              simp only [Running.AtPhase, before, Option.elim]
              have held := absorbed_of_state (d := ⟨result.catalog, some (max tx.endLsn confirmed)⟩) rfl (round.states (.held blocked before))
              refine ⟨(committed tx (List.mem_of_getElem? before)).trans later, held.mono (le_max_left _ _), fun hi none => ?_⟩
              exact absurd none (Option.some_ne_none hi).symm
  | none =>
      simp only [Running.AtPhase]
      have moved : max (max confirmed last.endLsn) confirmed = max confirmed last.endLsn := max_eq_left (le_max_left _ _)
      have advanced := absorbed_of_state (d := ⟨result.catalog, some (max (max confirmed last.endLsn) confirmed)⟩) rfl (round.states (.advanced blocked))
      have reached : max confirmed last.endLsn ≤ s.flush :=
        max_le (sound.slot confirmed slot).1 (committed last (List.mem_of_getLast? final))
      refine ⟨reached.trans later, moved ▸ advanced, fun hi some => ?_⟩
      by_cases drained : peek.drained = true
      · rw [if_pos drained, Option.some.injEq] at some
        subst some
        have sorted : peek.transactions.Pairwise fun t u => t.endLsn < u.endLsn := by
          obtain ⟨cut, peeked, _⟩ := reads
          exact peeked ▸ ordered.filter _
        exact sound.drains round slot committed later sorted final low behind within blocked drained rfl rfl rfl
      · rw [if_neg drained] at some
        exact absurd some (Option.some_ne_none hi).symm

theorem Running.Reaching.of_eq {s s' : Running} {hi : Nat} (reach : s.Reaching stream hi) (flush : s'.flush = s.flush)
    (published : s'.published = s.published) (views : s'.views = s.views) : s'.Reaching stream hi := by
  constructor
  · rw [flush]
    exact reach.flushed
  · rw [published]
    exact reach.window
  · rw [views]
    exact reach.within
  · rw [views]
    exact reach.absorbed

theorem Running.Sound.advanceSlot {s : Running} (sound : s.Sound stream) {position : Nat} (flushed : position ≤ s.flush)
    (absorbed : Absorbed stream s.views position) (phase : Phase) :
    Running.Sound stream { s with durable := s.durable.advanceSlot position, phase := phase } := by
  refine ⟨sound.ids, fun row member => ?_, fun confirmed slot => ?_, sound.window, sound.current, sound.selfFlush, sound.memory⟩
  · have ok := sound.rows row member
    exact ⟨ok.flushed, ok.resting, ok.since, ok.ends⟩
  · obtain ⟨before, had, rfl⟩ := Option.map_eq_some_iff.mp slot
    obtain ⟨low, safe⟩ := sound.slot before had
    refine ⟨max_le flushed low, fun row member live x inEnds le => ?_⟩
    rcases le_max_iff.mp le with here | there
    · exact absorbed row member live x inEnds here
    · exact safe row member live x inEnds there

theorem Catalog.mem_idleAdvance {c : Catalog} {hi : Nat} {row' : ViewRow} (member : row' ∈ (c.idleAdvance hi).views) :
    ∃ row ∈ c.views, row'.id = row.id ∧ row'.status = row.status ∧
      ((row.status = .live ∧ row.frontier < hi ∧ row'.frontier = hi) ∨ row' = row ∧ (row.status = .live → hi ≤ row.frontier)) := by
  obtain ⟨row, inViews, ⟨rfl, rests⟩ | ⟨rfl, live, low⟩⟩ := Catalog.idleAdvance_row member
  · exact ⟨row', inViews, rfl, rfl, .inr ⟨rfl, rests⟩⟩
  · exact ⟨row, inViews, rfl, rfl, .inl ⟨live, low, rfl⟩⟩

theorem Running.Sound.advance {s : Running} (sound : s.Sound stream) {hi flush : Nat} (reach : s.Reaching stream hi)
    (later : s.flush ≤ flush) (written : (s.durable.catalog.idleAdvance hi).views ≠ s.views → s.flush < flush) {s' : Running}
    (eq : s' = { s with
      durable := { s.durable with catalog := s.durable.catalog.idleAdvance hi }
      flush := flush
      phase := .advanced hi }) :
    s'.Sound stream ∧ s'.AtPhase stream := by
  have rows : ∀ row' ∈ (s.durable.catalog.idleAdvance hi).views, ∃ row ∈ s.views, row'.id = row.id ∧ row'.status = row.status ∧
      ((row.status = .live ∧ row.frontier < hi ∧ row'.frontier = hi) ∨ row' = row ∧ (row.status = .live → hi ≤ row.frontier)) :=
    fun row' member => Catalog.mem_idleAdvance member
  have ids : Keyed ViewRow.id (s.durable.catalog.idleAdvance hi).views := by
    rw [Keyed, Catalog.idleAdvance_ids]
    exact sound.ids
  have within : Within (s.durable.catalog.idleAdvance hi).views hi := by
    intro row' member
    obtain ⟨row, inViews, _, status, ⟨live, _, frontier⟩ | ⟨rfl, _⟩⟩ := rows row' member
    · refine ⟨frontier.le, fun resting => ?_⟩
      rw [ViewRow.Resting, status, live] at resting
      exact absurd resting (by decide)
    · exact reach.within row' inViews
  have absorbed : ∀ {position : Nat}, Absorbed stream s.views position →
      Absorbed stream (s.durable.catalog.idleAdvance hi).views position := by
    intro position absorbed row' member live x inEnds le
    obtain ⟨row, inViews, _, status, ⟨wasLive, low, frontier⟩ | ⟨rfl, _⟩⟩ := rows row' member
    · rw [frontier]
      exact (absorbed row inViews wasLive x inEnds le).trans low.le
    · exact absorbed row' inViews live x inEnds le
  constructor
  · subst eq
    refine ⟨ids, fun row' member => ?_, fun confirmed slot => ?_, fun w some => ⟨(sound.window w some).1.trans later, fun positive => ?_⟩,
      sound.current, sound.selfFlush.trans later, fun positive same => ?_⟩
    · obtain ⟨row, inViews, id, status, ⟨live, low, frontier⟩ | ⟨rfl, _⟩⟩ := rows row' member
      · have ok := sound.rows row inViews
        refine ⟨frontier ▸ reach.flushed.trans later, fun resting => ?_, ?_, ?_⟩
        · rw [ViewRow.Resting, status, live] at resting
          exact absurd resting (by decide)
        · show (s.ledger row'.id).since ≤ row'.frontier
          rw [id, frontier]
          exact ok.since.trans low.le
        · show (s.ledger row'.id).ends = Bags.window _ (s.ledger row'.id).since row'.frontier
          rw [id, frontier, ok.ends]
          refine window_congr fun x inEnds => ⟨fun inside => ⟨inside.1, inside.2.trans low.le⟩, fun inside => ⟨inside.1, ?_⟩⟩
          exact reach.absorbed row inViews live x inEnds inside.2
      · have ok := sound.rows row' inViews
        exact ⟨ok.flushed.trans later, fun resting => (ok.resting resting).trans_le later, ok.since, ok.ends⟩
    · exact ⟨(sound.slot confirmed slot).1.trans later, absorbed (sound.slot confirmed slot).2⟩
    · rcases (sound.window w some).2 positive with silent | apart
      · exact .inl silent
      · refine .inr fun row' member => ?_
        obtain ⟨row, inViews, _, status, ⟨live, low, frontier⟩ | ⟨rfl, _⟩⟩ := rows row' member
        · rw [frontier]
          exact .inl (((apart row inViews).resolve_right fun other => other.1 live).trans low.le)
        · exact apart row' inViews
    · have still : s.flush = s.selfFlush := le_antisymm (later.trans same.le) sound.selfFlush
      have unwritten : (s.durable.catalog.idleAdvance hi).views = s.views := by
        by_contra changed
        exact absurd (same.trans still.symm) (written changed).ne'
      show Within (s.durable.catalog.idleAdvance hi).views s.lastAdvance
      rw [unwritten]
      exact sound.memory positive still
  · subst eq
    exact ⟨reach.flushed.trans later, reach.window, within, absorbed reach.absorbed⟩

/-- What the worker knows when a peek is quiet. -/
theorem Running.Sound.quiet {s : Running} (sound : s.Sound stream) (ready : s.flush = s.selfFlush → ∀ row ∈ s.views, ¬ row.Waits)
    {peek : Peek} {confirmed : Nat} (slot : s.durable.slot = some confirmed) (target : peek.target = s.flush)
    (reads : peek.Reads stream confirmed) (none : peek.transactions = []) (drained : peek.drained = true)
    (same : peek.target = s.selfFlush) (positive : s.lastAdvance ≠ 0) :
    Silent stream s.lastAdvance peek.target ∨ ∀ row ∈ s.views, row.status ≠ .live ∧ row.frontier < s.lastAdvance := by
  have still : s.flush = s.selfFlush := target.symm.trans same
  have within := sound.memory positive still
  by_cases live : ∃ row ∈ s.views, row.status = .live
  · -- a live view stands at the last advance and has absorbed what the slot has passed
    obtain ⟨row, inViews, live⟩ := live
    refine .inl fun tx inStream above => ?_
    have inEnds : tx.endLsn ∈ stream.map SourceTransaction.endLsn := List.mem_map_of_mem inStream
    obtain ⟨cut, peeked, all⟩ := reads
    rw [none] at peeked
    by_contra low
    have upTo : tx.endLsn ≤ cut := (not_lt.mp low).trans (all drained)
    have passed : tx.endLsn ≤ confirmed := by
      by_contra after
      have unread := List.filter_eq_nil_iff.mp peeked.symm tx inStream
      rw [Bool.and_eq_true, decide_eq_true_eq, decide_eq_true_eq] at unread
      exact unread ⟨not_le.mp after, upTo⟩
    have reached := (sound.slot confirmed slot).2 row inViews live tx.endLsn inEnds passed
    exact absurd above (not_lt.mpr (reached.trans (within row inViews).1))
  · refine .inr fun row inViews => ⟨fun isLive => live ⟨row, inViews, isLive⟩, (within row inViews).2 ?_⟩
    have waits := ready still row inViews
    unfold ViewRow.Waits at waits
    unfold ViewRow.Resting
    cases status : row.status with
    | initializing => exact absurd (.inl status) waits
    | refreshing => exact absurd (.inr status) waits
    | live => exact absurd ⟨row, inViews, status⟩ live
    | stale => exact .inl rfl
    | failed => exact .inr rfl

theorem loadPending_nil {c : Catalog} (none : c.loadPending = []) : ∀ row ∈ c.views, ¬ row.Waits := by
  intro row member waits
  have within : row ∈ (c.views.filter fun row => row.status = .initializing ∨ row.status = .refreshing).mergeSort fun a b => a.id ≤ b.id := by
    rw [List.mem_mergeSort, List.mem_filter, decide_eq_true_eq]
    exact ⟨member, waits⟩
  have listed := List.mem_map_of_mem (f := ViewRow.pending) within
  rw [Catalog.loadPending] at none
  rw [none] at listed
  exact List.not_mem_nil listed

theorem Running.Sound.nothing {s : Running} (sound : s.Sound stream) {peek : Peek} {confirmed : Nat} (low : peek.target ≤ s.flush)
    (behind : ∀ w ∈ s.published, w.toLsn ≤ peek.target) (within : Within s.views peek.target) (reads : peek.Reads stream confirmed)
    (slot : s.durable.slot = some confirmed) (none : peek.transactions = []) (drained : peek.drained = true) :
    s.Reaching stream (max peek.target confirmed) := by
  obtain ⟨confirmedLow, safe⟩ := sound.slot confirmed slot
  refine ⟨max_le low confirmedLow, fun w member => (behind w member).trans (le_max_left _ _), fun row member => ?_, ?_⟩
  · exact ⟨(within row member).1.trans (le_max_left _ _), fun resting => ((within row member).2 resting).trans_le (le_max_left _ _)⟩
  · intro row member live x inEnds le
    refine safe row member live x inEnds (not_lt.mp fun above => ?_)
    obtain ⟨cut, peeked, all⟩ := reads
    obtain ⟨tx, inStream, rfl⟩ := List.mem_map.mp inEnds
    have upTo : tx.endLsn ≤ cut := ((le_max_iff.mp le).resolve_right (not_le.mpr above)).trans (all drained)
    rw [none] at peeked
    have unread := List.filter_eq_nil_iff.mp peeked.symm tx inStream
    rw [Bool.and_eq_true, decide_eq_true_eq, decide_eq_true_eq] at unread
    exact unread ⟨above, upTo⟩

/-- Steps that touch neither the views, their ledgers, the slot, the flush position nor the
windows keep what holds of them. -/
theorem Running.Sound.of_phase {s : Running} (sound : s.Sound stream) (phase : Phase) :
    Running.Sound stream { s with phase := phase } :=
  ⟨sound.ids, fun row member => ⟨(sound.rows row member).flushed, (sound.rows row member).resting, (sound.rows row member).since,
    (sound.rows row member).ends⟩, sound.slot, sound.window, sound.current, sound.selfFlush, sound.memory⟩

theorem Running.Sound.publish {s : Running} (sound : s.Sound stream) {lo hi : Nat} (flushed : hi ≤ s.flush)
    (closed : lo ≠ 0 → Sealed stream s.views lo hi) {s' : Running} (durable : s'.durable = s.durable) (flush : s'.flush = s.flush)
    (ledger : s'.ledger = s.ledger) (window : s'.window = Nabla.publish s.window lo hi) (published : s'.published = ⟨lo, hi⟩ :: s.published)
    (selfFlush : s'.selfFlush ≤ s'.flush)
    (memory : s'.lastAdvance ≠ 0 → s'.flush = s'.selfFlush → Within s.views s'.lastAdvance) : s'.Sound stream := by
  have views : s'.views = s.views := by rw [Running.views, durable]; rfl
  refine ⟨views ▸ sound.ids, fun row member => ?_, fun confirmed slot => ?_, fun w member => ?_, fun w some => ?_, selfFlush, views ▸ memory⟩
  · have ok := sound.rows row (views ▸ member)
    refine ⟨flush ▸ ok.flushed, fun resting => flush ▸ ok.resting resting, ?_, ?_⟩
    · rw [ledger]
      exact ok.since
    · rw [ledger]
      exact ok.ends
  · rw [flush, views]
    exact sound.slot confirmed (durable ▸ slot)
  · rw [published] at member
    rw [flush, views]
    rcases List.mem_cons.mp member with rfl | earlier
    · exact ⟨flushed, closed⟩
    · exact sound.window w earlier
  · rw [window] at some
    obtain ⟨_, _, rfl⟩ := Option.map_eq_some_iff.mp some
    rw [published]
    exact List.mem_cons_self

theorem Running.Step.keeps (ordered : stream.Pairwise fun t u => t.endLsn < u.endLsn) {s s' : Running} (step : Step pf settings stream s s')
    (sound : s.Sound stream) (at_ : s.AtPhase stream) : s'.Sound stream ∧ s'.AtPhase stream := by
  cases step with
  | flushed later => exact sound.flushed at_ later rfl
  | session written ids rows => exact Running.Sound.session written rows rfl sound at_ ids
  | failed => exact ⟨sound.of_phase .idle, trivial⟩
  | restarted =>
      refine ⟨⟨sound.ids, fun row member => ?_, sound.slot, sound.window, sound.current, Nat.zero_le _, fun positive => ?_⟩, trivial⟩
      · have ok := sound.rows row member
        exact ⟨ok.flushed, ok.resting, ok.since, ok.ends⟩
      · exact absurd rfl positive
  | nonePending phase none =>
      refine ⟨sound.of_phase .ready, ?_⟩
      exact fun _ => loadPending_nil none
  | somePending phase some =>
      refine ⟨sound.of_phase (.building s.flush false), ?_⟩
      exact ⟨le_refl _, fun w member => (sound.window w member).1, fun row member => (sound.rows row member).flushed,
        fun built => absurd built Bool.false_ne_true⟩
  | @build base point flush built sight group phase distinct after visible written =>
      rw [Running.AtPhase, phase] at at_
      exact sound.build at_.2.1 distinct after visible written rfl
  | @allBuilt base phase =>
      rw [Running.AtPhase, phase] at at_
      exact ⟨sound.of_phase .ready, fun same => absurd same (at_.2.2.2 rfl).ne'⟩
  | @peek confirmed peek phase slot lag target reads committed quiet =>
      rw [Running.AtPhase, phase] at at_
      refine ⟨sound.of_phase (.peeked peek), target.le, fun w member => target ▸ (sound.window w member).1, fun row member => ?_,
        committed, fun confirmed' slot' => ?_, fun still positive => ?_⟩
      · rw [target]
        exact ⟨(sound.rows row member).flushed, (sound.rows row member).resting⟩
      · obtain rfl := Option.some.inj (slot.symm.trans slot')
        exact reads
      · obtain ⟨none, drained, same⟩ := quiet still
        exact sound.quiet at_ slot target reads none drained same positive
  | @publish peek phase quiet =>
      rw [Running.AtPhase, phase] at at_
      obtain ⟨low, _, _, _, _, still⟩ := at_
      by_cases advanced : s.lastAdvance > 0
      · refine ⟨sound.publish  low (fun positive => ?_) rfl rfl rfl (if_pos advanced) (if_pos advanced)
          sound.selfFlush sound.memory, trivial⟩
        rcases still quiet positive with silent | apart
        · exact .inl silent
        · exact .inr fun row member => .inr (apart row member)
      · simp only [if_neg advanced]
        exact ⟨sound.of_phase .idle, trivial⟩
  | @nothing peek confirmed phase slot loud none =>
      rw [Running.AtPhase, phase] at at_
      obtain ⟨low, behind, within, _, reads, _⟩ := at_
      refine ⟨sound.of_phase _, ?_⟩
      by_cases drained : peek.drained = true
      · simp only [Running.AtPhase, if_pos drained]
        exact (sound.nothing low behind within (reads confirmed slot) slot none drained).of_eq rfl rfl rfl
      · simp only [Running.AtPhase, if_neg drained]
  | @apply peek confirmed flush faults cache last result phase slot final applied later written =>
      rw [Running.AtPhase, phase] at at_
      obtain ⟨low, behind, within, committed, reads, _⟩ := at_
      exact sound.apply ordered low behind within committed (reads confirmed slot) slot final applied later written rfl
  | @slotted moved next phase =>
      rw [Running.AtPhase, phase] at at_
      obtain ⟨low, absorbed, onward⟩ := at_
      refine ⟨sound.advanceSlot low absorbed _, ?_⟩
      cases next with
      | none => trivial
      | some hi => exact (onward hi rfl).of_eq rfl rfl rfl
  | @moved hi phase =>
      rw [Running.AtPhase, phase] at at_
      exact ⟨sound.advanceSlot at_.flushed at_.absorbed _, at_.of_eq rfl rfl rfl⟩
  | @advance hi flush phase later written =>
      rw [Running.AtPhase, phase] at at_
      exact sound.advance at_ later written rfl
  | @selfFlush hi phase =>
      rw [Running.AtPhase, phase] at at_
      refine ⟨sound.publish  at_.flushed (fun _ => .inl fun _ _ above => above) rfl rfl rfl rfl rfl (le_refl _)
        fun _ _ => at_.within, trivial⟩

theorem Running.Starts.settled {s : Running} (starts : s.Starts) : s.Sound stream := by
  have none : ∀ row ∈ s.views, False := fun row member => List.not_mem_nil (starts.views ▸ member)
  refine ⟨?_, fun row member => (none row member).elim, fun confirmed slot => ⟨starts.slot confirmed slot, fun row member => (none row member).elim⟩,
    fun w member => ?_, fun w some => ?_, ?_, fun positive => absurd starts.lastAdvance positive⟩
  · rw [starts.views]
    exact Keyed.nil _
  · rw [starts.published, List.mem_singleton] at member
    subst member
    exact ⟨Nat.zero_le _, fun positive => absurd rfl positive⟩
  · rw [starts.published, starts.window w some]
    exact List.mem_cons_self
  · rw [starts.selfFlush]
    exact Nat.zero_le _

theorem Running.Starts.atPhase {s : Running} (starts : s.Starts) : s.AtPhase stream := by
  rw [Running.AtPhase, starts.phase]
  trivial

theorem Running.Reachable.keeps (ordered : stream.Pairwise fun t u => t.endLsn < u.endLsn) {s : Running}
    (reached : Reachable pf settings stream s) : s.Sound stream ∧ s.AtPhase stream := by
  induction reached with
  | start starts => exact ⟨starts.settled, starts.atPhase⟩
  | step _ step ih => exact step.keeps ordered ih.1 ih.2

theorem ViewRow.Built.frontier {sight : Sight} {point : Nat} {group : List Pending} {row row' : ViewRow}
    (built : row.Built sight point group row') (after : row.frontier ≤ point) : row.frontier ≤ row'.frontier := by
  by_cases inGroup : row.id ∈ group.map Pending.id
  · rcases built.inside inGroup with ⟨view, _, _, spec, _, rfl⟩ | ⟨message, rfl⟩
    · exact after
    · exact le_refl _
  · rw [built.outside inGroup]

theorem Running.Step.frontier (ordered : stream.Pairwise fun t u => t.endLsn < u.endLsn) {s s' : Running} (step : Step pf settings stream s s')
    (sound : s.Sound stream) (at_ : s.AtPhase stream) {row row' : ViewRow} (member : row ∈ s.views) (member' : row' ∈ s'.views)
    (same : row'.id = row.id) : row.frontier ≤ row'.frontier := by
  have stood : row' ∈ s.views → row.frontier ≤ row'.frontier := fun within => (sound.ids.eq_of_mem within member same) ▸ le_refl _
  cases step with
  | session written ids rows =>
      rcases rows row' member' with ⟨before, inViews, id, frontier, _⟩ | ⟨new, _, _⟩
      · rw [← frontier, sound.ids.eq_of_mem inViews member (id.trans same)]
      · exact absurd (same ▸ List.mem_map_of_mem member) new
  | @build base point flush built sight group phase distinct after visible written =>
      rw [Running.AtPhase, phase] at at_
      obtain ⟨before, inViews, step, _⟩ := mem_of_forall₂_right (Catalog.populate_views distinct _ _) member'
      obtain rfl := sound.ids.eq_of_mem inViews member (step.id.symm.trans same)
      exact step.frontier ((at_.2.2.1 before member).trans after)
  | @apply peek confirmed flush faults cache last result phase slot final applied later written =>
      rw [Running.AtPhase, phase] at at_
      obtain ⟨cut, peeked, _⟩ := at_.2.2.2.2.1 confirmed slot
      have sorted : peek.transactions.Pairwise fun t u => t.endLsn < u.endLsn := peeked ▸ ordered.filter _
      obtain ⟨before, inViews, went⟩ := (applyRound_went sound.ids sorted applied).2 row' member'
      obtain rfl := sound.ids.eq_of_mem inViews member (went.id.symm.trans same)
      exact (went.ledger (List.pairwise_map.mpr ordered) (by rw [peeked, ends_filter]) (sound.rows before member).since
        (sound.rows before member).ends ((sound.slot confirmed slot).2 before member)).1
  | @advance hi flush phase later written =>
      obtain ⟨before, inViews, id, _, ⟨_, low, frontier⟩ | ⟨rfl, _⟩⟩ := Catalog.mem_idleAdvance member'
      · rw [frontier, ← sound.ids.eq_of_mem inViews member (id.symm.trans same)]
        exact low.le
      · exact stood inViews
  | flushed later => exact stood member'
  | failed => exact stood member'
  | restarted => exact stood member'
  | nonePending phase none => exact stood member'
  | somePending phase some => exact stood member'
  | allBuilt phase => exact stood member'
  | peek phase slot lag target reads committed quiet => exact stood member'
  | publish phase quiet => exact stood member'
  | nothing phase slot loud none => exact stood member'
  | slotted phase => exact stood member'
  | moved phase => exact stood member'
  | selfFlush phase => exact stood member'

theorem Running.Step.published {s s' : Running} (step : Step pf settings stream s s') {w : IdleWindow} (member : w ∈ s.published) :
    w ∈ s'.published := by
  cases step with
  | publish phase quiet =>
      show w ∈ ite _ _ _
      split
      · exact List.mem_cons_of_mem _ member
      · exact member
  | selfFlush phase => exact List.mem_cons_of_mem _ member
  | flushed later => exact member
  | session written ids rows => exact member
  | failed => exact member
  | restarted => exact member
  | nonePending phase none => exact member
  | somePending phase some => exact member
  | build phase distinct after visible written => exact member
  | allBuilt phase => exact member
  | peek phase slot lag target reads committed quiet => exact member
  | nothing phase slot loud none => exact member
  | apply phase slot final applied later written => exact member
  | slotted phase => exact member
  | moved phase => exact member
  | advance phase later written => exact member

theorem Running.Sound.reflects {s : Running} (sound : s.Sound stream) {window : Option IdleWindow}
    (shared : ∀ w, window = some w → w ∈ s.published) {row : ViewRow} (member : row ∈ s.views) : Reflects stream window row.frontier := by
  refine .of_window fun w some positive reached short => ?_
  rcases (sound.window w (shared w some)).2 positive with silent | apart
  · exact silent
  · rcases apart row member with past | ⟨_, before⟩
    · exact absurd short (not_lt.mpr past)
    · exact absurd reached (not_le.mpr before)

theorem Running.Step.reflects {s s' : Running} (step : Step pf settings stream s s') (at_ : s.AtPhase stream) {frontier : Nat}
    (reflects : Reflects stream s.window frontier) {row : ViewRow} (member : row ∈ s.views) (low : frontier ≤ row.frontier) :
    Reflects stream s'.window frontier := by
  cases step with
  | @publish peek phase quiet =>
      rw [Running.AtPhase, phase] at at_
      show Reflects stream (ite _ _ _) frontier
      split
      · rename_i positive
        refine .of_window fun w some _ reached short => ?_
        obtain ⟨_, _, rfl⟩ := Option.map_eq_some_iff.mp some
        rcases at_.2.2.2.2.2 quiet positive.ne' with silent | apart
        · exact silent
        · exact absurd reached (not_le.mpr (low.trans_lt (apart row member).2))
      · exact reflects
  | selfFlush phase =>
      refine .of_window fun w some _ _ _ => ?_
      obtain ⟨_, _, rfl⟩ := Option.map_eq_some_iff.mp some
      exact fun _ _ above => above
  | flushed later => exact reflects
  | session written ids rows => exact reflects
  | failed => exact reflects
  | restarted => exact reflects
  | nonePending phase none => exact reflects
  | somePending phase some => exact reflects
  | build phase distinct after visible written => exact reflects
  | allBuilt phase => exact reflects
  | peek phase slot lag target reads committed quiet => exact reflects
  | nothing phase slot loud none => exact reflects
  | apply phase slot final applied later written => exact reflects
  | slotted phase => exact reflects
  | moved phase => exact reflects
  | advance phase later written => exact reflects

theorem Running.Later.keeps (ordered : stream.Pairwise fun t u => t.endLsn < u.endLsn) {s s' : Running} (later : Later pf settings stream s s')
    (sound : s.Sound stream) (at_ : s.AtPhase stream) :
    s'.Sound stream ∧ s'.AtPhase stream ∧ ∀ w ∈ s.published, w ∈ s'.published := by
  induction later with
  | refl => exact ⟨sound, at_, fun _ member => member⟩
  | step _ step ih =>
      obtain ⟨sound', at'⟩ := step.keeps ordered ih.1 ih.2.1
      exact ⟨sound', at', fun w member => step.published (ih.2.2 w member)⟩

theorem Running.While.reflects (ordered : stream.Pairwise fun t u => t.endLsn < u.endLsn) {s s' : Running} {row : ViewRow}
    (later : While pf settings stream row.id s s') (sound : s.Sound stream) (at_ : s.AtPhase stream) (member : row ∈ s.views) :
    s'.Sound stream ∧ s'.AtPhase stream ∧ Reflects stream s'.window row.frontier ∧
      ∃ row' ∈ s'.views, row'.id = row.id ∧ row.frontier ≤ row'.frontier := by
  induction later with
  | refl => exact ⟨sound, at_, sound.reflects sound.current member, row, member, rfl, le_refl _⟩
  | step _ step there ih =>
      obtain ⟨sound₁, at₁, reflects, row₁, member₁, same, low⟩ := ih
      obtain ⟨sound₂, at₂⟩ := step.keeps ordered sound₁ at₁
      obtain ⟨row₂, member₂, same₂⟩ := List.mem_map.mp there
      refine ⟨sound₂, at₂, step.reflects at₁ reflects member₁ low, row₂, member₂, same₂, ?_⟩
      exact low.trans (step.frontier ordered sound₁ at₁ member₁ member₂ (same₂.trans same.symm))

/-- What a view had absorbed at `s`: it was populated with the transaction or took it from the slot. -/
def Running.Has (s : Running) (id : Nat) (tx : SourceTransaction) : Prop :=
  tx.endLsn ≤ (s.ledger id).since ∨ tx.endLsn ∈ (s.ledger id).ends

theorem Running.Sound.has {s : Running} (sound : s.Sound stream) {row : ViewRow} (member : row ∈ s.views) {tx : SourceTransaction}
    (inStream : tx ∈ stream) (low : tx.endLsn ≤ row.frontier) : s.Has row.id tx := by
  by_cases old : tx.endLsn ≤ (s.ledger row.id).since
  · exact .inl old
  · refine .inr ?_
    rw [(sound.rows row member).ends]
    exact mem_window.mpr ⟨List.mem_map_of_mem inStream, not_le.mp old, low⟩

theorem Reflects.waited {window : Option IdleWindow} {s : Running} (sound : s.Sound stream) {row : ViewRow} (member : row ∈ s.views)
    (reflects : Reflects stream window row.frontier) {target : Nat} (done : waitForFrontier row window target = .ok true) :
    ∀ tx ∈ stream, tx.endLsn ≤ target → s.Has row.id tx := by
  have reached : target ≤ effectiveFrontier window row.frontier := by
    unfold waitForFrontier at done
    cases status : row.status with
    | stale => simp only [status, reduceCtorEq] at done
    | failed => simp only [status, reduceCtorEq] at done
    | initializing => simpa only [status, Except.ok.injEq, decide_eq_true_eq] using done
    | refreshing => simpa only [status, Except.ok.injEq, decide_eq_true_eq] using done
    | live => simpa only [status, Except.ok.injEq, decide_eq_true_eq] using done
  intro tx inStream low
  refine sound.has member inStream (not_lt.mp fun above => ?_)
  exact absurd (low.trans reached) (not_le.mpr (reflects tx inStream above))

/-- `wait_for` is sound: whichever of the frontier and the window is read first, nothing was
published between the frontier and what the window makes of it, and when `wait_for` says so
the view had absorbed every transaction up to the target. -/
theorem Running.Reachable.read_your_writes (ordered : stream.Pairwise fun t u => t.endLsn < u.endLsn) {s : Running}
    (reached : Reachable pf settings stream s) :
    (∀ row ∈ s.views, ∀ s', While pf settings stream row.id s s' →
      (∀ tx ∈ stream, ¬ (row.frontier < tx.endLsn ∧ tx.endLsn ≤ effectiveFrontier s'.window row.frontier)) ∧
      ∀ target, waitForFrontier row s'.window target = .ok true → ∀ tx ∈ stream, tx.endLsn ≤ target → s.Has row.id tx) ∧
    ∀ s', Later pf settings stream s s' → ∀ row ∈ s'.views,
      (∀ tx ∈ stream, ¬ (row.frontier < tx.endLsn ∧ tx.endLsn ≤ effectiveFrontier s.window row.frontier)) ∧
      ∀ target, waitForFrontier row s.window target = .ok true → ∀ tx ∈ stream, tx.endLsn ≤ target → s'.Has row.id tx := by
  obtain ⟨sound, at_⟩ := reached.keeps ordered
  constructor
  · intro row member s' later
    obtain ⟨_, _, reflects, _⟩ := later.reflects ordered sound at_ member
    refine ⟨fun tx inStream inside => ?_, fun target done => reflects.waited sound member done⟩
    exact absurd inside.2 (not_le.mpr (reflects tx inStream inside.1))
  · intro s' later row member
    obtain ⟨sound', _, published⟩ := later.keeps ordered sound at_
    have reflects : Reflects stream s.window row.frontier :=
      sound'.reflects (fun w some => published w (sound.current w some)) member
    refine ⟨fun tx inStream inside => ?_, fun target done => reflects.waited sound' member done⟩
    exact absurd inside.2 (not_le.mpr (reflects tx inStream inside.1))

theorem loadPending_live {c : Catalog} (live : c.views.map ViewRow.status = [.live]) : c.loadPending = [] := by
  have none : (c.views.filter fun row => row.status = .initializing ∨ row.status = .refreshing) = [] := by
    refine List.filter_eq_nil_iff.mpr fun row member => ?_
    have listed := List.mem_map_of_mem (f := ViewRow.status) member
    rw [live, List.mem_singleton] at listed
    rw [listed]
    decide
  rw [Catalog.loadPending, none, List.mergeSort_nil]
  rfl

def shopSight : Sight := ⟨fun _ => ⟨[], []⟩, fun message => .error message, fun _ => none⟩

def shopCreated : ViewRow := { shopView 0 [] with status := .initializing, populated := false }

/-- The window of an idle worker takes a frontier of 6 to 8: what ended at 3 is in the snapshot. -/
theorem shop_read_your_writes : ∃ (s : Running) (row : ViewRow), row ∈ s.views ∧ row.frontier = 6 ∧
    waitForFrontier row s.window 8 = .ok true ∧ s.Has 7 { shopDecoded .null with endLsn := 3 } := by
  let stream : List SourceTransaction := [{ shopDecoded .null with endLsn := 3 }]
  let start : Running := ⟨⟨⟨[], [], []⟩, some 4⟩, 4, 0, 0, some ⟨0, 0⟩, .idle, [⟨0, 0⟩], fun _ => ⟨0, []⟩⟩
  have reads : ∀ confirmed target quiet, 4 ≤ confirmed → Peek.Reads stream confirmed ⟨0, target, [], true, quiet⟩ := by
    intro confirmed target quiet after
    refine ⟨max target confirmed, ?_, fun _ => le_max_left _ _⟩
    refine (List.filter_eq_nil_iff.mpr fun tx member => ?_).symm
    obtain rfl := List.mem_singleton.mp member
    rw [Bool.and_eq_true, decide_eq_true_eq, decide_eq_true_eq]
    exact fun inside => absurd (inside.1.trans_le (show 3 ≤ 4 by decide)) (not_lt.mpr after)
  have started : Running.Reachable .basic shopSettings stream start :=
    .start ⟨rfl, by rintro _ ⟨⟩; exact le_refl _, rfl, rfl, by rintro _ ⟨⟩; rfl, rfl, rfl⟩
  have created := started.step (@Running.Step.session _ _ _ start ⟨[shopCreated], [(7, 1), (7, 2)], []⟩ 5 (by decide)
    (show [7].Nodup by decide) fun row' member => by
      obtain rfl := List.mem_singleton.mp member
      exact .inr ⟨List.not_mem_nil, rfl, rfl⟩)
  have pending := created.step (.somePending rfl fun none => loadPending_nil none shopCreated List.mem_cons_self (.inl rfl))
  have built := pending.step (@Running.Step.build _ _ _ _ 5 5 6 false shopSight [shopCreated.pending] rfl (show [7].Nodup by decide)
    (by decide) (by decide) (by decide))
  have peeked := (built.step (.allBuilt rfl)).step (@Running.Step.peek _ _ _ _ 4 ⟨0, 6, [], true, false⟩ rfl rfl (by decide) rfl
    (reads 4 6 false (le_refl _)) (fun _ member => absurd member List.not_mem_nil) nofun)
  have moved := (peeked.step (.nothing rfl rfl rfl rfl)).step (.moved rfl)
  have advanced := (moved.step (@Running.Step.advance _ _ _ _ 6 8 rfl (by decide) fun _ => by decide)).step (.selfFlush rfl)
  have again := (advanced.step (.nonePending rfl (loadPending_live rfl))).step
    (@Running.Step.peek _ _ _ _ 6 ⟨0, 8, [], true, true⟩ rfl rfl (by decide) rfl (reads 6 8 true (by decide))
      (fun _ member => absurd member List.not_mem_nil) fun _ => ⟨rfl, rfl, rfl⟩)
  have shared := again.step (.publish rfl rfl)
  obtain ⟨s, reached, views, window⟩ : ∃ s, Running.Reachable .basic shopSettings stream s ∧
      (s.views.map fun row => (row.id, row.frontier, row.status)) = [(7, 6, .live)] ∧ s.window = some ⟨6, 8⟩ := ⟨_, shared, rfl, rfl⟩
  cases listed : s.views with
  | nil =>
      rw [listed] at views
      exact absurd views (by simp only [List.map_nil, reduceCtorEq, not_false_iff])
  | cons row rows =>
      rw [listed, List.map_cons] at views
      obtain ⟨id, rest⟩ := Prod.mk.inj (List.cons.inj views).1
      obtain ⟨frontier, status⟩ := Prod.mk.inj rest
      have member : row ∈ s.views := listed ▸ List.mem_cons_self
      have waited : waitForFrontier row s.window 8 = .ok true := by
        simp only [waitForFrontier, status, window, effectiveFrontier, frontier]
        decide
      refine ⟨s, row, member, frontier, waited, id ▸ ?_⟩
      exact ((reached.read_your_writes (List.pairwise_singleton _ _)).1 row member s .refl).2 8 waited _ List.mem_cons_self (by decide)

end Nabla
