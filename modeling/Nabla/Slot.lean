import Nabla.Worker

/-! The rounds of the worker and the replication slot. Slot changes take effect at
once, catalog changes when their transaction commits, so a round is the list of the
durable states it goes through: a crash leaves one of them. -/
namespace Nabla

/-- What survives a crash of the worker: the committed catalog, and the confirmed
position of the slot when it exists. -/
structure Durable where
  catalog : Catalog
  slot : Option Nat

/-- What a round finds: the slot's lag, the flush position, the complete transactions
of the peek, whether it returned fewer rows than the limit, and whether it returned
none and nothing was written since the last idle advance. -/
structure Peek where
  lag : Int
  target : Nat
  transactions : List SourceTransaction
  drained : Bool
  quiet : Bool

/-- `advance_slot`: `GREATEST(lsn, confirmed_flush_lsn)`. -/
def Durable.advanceSlot (d : Durable) (lsn : Nat) : Durable := { d with slot := d.slot.map fun c => max lsn c }

/-- The idle advance: live views and maintained shadows move to `frontier`. -/
def Catalog.idleAdvance (c : Catalog) (frontier : Nat) : Catalog :=
  { c with
    views := c.views.map fun row =>
      if row.status = .live && decide (row.frontier < frontier) then { row with frontier := frontier } else row
    shadows := c.shadows.map (advanceShadow frontier) }

def lagReason : String := "replication slot lag exceeded nabla.max_slot_lag_bytes; slot dropped"

/-- The lag path: every live view goes stale. -/
def Catalog.markLagged (c : Catalog) : Catalog :=
  { c with views := c.views.map fun row =>
      if row.status = .live then { row with status := .stale, staleReason := some lagReason } else row }

/-- The end of a round that was not blocked: the slot and, in the same transaction, the
frontiers move on when the peek was drained. -/
def Durable.idle (d : Durable) (peek : Peek) (lastEnd : Nat) : List Durable :=
  if peek.drained then
    let frontier := max peek.target lastEnd
    let advanced := d.advanceSlot frontier
    [advanced, { advanced with catalog := d.catalog.idleAdvance frontier }]
  else []

/-- `run_round` from the slot check on: the durable states it goes through. -/
def runRound (pf : Platform) (settings : Settings) (faults : Faults) (cache : Nat → Option Relation) (peek : Peek)
    (d : Durable) : List Durable :=
  match d.slot with
  | none => []
  | some confirmed =>
    if settings.maxSlotLagBytes < peek.lag then
      [{ d with slot := none }, { catalog := d.catalog.markLagged, slot := none }]
    else if peek.quiet then []
    else match peek.transactions.getLast? with
      | none => d.idle peek confirmed
      | some last =>
        match applyRound pf settings faults cache d.catalog peek.transactions with
        | .error _ => []
        | .ok result =>
          let committed := { d with catalog := result.catalog }
          match result.blockedAt with
          | some 0 => [committed]
          | some (k + 1) =>
            -- the healthy views skip the replay through their frontier
            committed :: ((peek.transactions[k]?).map fun tx => committed.advanceSlot tx.endLsn).toList
          | none =>
            let lastEnd := max confirmed last.endLsn
            let advanced := committed.advanceSlot lastEnd
            committed :: advanced :: advanced.idle peek lastEnd

theorem Catalog.idleAdvance_ids (c : Catalog) (f : Nat) :
    (c.idleAdvance f).views.map ViewRow.id = c.views.map ViewRow.id := by
  rw [Catalog.idleAdvance, List.map_map]
  apply List.map_congr_left
  intro row _
  rw [Function.comp_apply]
  split <;> rfl

theorem Catalog.idleAdvance_row {c : Catalog} {f : Nat} {row' : ViewRow} (member : row' ∈ (c.idleAdvance f).views) :
    ∃ row ∈ c.views, (row' = row ∧ (row.status = .live → f ≤ row.frontier)) ∨
      (row' = { row with frontier := f } ∧ row.status = .live ∧ row.frontier < f) := by
  obtain ⟨row, inViews, rfl⟩ := List.mem_map.mp member
  refine ⟨row, inViews, ?_⟩
  by_cases moves : (row.status = .live && decide (row.frontier < f)) = true
  · rw [if_pos moves]
    rw [Bool.and_eq_true, decide_eq_true_eq, decide_eq_true_eq] at moves
    exact Or.inr ⟨rfl, moves⟩
  · rw [if_neg moves]
    rw [Bool.and_eq_true, decide_eq_true_eq, decide_eq_true_eq, not_and] at moves
    exact Or.inl ⟨rfl, fun live => Nat.not_lt.mp (moves live)⟩

theorem endLsn_le_last {txs : List SourceTransaction} (sorted : txs.Pairwise fun t u => t.endLsn < u.endLsn) {last : SourceTransaction}
    (final : txs.getLast? = some last) : ∀ tx ∈ txs, tx.endLsn ≤ last.endLsn := by
  obtain ⟨init, rfl⟩ := List.getLast?_eq_some_iff.mp final
  intro tx member
  rcases List.mem_append.mp member with earlier | same
  · exact ((List.pairwise_append.mp sorted).2.2 tx earlier last List.mem_cons_self).le
  · rw [List.mem_singleton.mp same]

end Nabla
