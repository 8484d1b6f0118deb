import Nabla.Slot
import Nabla.Standing

/-! A peek that ends inside a transaction: the decoder drops the open transaction, and the
round must not move anything past it. -/
namespace Nabla
open Bags

variable {pf : Platform} {settings : Settings} {faults : Faults}

/-- One peek as it came back: the slot's lag, the flush position, the rows, how many rows
were asked for, and the flush position right after the last idle advance. -/
structure Polled where
  lag : Int
  target : Nat
  rows : List Message
  batchChanges : Nat
  selfFlush : Nat

def Polled.drained (p : Polled) : Bool := p.rows.length < max p.batchChanges 1

def Polled.peek (p : Polled) (txs : List SourceTransaction) : Peek where
  lag := p.lag
  target := p.target
  transactions := txs
  drained := p.drained
  quiet := p.rows.isEmpty && decide (p.target = p.selfFlush)

/-- The decoder when the rows have been fed: an open transaction is discarded, the complete
ones are taken. -/
def Decoder.drain (d : Decoder) : List SourceTransaction × Decoder :=
  (if d.hasIncomplete then d.discardIncomplete else d).takeComplete

/-- `run_round` from the slot check on, with the rows of its peek. -/
def pollRound (pf : Platform) (settings : Settings) (faults : Faults) (p : Polled) (fed : Decoder) (s : Durable) : List Durable :=
  runRound pf settings faults fed.drain.2.relations (p.peek fed.drain.1) s

/-- The end of the last transaction that was completely decoded, or where the slot stood. -/
def Decoder.reached (fed : Decoder) (confirmed : Nat) : Nat :=
  max confirmed ((fed.complete.getLast?.map SourceTransaction.endLsn).getD confirmed)

structure Durable.Within (reached : Nat) (s s' : Durable) : Prop where
  slot : ∀ position, s'.slot = some position → position ≤ reached
  views : ∀ row' ∈ s'.catalog.views, row'.frontier ≤ reached ∨ ∃ row ∈ s.catalog.views, row.id = row'.id ∧ row.frontier = row'.frontier
  shadows : ∀ shadow' ∈ s'.catalog.shadows, shadow'.frontier ≤ reached ∨
    ∃ shadow ∈ s.catalog.shadows, shadow.relid = shadow'.relid ∧ shadow.frontier = shadow'.frontier

/-- What was not completely decoded ends past that position, so the slot sends it again and
whatever had not absorbed it still has to. -/
theorem Durable.Within.reread {reached : Nat} {s s' : Durable} (within : s.Within reached s') {discarded : SourceTransaction}
    (later : reached < discarded.endLsn) : (∀ position, s'.slot = some position → position < discarded.endLsn) ∧
      ∀ row' ∈ s'.catalog.views, discarded.endLsn ≤ row'.frontier →
        ∃ row ∈ s.catalog.views, row.id = row'.id ∧ discarded.endLsn ≤ row.frontier := by
  refine ⟨fun position at_ => Nat.lt_of_le_of_lt (within.slot position at_) later, fun row' member past => ?_⟩
  rcases within.views row' member with before | ⟨row, inViews, id, same⟩
  · omega
  · exact ⟨row, inViews, id, same ▸ past⟩

/-- A shadow stands where it stood, or at the end of a transaction of the peek. -/
def ShadowRow.MovedTo (ends : List Nat) (s s' : ShadowRow) : Prop :=
  s'.relid = s.relid ∧ (s'.frontier = s.frontier ∨ s'.frontier ∈ ends)

theorem ShadowRow.MovedTo.refl (ends : List Nat) (s : ShadowRow) : s.MovedTo ends s := ⟨rfl, .inl rfl⟩

theorem ShadowRow.MovedTo.trans {ends : List Nat} {s s' s'' : ShadowRow} (first : s.MovedTo ends s') (second : s'.MovedTo ends s'') :
    s.MovedTo ends s'' := by
  refine ⟨second.1.trans first.1, ?_⟩
  rcases second.2 with same | moved
  · rw [same]
    exact first.2
  · exact .inr moved

theorem applyChanges_moved {ends : List Nat} {rels : List (Nat × Relation)} {e position : Nat} {changes : List Change} {st st' : RoundState}
    (applied : applyChanges pf faults rels e position changes st = .ok st') :
    List.Forall₂ (ShadowRow.MovedTo ends) st.shadows st'.shadows := by
  refine applyChanges_rule (P := fun st st' => List.Forall₂ (ShadowRow.MovedTo ends) st.shadows st'.shadows) ?_ ?_ ?_ applied
  · exact fun st => List.forall₂_same.mpr fun s _ => .refl ends s
  · exact fun first second => forall₂_trans (fun _ _ _ => .trans) first second
  · intro position relid change st st' step
    obtain ⟨rel, _, outcome⟩ := applyRelid_ok step
    cases outcome with
    | unread => exact List.forall₂_same.mpr fun s _ => .refl ends s
    | absorbed => exact updateShadow_related (.refl ends) relid (fun s _ => ⟨rfl, .inl rfl⟩) _
    | lost => exact updateShadow_related (.refl ends) relid (fun s _ => ⟨rfl, .inl rfl⟩) _

theorem advanceShadow_moved {ends : List Nat} {e : Nat} (among : e ∈ ends) (s : ShadowRow) : s.MovedTo ends (advanceShadow e s) := by
  unfold advanceShadow
  split
  · exact ⟨rfl, .inr among⟩
  · exact .refl ends s

theorem applyTransactions_moved {ends : List Nat} {rels : List (Nat × Relation)} {ti : Nat} {txs : List SourceTransaction}
    {st st' : RoundState} {blockedAt : Option Nat} (within : ∀ tx ∈ txs, tx.endLsn ∈ ends)
    (ran : applyTransactions pf settings faults rels ti txs st = .ok (st', blockedAt)) :
    List.Forall₂ (ShadowRow.MovedTo ends) st.shadows st'.shadows := by
  induction txs generalizing ti st blockedAt with
  | nil =>
      obtain ⟨rfl, rfl⟩ := Prod.mk.inj (Except.ok.inj ran)
      exact List.forall₂_same.mpr fun s _ => .refl ends s
  | cons tx txs ih =>
      rw [Nabla.applyTransactions] at ran
      cases first : applyTransaction pf settings faults rels tx st with
      | error message => simp only [first, reduceCtorEq] at ran
      | ok step =>
          obtain ⟨st₁, blocked⟩ := step
          simp only [first] at ran
          obtain ⟨r, rest, same⟩ := ok_of_map ran
          obtain ⟨rfl, _⟩ := Prod.mk.inj same
          unfold applyTransaction at first
          obtain ⟨between, changed, same'⟩ := ok_of_map first
          obtain ⟨rfl, _⟩ := Prod.mk.inj same'
          have advanced : List.Forall₂ (ShadowRow.MovedTo ends) between.shadows (between.shadows.map (advanceShadow tx.endLsn)) :=
            forall₂_map_right _ fun s _ => advanceShadow_moved (within tx List.mem_cons_self) s
          have later := ih (fun other member => within other (List.mem_cons_of_mem tx member)) rest
          exact forall₂_trans (fun _ _ _ => .trans) (applyChanges_moved changed) (forall₂_trans (fun _ _ _ => .trans) advanced later)

theorem foldl_driftRelation_moved (ends : List Nat) (roundEnd : Nat) (rels : List (Nat × Relation)) (st : RoundState) :
    List.Forall₂ (ShadowRow.MovedTo ends) st.shadows (rels.foldl (driftRelation roundEnd) st).shadows := by
  induction rels generalizing st with
  | nil => exact List.forall₂_same.mpr fun s _ => .refl ends s
  | cons described rels ih =>
      refine forall₂_trans (fun _ _ _ => .trans) ?_ (ih _)
      refine updateShadow_related (.refl ends) _ (fun s _ => ?_) _
      split
      · exact ⟨(shadowDrift_stands s _ _).relid, .inl (shadowDrift_frontier s _ _)⟩
      · exact .refl ends s

theorem applyRound_moved {cache : Nat → Option Relation} {c : Catalog} {txs : List SourceTransaction} {result : RoundResult}
    (applied : applyRound pf settings faults cache c txs = .ok result) :
    List.Forall₂ (ShadowRow.MovedTo (txs.map SourceTransaction.endLsn)) c.shadows result.catalog.shadows := by
  unfold applyRound at applied
  cases collected : collectRelations pf (changedRelids txs) cache [] with
  | error message => simp only [collected, reduceCtorEq] at applied
  | ok described =>
      simp only [collected] at applied
      split at applied
      · simp only [reduceCtorEq] at applied
      · rename_i st blockedAt ran
        obtain ⟨written, _, rfl⟩ := ok_of_map applied
        have moved := applyTransactions_moved (fun tx member => List.mem_map_of_mem (f := SourceTransaction.endLsn) member) ran
        exact forall₂_trans (fun _ _ _ => .trans) (foldl_driftRelation_moved _ _ described.2 ⟨c.liveViews, c.shadows⟩) moved

theorem applyRound_within {cache : Nat → Option Relation} {c : Catalog} {txs : List SourceTransaction} {result : RoundResult}
    {last : SourceTransaction} (ids : Keyed ViewRow.id c.views) (ordered : txs.Pairwise fun t u => t.endLsn < u.endLsn)
    (final : txs.getLast? = some last) (applied : applyRound pf settings faults cache c txs = .ok result) {position confirmed : Nat}
    (kept : position ≤ max confirmed last.endLsn) :
    Durable.Within (max confirmed last.endLsn) ⟨c, some confirmed⟩ ⟨result.catalog, some position⟩ where
  slot := fun p same => Option.some.inj same ▸ kept
  views := by
    intro row' member
    obtain ⟨row, before, went⟩ := (applyRound_went ids ordered applied).2 row' member
    by_cases live : row.status = .live
    · obtain ⟨n, _, absorbed, frontier, _⟩ := went.through live
      cases through : (result.absorbed row.id).getLast? with
      | none =>
          rw [through] at frontier
          exact .inr ⟨row, before, went.id.symm, frontier.symm⟩
      | some e =>
          rw [through] at frontier
          have among : e ∈ txs.map SourceTransaction.endLsn := by
            have inAbsorbed := List.mem_of_getLast? through
            rw [absorbed] at inAbsorbed
            exact List.mem_of_mem_take (List.mem_filter.mp inAbsorbed).1
          obtain ⟨tx, inPeek, rfl⟩ := List.mem_map.mp among
          have bound := endLsn_le_last ordered final tx inPeek
          rw [Option.getD_some] at frontier
          left
          omega
    · rw [(went.other live).1]
      exact .inr ⟨row, before, rfl, rfl⟩
  shadows := by
    intro shadow' member
    obtain ⟨shadow, before, relid, same | moved⟩ := mem_of_forall₂_right (applyRound_moved applied) member
    · exact .inr ⟨shadow, before, relid.symm, same.symm⟩
    · obtain ⟨tx, inPeek, eq⟩ := List.mem_map.mp moved
      have bound := endLsn_le_last ordered final tx inPeek
      left
      omega

/-- An idle advance that goes no further than `reached`. -/
theorem Durable.Within.idle {reached confirmed position frontier : Nat} {c c' : Catalog} (bound : frontier ≤ reached)
    (within : Durable.Within reached ⟨c, some confirmed⟩ ⟨c', some position⟩) :
    Durable.Within reached ⟨c, some confirmed⟩ ⟨c'.idleAdvance frontier, some position⟩ where
  slot := within.slot
  views := by
    intro row'' member
    obtain ⟨row', before, rfl⟩ := List.mem_map.mp member
    split
    · exact .inl bound
    · exact within.views row' before
  shadows := by
    intro shadow'' member
    obtain ⟨shadow', before, rfl⟩ := List.mem_map.mp member
    unfold advanceShadow
    split
    · exact .inl bound
    · exact within.shadows shadow' before

theorem Decoder.drain_eq (fed : Decoder) : fed.drain = (fed.complete, ⟨fed.relations, none, []⟩) := by
  unfold Decoder.drain Decoder.hasIncomplete
  obtain ⟨relations, current, complete⟩ := fed
  cases current <;> rfl

/-- The round gets as far as its end: the slot does not lag too much, and the complete
transactions are applied without one that a view has to retry. -/
def Polled.Advances (pf : Platform) (settings : Settings) (faults : Faults) (p : Polled) (fed : Decoder) (s : Durable) : Prop :=
  p.lag ≤ settings.maxSlotLagBytes ∧
    (fed.complete = [] ∨ ∃ result, applyRound pf settings faults fed.relations s.catalog fed.complete = .ok result ∧ result.blockedAt = none)

theorem Durable.Within.refl {confirmed reached : Nat} (c : Catalog) (bound : confirmed ≤ reached) :
    Durable.Within reached ⟨c, some confirmed⟩ ⟨c, some confirmed⟩ :=
  ⟨fun _ same => Option.some.inj same ▸ bound, fun row member => .inr ⟨row, member, rfl, rfl⟩,
    fun shadow member => .inr ⟨shadow, member, rfl, rfl⟩⟩

/-- The end of a round: it moves past the decoded transactions exactly when it finds the
peek drained and the target beyond them. -/
theorem Durable.Within.idle_states {reached confirmed position lastEnd : Nat} {c c' : Catalog} {peek : Peek}
    (within : Durable.Within reached ⟨c, some confirmed⟩ ⟨c', some position⟩) (last : lastEnd ≤ reached)
    (bound : peek.drained = true → peek.target ≤ reached) :
    ∀ s' ∈ Durable.idle ⟨c', some position⟩ peek lastEnd, Durable.Within reached ⟨c, some confirmed⟩ s' := by
  intro s' state
  unfold Durable.idle at state
  split at state
  · rename_i drained
    have frontier : max peek.target lastEnd ≤ reached := max_le (bound drained) last
    have moved : Durable.Within reached ⟨c, some confirmed⟩ ⟨c', some (max (max peek.target lastEnd) position)⟩ :=
      ⟨fun p same => Option.some.inj same ▸ max_le frontier (within.slot position rfl), within.views, within.shadows⟩
    rcases List.mem_cons.mp state with rfl | state
    · exact moved
    · obtain rfl := List.mem_singleton.mp state
      exact moved.idle frontier
  · exact absurd state List.not_mem_nil

theorem Decoder.reached_of_last {fed : Decoder} {last : SourceTransaction} (final : fed.complete.getLast? = some last) (confirmed : Nat) :
    fed.reached confirmed = max confirmed last.endLsn := by
  rw [Decoder.reached, final]
  rfl

theorem pollRound_within {p : Polled} {fed : Decoder} {c : Catalog} {confirmed : Nat} (ids : Keyed ViewRow.id c.views)
    (ordered : fed.complete.Pairwise fun t u => t.endLsn < u.endLsn)
    (bound : p.Advances pf settings faults fed ⟨c, some confirmed⟩ → p.drained = true → p.target ≤ fed.reached confirmed) :
    ∀ s' ∈ pollRound pf settings faults p fed ⟨c, some confirmed⟩, Durable.Within (fed.reached confirmed) ⟨c, some confirmed⟩ s' := by
  intro s' state
  rw [pollRound, fed.drain_eq] at state
  by_cases lag : settings.maxSlotLagBytes < p.lag
  · have gone : ∀ c' : Catalog, c'.views.map (fun row => (row.id, row.frontier)) = c.views.map (fun row => (row.id, row.frontier)) →
        c'.shadows = c.shadows → Durable.Within (fed.reached confirmed) ⟨c, some confirmed⟩ ⟨c', none⟩ := by
      intro c' views shadows
      refine ⟨fun _ gone => absurd gone (Option.some_ne_none _).symm, fun row' member => .inr ?_, fun shadow' member => .inr ?_⟩
      · obtain ⟨row, before, same⟩ := List.mem_map.mp (views ▸ List.mem_map_of_mem (f := fun row : ViewRow => (row.id, row.frontier)) member)
        exact ⟨row, before, (Prod.mk.inj same).1, (Prod.mk.inj same).2⟩
      · exact ⟨shadow', shadows ▸ member, rfl, rfl⟩
    dsimp only [runRound] at state
    rw [if_pos (show settings.maxSlotLagBytes < (p.peek fed.complete).lag from lag)] at state
    simp only [List.mem_cons, List.not_mem_nil, or_false] at state
    rcases state with rfl | rfl
    · exact gone c rfl rfl
    · refine gone _ ?_ rfl
      rw [Catalog.markLagged, List.map_map]
      refine List.map_congr_left fun row _ => ?_
      rw [Function.comp_apply]
      split <;> rfl
  · rcases mem_runRound (not_lt.mp lag) state with ⟨nothing, state⟩ | ⟨last, result, final, applied, states⟩
    · have advances : p.Advances pf settings faults fed ⟨c, some confirmed⟩ := ⟨not_lt.mp lag, .inl nothing⟩
      have low : confirmed ≤ fed.reached confirmed := le_max_left _ _
      exact (Durable.Within.refl c low).idle_states low (bound advances) s' state
    · rw [fed.reached_of_last final] at bound ⊢
      have kept : ∀ position, position ≤ max confirmed last.endLsn →
          Durable.Within (max confirmed last.endLsn) ⟨c, some confirmed⟩ ⟨result.catalog, some position⟩ :=
        fun _ => applyRound_within ids ordered final applied
      cases states with
      | committed => exact kept confirmed (le_max_left _ _)
      | held blocked before =>
          exact kept _ (max_le (le_trans (endLsn_le_last ordered final _ (List.mem_of_getElem? before)) (le_max_right _ _)) (le_max_left _ _))
      | advanced free => exact kept _ (max_le (le_refl _) (le_max_left _ _))
      | idle free state =>
          have advances : p.Advances pf settings faults fed ⟨c, some confirmed⟩ := ⟨not_lt.mp lag, .inr ⟨result, applied, free⟩⟩
          exact (kept _ (max_le (le_refl _) (le_max_left _ _))).idle_states (le_refl _) (bound advances) s' state

/-- Where the round gets to its end with a drained peek, the slot stands at the target or
past it. -/
theorem pollRound_reaches {p : Polled} {fed : Decoder} {c : Catalog} {confirmed : Nat} (rows : p.rows ≠ [])
    (advances : p.Advances pf settings faults fed ⟨c, some confirmed⟩) (drained : p.drained = true) :
    ∃ s' ∈ pollRound pf settings faults p fed ⟨c, some confirmed⟩, ∃ position, s'.slot = some position ∧ p.target ≤ position := by
  obtain ⟨lag, outcome⟩ := advances
  have loud : (p.peek fed.complete).quiet = false := by
    rw [Polled.peek, List.isEmpty_eq_false_iff.mpr rows, Bool.false_and]
  have moves : ∀ (c' : Catalog) (position lastEnd : Nat), (⟨c', some (max (max p.target lastEnd) position)⟩ : Durable) ∈
      Durable.idle ⟨c', some position⟩ (p.peek fed.complete) lastEnd := by
    intro c' position lastEnd
    rw [Durable.idle, if_pos (show (p.peek fed.complete).drained = true from drained)]
    exact List.mem_cons_self
  rw [pollRound, fed.drain_eq]
  rcases outcome with nothing | ⟨result, applied, free⟩
  · refine ⟨⟨c, some (max (max p.target confirmed) confirmed)⟩, ?_, _, rfl, le_trans (le_max_left _ confirmed) (le_max_left _ confirmed)⟩
    have state := moves c confirmed confirmed
    simp only [runRound, if_neg (not_lt.mpr (show (p.peek fed.complete).lag ≤ settings.maxSlotLagBytes from lag)), loud,
      Bool.false_eq_true, if_false, show (p.peek fed.complete).transactions.getLast? = none by
        rw [show (p.peek fed.complete).transactions = fed.complete from rfl, nothing]; rfl]
    exact state
  · cases final : fed.complete.getLast? with
    | none =>
        have nothing := List.getLast?_eq_none_iff.mp final
        refine ⟨⟨c, some (max (max p.target confirmed) confirmed)⟩, ?_, _, rfl, le_trans (le_max_left _ confirmed) (le_max_left _ confirmed)⟩
        have state := moves c confirmed confirmed
        simp only [runRound, if_neg (not_lt.mpr (show (p.peek fed.complete).lag ≤ settings.maxSlotLagBytes from lag)), loud,
          Bool.false_eq_true, if_false, show (p.peek fed.complete).transactions.getLast? = none from final]
        exact state
    | some last =>
        refine ⟨⟨result.catalog, some (max (max p.target (max confirmed last.endLsn)) (max (max confirmed last.endLsn) confirmed))⟩, ?_, _, rfl,
          le_trans (le_max_left _ (max confirmed last.endLsn)) (le_max_left _ (max (max confirmed last.endLsn) confirmed))⟩
        have state := moves result.catalog (max (max confirmed last.endLsn) confirmed) (max confirmed last.endLsn)
        simp only [runRound, if_neg (not_lt.mpr (show (p.peek fed.complete).lag ≤ settings.maxSlotLagBytes from lag)), loud,
          Bool.false_eq_true, if_false, show (p.peek fed.complete).transactions = fed.complete from rfl, final, applied, free]
        exact List.mem_cons_of_mem _ (List.mem_cons_of_mem _ state)

/-- When the decoder was left with an open transaction, the round moves nothing past the
decoded ones exactly when it does not get to its end, or the peek was as long as the limit,
or the target lies no further. -/
theorem discarded_within_iff {d fed : Decoder} {p : Polled} {s : Durable} {confirmed : Nat} (slot : s.slot = some confirmed)
    (ids : Keyed ViewRow.id s.catalog.views) (idle : d.current = none) (read : d.feedAll p.rows = .ok fed)
    (incomplete : fed.hasIncomplete = true) (ordered : fed.complete.Pairwise fun t u => t.endLsn < u.endLsn) :
    (∀ s' ∈ pollRound pf settings faults p fed s, s.Within (fed.reached confirmed) s') ↔
      ¬ p.Advances pf settings faults fed s ∨ max p.batchChanges 1 ≤ p.rows.length ∨ p.target ≤ fed.reached confirmed := by
  obtain ⟨c, _⟩ := s
  obtain rfl : _ = some confirmed := slot
  have rows : p.rows ≠ [] := by
    intro nothing
    rw [nothing] at read
    obtain rfl := Except.ok.inj read
    rw [Decoder.hasIncomplete, idle] at incomplete
    exact absurd incomplete Bool.false_ne_true
  have short : p.drained = true ↔ ¬ max p.batchChanges 1 ≤ p.rows.length := by
    rw [Polled.drained, decide_eq_true_eq, not_le]
  constructor
  · intro within
    by_cases advances : p.Advances pf settings faults fed ⟨c, some confirmed⟩
    · refine .inr (or_iff_not_imp_left.mpr fun drained => ?_)
      obtain ⟨s', state, position, at_, past⟩ := pollRound_reaches rows advances (short.mpr drained)
      exact le_trans past ((within s' state).slot position at_)
    · exact .inl advances
  · intro holds
    refine pollRound_within ids ordered fun advances drained => ?_
    exact ((holds.resolve_left (not_not.mpr advances)).resolve_left (short.mp drained))

/-- One row, the BEGIN of a transaction, with `batchChanges` rows asked for. -/
def openPeek (batchChanges : Nat) : Polled := ⟨0, 12, [.begin 5 1], batchChanges, 0⟩

def openDecoder : Decoder := { current := some ⟨1, 5, 0, []⟩ }

theorem openDecoder_fed (batchChanges : Nat) : Decoder.feedAll {} (openPeek batchChanges).rows = .ok openDecoder := rfl

/-- The peek was as long as the limit, so the round leaves the frontiers where they are. -/
theorem openPeek_within : openDecoder.hasIncomplete = true ∧
    ∀ s' ∈ pollRound .basic shopSettings Faults.none (openPeek 1) openDecoder ⟨shopCatalog, some 0⟩, Durable.Within 0 ⟨shopCatalog, some 0⟩ s' :=
  ⟨rfl, (@discarded_within_iff _ _ _ {} _ _ ⟨shopCatalog, some 0⟩ 0 rfl (List.nodup_singleton _) rfl (openDecoder_fed 1) rfl
    List.Pairwise.nil).mpr (.inr (.inl (by decide)))⟩

/-- With room for more rows, the slot and every frontier move to the target, past whatever
the open transaction would have ended at. -/
theorem openPeek_moves : ¬ ∀ {pf : Platform} {settings : Settings} {faults : Faults} {d fed : Decoder} {p : Polled} {s : Durable}
    {confirmed : Nat}, s.slot = some confirmed → Keyed ViewRow.id s.catalog.views → d.current = none → d.feedAll p.rows = .ok fed →
    fed.hasIncomplete = true → fed.complete.Pairwise (fun t u => t.endLsn < u.endLsn) →
    ∀ s' ∈ pollRound pf settings faults p fed s, s.Within (fed.reached confirmed) s' := by
  intro claim
  have within := @claim .basic shopSettings Faults.none _ _ _ ⟨shopCatalog, some 0⟩ 0 rfl (List.nodup_singleton _) rfl
    (openDecoder_fed 100) rfl List.Pairwise.nil _ (List.mem_of_getElem? (i := 0) rfl)
  exact absurd (within.slot 12 rfl) (by decide)

end Nabla
