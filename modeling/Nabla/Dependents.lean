import Nabla.Naming

/-! Failed shadows and the join views over them: what a round leaves live. -/
namespace Nabla
open Bags

variable {pf : Platform} {settings : Settings} {faults : Faults} {rels : List (Nat × Relation)}

def ViewSpec.JoinsOver (spec : ViewSpec) (relid : Nat) : Prop :=
  spec.isJoin = true ∧ (spec.relationIndex relid).isSome = true

def Catalog.Sound (c : Catalog) : Prop :=
  ∀ s ∈ c.shadows, s.failed = true → ∀ row ∈ c.views, row.spec.JoinsOver s.relid → row.status ≠ .live

def RoundState.Harmed (st : RoundState) (relid : Nat) : Prop := ∃ s ∈ st.shadows, s.relid = relid ∧ s.failed = true

/-- The live join views over the relation are still in the round and have yet to reach
its end. -/
def RoundState.Open (roundEnd : Nat) (st : RoundState) (relid : Nat) : Prop :=
  ∀ v ∈ st.views, v.row.spec.JoinsOver relid → v.row.status = .live → v.dead = false ∧ v.frontier < roundEnd

theorem RoundState.Open.kept {e relid roundEnd : Nat} {st st' : RoundState} (opened : st.Open roundEnd relid)
    (views : List.Forall₂ (LiveView.Kept e) st.views st'.views) : st'.Open roundEnd relid := by
  intro v' member joins live
  obtain ⟨v, before, kept⟩ := mem_of_forall₂_right views member
  rw [kept.dead, kept.frontier]
  exact opened v before (kept.row ▸ joins) (kept.row ▸ live)

theorem applyRelid_harmed {e position relid : Nat} {change : Change} {st st' : RoundState}
    (applied : applyRelid pf faults rels e position change relid st = .ok st') (r : Nat) (harmed : st'.Harmed r) :
    st.Harmed r ∨ st'.Lost r := by
  obtain ⟨rel, _, step⟩ := applyRelid_ok applied
  cases step with
  | unread => exact Or.inl harmed
  | absorbed =>
      obtain ⟨t', within, eq, failed⟩ := harmed
      obtain ⟨t, inShadows, rfl⟩ := List.mem_map.mp within
      left
      by_cases here : t.relid = relid
      · rw [if_pos here] at eq failed
        exact ⟨t, inShadows, eq, failed⟩
      · rw [if_neg here] at eq failed
        exact ⟨t, inShadows, eq, failed⟩
  | @lost s newFull message found completed failing =>
      obtain ⟨t', within, eq, failed⟩ := harmed
      obtain ⟨t, inShadows, rfl⟩ := List.mem_map.mp within
      by_cases here : t.relid = relid
      · right
        rw [if_pos here] at eq
        obtain rfl : r = relid := eq.symm.trans here
        intro v inViews join reads alive
        obtain ⟨v', _, rfl⟩ := List.mem_map.mp inViews
        have kept := shadowLost_kept e r rel message v'
        exact shadowLost_lost (kept.row ▸ join) (kept.row ▸ reads) (kept.dead ▸ alive)
      · left
        rw [if_neg here] at eq failed
        exact ⟨t, inShadows, eq, failed⟩

theorem applyChanges_harmed {e position : Nat} {changes : List Change} {st st' : RoundState}
    (applied : applyChanges pf faults rels e position changes st = .ok st') {r : Nat} (harmed : st'.Harmed r) :
    st.Harmed r ∨ st'.Lost r := by
  have both := applyChanges_rule (P := fun st st' => List.Forall₂ (LiveView.Kept e) st.views st'.views ∧
    (st'.Harmed r → st.Harmed r ∨ st'.Lost r)) ?_ ?_ ?_ applied
  · exact both.2 harmed
  · exact fun st => ⟨List.forall₂_same.mpr fun v _ => LiveView.Kept.refl e v, Or.inl⟩
  · rintro st st' st'' ⟨views, first⟩ ⟨views', second⟩
    refine ⟨forall₂_trans (fun _ _ _ left right => left.trans right) views views', fun harmed => ?_⟩
    rcases second harmed with earlier | lost
    · exact (first earlier).imp_right fun lost => lost.kept views'
    · exact Or.inr lost
  · exact fun applied => ⟨applyRelid_views applied, applyRelid_harmed applied r⟩

/-- A stale view in the round goes stale in the catalog at the first transaction past
its frontier. -/
theorem executeView_lost {tx : SourceTransaction} {v : LiveView} (alive : v.dead = false) (stale : v.stale ≠ none)
    (live : (executeView pf settings faults tx v).row.status = .live) :
    executeView pf settings faults tx v = v ∧ tx.endLsn ≤ v.frontier := by
  unfold executeView at live ⊢
  by_cases ahead : tx.endLsn ≤ v.frontier
  · rw [if_pos (by rw [alive, decide_eq_true ahead]; rfl)]
    exact ⟨rfl, ahead⟩
  · have skipped : ¬ (v.dead || decide (tx.endLsn ≤ v.frontier)) = true := by
      rw [alive, decide_eq_false ahead]
      exact Bool.false_ne_true
    rw [if_neg skipped] at live
    cases reason : v.stale with
    | none => exact absurd reason stale
    | some text =>
        simp only [reason, LiveView.markStale, reduceCtorEq] at live

theorem executeView_live {tx : SourceTransaction} {v : LiveView}
    (live : (executeView pf settings faults tx v).row.status = .live) : v.row.status = .live := by
  have failing : ∀ (w : LiveView) (message : String), (w.recordFailure settings message).row.status = .live →
      w.row.status = .live := by
    intro w message after
    simp only [LiveView.recordFailure] at after
    split at after
    · cases after
    · exact after
  unfold executeView at live
  by_cases skipped : (v.dead || decide (tx.endLsn ≤ v.frontier)) = true
  · rwa [if_pos skipped] at live
  · rw [if_neg skipped] at live
    cases stale : v.stale with
    | some reason => simp only [stale, LiveView.markStale, reduceCtorEq] at live
    | none =>
        cases failed : v.failed with
        | some message =>
            simp only [stale, failed] at live
            exact failing v message live
        | none =>
            simp only [stale, failed] at live
            cases executed : inSubtransaction (faults.executing v.row.id tx.endLsn v.ops)
                (execute pf v.row.spec v.row.storage v.ops) with
            | error message =>
                simp only [executed] at live
                exact failing { v with ops := [] } message live
            | ok result => simpa only [executed] using live

/-- Between two transactions: over a failed shadow every live join view is marked, and
has a transaction of the peek ahead of it that will make it stale. -/
def RoundState.Guarded (roundEnd : Nat) (st : RoundState) : Prop :=
  ∀ r, st.Harmed r → st.Lost r ∧ st.Open roundEnd r

theorem RoundState.Guarded.applyTransaction {roundEnd : Nat} {tx : SourceTransaction} {st st' : RoundState}
    {blocked : Bool} (guarded : st.Guarded roundEnd)
    (applied : applyTransaction pf settings faults rels tx st = .ok (st', blocked))
    (fresh : ∀ r, st'.Harmed r → ¬ st.Harmed r → st.Open roundEnd r) :
    st'.Guarded roundEnd ∧ (tx.endLsn = roundEnd → ∀ r, st'.Harmed r → ∀ v ∈ st'.views, v.row.spec.JoinsOver r →
      v.row.status ≠ .live) := by
  unfold Nabla.applyTransaction at applied
  cases changed : applyChanges pf faults rels tx.endLsn 0 tx.changes st with
  | error message => simp only [changed, Except.map, reduceCtorEq] at applied
  | ok planned =>
      simp only [changed, Except.map, Except.ok.injEq, Prod.mk.injEq] at applied
      obtain ⟨rfl, rfl⟩ := applied
      have views := applyChanges_views changed
      -- the absorbing shadows only move their frontier
      have before : ∀ r, RoundState.Harmed ⟨planned.views.map (executeView pf settings faults tx),
          planned.shadows.map (advanceShadow tx.endLsn)⟩ r → planned.Harmed r := by
        rintro r ⟨s', within, eq, failed⟩
        obtain ⟨s, inShadows, rfl⟩ := List.mem_map.mp within
        refine ⟨s, inShadows, ?_⟩
        rw [advanceShadow] at eq failed
        by_cases moves : (!s.failed && decide (s.frontier < tx.endLsn)) = true
        · rw [if_pos moves] at eq failed
          exact ⟨eq, failed⟩
        · rw [if_neg moves] at eq failed
          exact ⟨eq, failed⟩
      have marked : ∀ r, RoundState.Harmed ⟨planned.views.map (executeView pf settings faults tx),
          planned.shadows.map (advanceShadow tx.endLsn)⟩ r → planned.Lost r ∧ planned.Open roundEnd r := by
        intro r harmed
        rcases applyChanges_harmed changed (before r harmed) with earlier | lost
        · obtain ⟨lost, opened⟩ := guarded r earlier
          exact ⟨lost.kept views, opened.kept views⟩
        · refine ⟨lost, RoundState.Open.kept ?_ views⟩
          by_cases earlier : st.Harmed r
          · exact (guarded r earlier).2
          · exact fresh r harmed earlier
      have still : ∀ r, RoundState.Harmed ⟨planned.views.map (executeView pf settings faults tx),
          planned.shadows.map (advanceShadow tx.endLsn)⟩ r → ∀ v ∈ planned.views,
          (executeView pf settings faults tx v).row.spec.JoinsOver r →
          (executeView pf settings faults tx v).row.status = .live →
          executeView pf settings faults tx v = v ∧ tx.endLsn ≤ v.frontier ∧ v.dead = false ∧ v.frontier < roundEnd := by
        intro r harmed v member joins live
        obtain ⟨lost, opened⟩ := marked r harmed
        have outcome := executeView_outcome pf settings faults (v := v) rfl (LiveView.Kept.refl tx.endLsn v)
        rw [outcome.same.spec] at joins
        have was := executeView_live live
        obtain ⟨alive, behind⟩ := opened v member joins was
        obtain ⟨same, ahead⟩ := executeView_lost alive (lost v member joins.1 joins.2 alive) live
        exact ⟨same, ahead, alive, behind⟩
      refine ⟨fun r harmed => ⟨?_, ?_⟩, fun last r harmed v' member joins live => ?_⟩
      · intro v' member join reads alive
        obtain ⟨v, inPlanned, rfl⟩ := List.mem_map.mp member
        obtain ⟨lost, _⟩ := marked r harmed
        have outcome := executeView_outcome pf settings faults rfl (LiveView.Kept.refl tx.endLsn v)
        rw [outcome.same.spec] at join reads
        cases outcome with
        | skipped _ dead _ _ _ _ _ fresh =>
            exact fun stale => lost v inPlanned join reads (dead.symm.trans alive) (fresh stale)
        | dropped _ _ dead => exact absurd (alive.symm.trans dead) Bool.false_ne_true
        | absorbed alive₀ _ fresh => exact absurd fresh (lost v inPlanned join reads alive₀)
      · intro v' member joins live
        obtain ⟨v, inPlanned, rfl⟩ := List.mem_map.mp member
        obtain ⟨same, _, alive, behind⟩ := still r harmed v inPlanned joins live
        rw [same]
        exact ⟨alive, behind⟩
      · obtain ⟨v, inPlanned, rfl⟩ := List.mem_map.mp member
        obtain ⟨_, ahead, _, behind⟩ := still r harmed v inPlanned joins live
        omega

/-- The transactions of a peek, when each shadow that fails at one of them leaves every
live join view over it a transaction to go stale at. -/
theorem RoundState.Guarded.applyTransactions {roundEnd ti : Nat} {txs : List SourceTransaction} {st st' : RoundState}
    {blockedAt : Option Nat} (guarded : st.Guarded roundEnd)
    (ran : applyTransactions pf settings faults rels ti txs st = .ok (st', blockedAt))
    (last : txs.getLast?.map SourceTransaction.endLsn = some roundEnd)
    (fresh : ∀ n before after, stateAfter pf settings faults rels st txs n = .ok before →
      stateAfter pf settings faults rels st txs (n + 1) = .ok after →
      ∀ r, after.Harmed r → ¬ before.Harmed r → before.Open roundEnd r) :
    ∀ r, st'.Harmed r → ∀ v ∈ st'.views, v.row.spec.JoinsOver r → v.row.status ≠ .live := by
  induction txs generalizing ti st blockedAt with
  | nil => cases last
  | cons tx txs ih =>
      rw [Nabla.applyTransactions] at ran
      cases first : Nabla.applyTransaction pf settings faults rels tx st with
      | error message => simp only [first, reduceCtorEq] at ran
      | ok step =>
          obtain ⟨st₁, blocked⟩ := step
          cases rest : Nabla.applyTransactions pf settings faults rels (ti + 1) txs st₁ with
          | error message => simp only [first, rest, Except.map, reduceCtorEq] at ran
          | ok result =>
              simp only [first, rest, Except.map, Except.ok.injEq, Prod.mk.injEq] at ran
              obtain ⟨rfl, rfl⟩ := ran
              have here := fresh 0 st st₁ rfl (by rw [stateAfter_succ first]; rfl)
              obtain ⟨guarded', final⟩ := guarded.applyTransaction first here
              cases txs with
              | nil =>
                  obtain rfl := Except.ok.inj rest
                  exact final (Option.some.inj last)
              | cons next later =>
                  rw [List.getLast?_cons_cons] at last
                  refine ih guarded' rest last fun n before after reached reached' => ?_
                  refine fresh (n + 1) before after ?_ ?_
                  · rw [stateAfter_succ first, reached]
                  · rw [stateAfter_succ first, reached']

/-- The catalog is read and written as the shadows' failures allow: a shadow that fails
in the round, at the drift check or at a transaction, finds every live join view over it
still in the round with its end ahead, and at the drift check drifted itself. -/
structure RoundGuard (pf : Platform) (settings : Settings) (faults : Faults) (cache : Nat → Option Relation)
    (c : Catalog) (txs : List SourceTransaction) : Prop where
  drift : ∀ start, roundAfter pf settings faults cache c txs 0 = .ok start → ∀ r, start.Harmed r →
    ¬ RoundState.Harmed ⟨[], c.shadows⟩ r →
    start.Lost r ∧ start.Open ((txs.getLast?.map SourceTransaction.endLsn).getD 0) r
  absorb : ∀ n before after, roundAfter pf settings faults cache c txs n = .ok before →
    roundAfter pf settings faults cache c txs (n + 1) = .ok after → ∀ r, after.Harmed r → ¬ before.Harmed r →
    before.Open ((txs.getLast?.map SourceTransaction.endLsn).getD 0) r

theorem Catalog.Sound.round {cache : Nat → Option Relation} {c : Catalog} {txs : List SourceTransaction}
    {result : RoundResult} (sound : c.Sound) (some : txs ≠ [])
    (guard : RoundGuard pf settings faults cache c txs)
    (applied : applyRound pf settings faults cache c txs = .ok result) : result.catalog.Sound := by
  have drift := guard.drift
  have absorb := guard.absorb
  unfold roundAfter roundStart at drift absorb
  unfold applyRound at applied
  cases collected : collectRelations pf (changedRelids txs) cache [] with
  | error message => simp only [collected, reduceCtorEq] at applied
  | ok described =>
      obtain ⟨cache', rels⟩ := described
      simp only [collected, Except.map] at applied drift absorb
      obtain ⟨final, last⟩ : ∃ final, txs.getLast? = Option.some final := by
        cases last : txs.getLast? with
        | none => exact absurd (List.getLast?_eq_none_iff.mp last) some
        | some final => exact ⟨final, rfl⟩
      have views := foldl_driftRelation_views ((txs.getLast?.map SourceTransaction.endLsn).getD 0) rels
        ⟨c.liveViews, c.shadows⟩
      rw [last, Option.map_some, Option.getD_some] at applied drift absorb views
      generalize rels.foldl (driftRelation final.endLsn) ⟨c.liveViews, c.shadows⟩ = start at applied drift absorb views
      cases ran : Nabla.applyTransactions pf settings faults rels 0 txs start with
      | error message => simp only [ran, reduceCtorEq] at applied
      | ok done =>
          obtain ⟨st, blockedAt⟩ := done
          simp only [ran] at applied
          cases finishing : finishViews settings st.views with
          | error message => simp only [finishing, reduceCtorEq] at applied
          | ok written =>
              simp only [finishing, Except.ok.injEq] at applied
              subst applied
              have entering : ∀ v ∈ start.views, ∃ row ∈ c.views, row.status = .live ∧ v.row = row := by
                intro v member
                rw [views] at member
                obtain ⟨v₀, inLive, rfl⟩ := List.mem_map.mp member
                obtain ⟨row, inCatalog, live, rfl⟩ := Catalog.mem_liveViews inLive
                exact ⟨row, inCatalog, live, by rw [foldl_driftBy]; rfl⟩
              have guarded : start.Guarded final.endLsn := by
                intro r harmed
                by_cases before : RoundState.Harmed ⟨[], c.shadows⟩ r
                · obtain ⟨s, inShadows, rfl, failed⟩ := before
                  constructor
                  · intro v member join reads _
                    obtain ⟨row, inCatalog, live, eq⟩ := entering v member
                    exact absurd live (sound s inShadows failed row inCatalog (eq ▸ ⟨join, reads⟩))
                  · intro v member joins _
                    obtain ⟨row, inCatalog, live, eq⟩ := entering v member
                    exact absurd live (sound s inShadows failed row inCatalog (eq ▸ joins))
                · exact drift start rfl r harmed before
              have none := guarded.applyTransactions ran (by rw [last]; rfl) absorb
              have finished := finishViews_ok finishing
              have loaded : List.Forall₂ (fun v v' : LiveView => v'.row.id = v.row.id) c.liveViews st.views := by
                have drifted : List.Forall₂ (fun v v' : LiveView => v'.row.id = v.row.id) c.liveViews start.views := by
                  rw [views]
                  exact forall₂_map_right _ fun v _ => by rw [foldl_driftBy _ rels v]
                exact forall₂_trans (fun v v₁ v' first second => second.1.symm.trans first) drifted
                  (applyTransactions_dead ran)
              intro s inShadows failed row member joins live
              obtain ⟨v, inRound, finish⟩ := Catalog.written_live loaded finished member live
              refine none s.relid ⟨s, inShadows, rfl, failed⟩ v inRound (finish.spec ▸ joins) ?_
              rw [← finish.status]
              exact live

theorem Catalog.Sound.of_relabel {c c' : Catalog} (sound : c.Sound)
    (shadows : ∀ s' ∈ c'.shadows, ∃ s ∈ c.shadows, s.relid = s'.relid ∧ s.failed = s'.failed)
    (views : ∀ row' ∈ c'.views, row'.status = .live → ∃ row ∈ c.views, row.status = .live ∧ row.spec = row'.spec) :
    c'.Sound := by
  intro s' inShadows failed row' member joins live
  obtain ⟨s, before, relid, same⟩ := shadows s' inShadows
  obtain ⟨row, inViews, live', spec⟩ := views row' member live
  refine sound s before (same.trans failed) row inViews ?_ live'
  rw [relid, spec]
  exact joins

theorem Catalog.Sound.idleAdvance {c : Catalog} (sound : c.Sound) (frontier : Nat) : (c.idleAdvance frontier).Sound := by
  apply sound.of_relabel
  · intro s' member
    obtain ⟨s, inShadows, rfl⟩ := List.mem_map.mp member
    refine ⟨s, inShadows, ?_⟩
    unfold advanceShadow
    split <;> exact ⟨rfl, rfl⟩
  · intro row' member live
    obtain ⟨row, inViews, rfl⟩ := List.mem_map.mp member
    refine ⟨row, inViews, ?_⟩
    split at live
    · rename_i moves
      rw [if_pos moves]
      exact ⟨live, rfl⟩
    · rename_i stays
      rw [if_neg stays]
      exact ⟨live, rfl⟩

theorem Catalog.Sound.markLagged {c : Catalog} (sound : c.Sound) : c.markLagged.Sound := by
  apply sound.of_relabel
  · exact fun s member => ⟨s, member, rfl, rfl⟩
  · intro row' member live
    obtain ⟨row, inViews, rfl⟩ := List.mem_map.mp member
    refine ⟨row, inViews, ?_⟩
    split at live
    · cases live
    · rename_i stays
      rw [if_neg stays]
      exact ⟨live, rfl⟩

theorem Catalog.Sound.runRound {cache : Nat → Option Relation} {peek : Peek} {d d' : Durable} (sound : d.catalog.Sound)
    (guard : RoundGuard pf settings faults cache d.catalog peek.transactions)
    (state : d' ∈ runRound pf settings faults cache peek d) : d'.catalog.Sound := by
  have idle : ∀ {c : Catalog} {slot : Option Nat} {lastEnd : Nat}, c.Sound → d' ∈ Durable.idle ⟨c, slot⟩ peek lastEnd →
      d'.catalog.Sound := by
    intro c slot lastEnd sound state
    unfold Durable.idle at state
    split at state
    · simp only [List.mem_cons, List.not_mem_nil, or_false] at state
      rcases state with rfl | rfl
      · exact sound
      · exact sound.idleAdvance _
    · exact absurd state List.not_mem_nil
  obtain ⟨c, slot⟩ := d
  cases slot with
  | none => exact absurd state List.not_mem_nil
  | some confirmed =>
      by_cases lag : settings.maxSlotLagBytes < peek.lag
      · simp only [Nabla.runRound, if_pos lag, List.mem_cons, List.not_mem_nil, or_false] at state
        rcases state with rfl | rfl
        · exact sound
        · exact sound.markLagged
      · rcases mem_runRound (not_lt.mp lag) state with ⟨_, state⟩ | ⟨last, result, final, applied, states⟩
        · exact idle sound state
        · have some : peek.transactions ≠ [] := fun none => by rw [none] at final; cases final
          have after := sound.round some guard applied
          cases states with
          | committed => exact after
          | held => exact after
          | advanced => exact after
          | idle _ state => exact idle after state

/-- The durable states of a worker whose rounds are all guarded. -/
inductive GuardedRun (pf : Platform) (start : Durable) : Durable → Prop where
  | refl : GuardedRun pf start start
  | round {d d' : Durable} {settings : Settings} {faults : Faults} {cache : Nat → Option Relation} {peek : Peek}
      (run : GuardedRun pf start d) (guard : RoundGuard pf settings faults cache d.catalog peek.transactions)
      (state : d' ∈ runRound pf settings faults cache peek d) : GuardedRun pf start d'

/-- Over guarded rounds no failed shadow ever has a live dependent. -/
theorem GuardedRun.sound {start d : Durable} (run : GuardedRun pf start d) (sound : start.catalog.Sound) :
    d.catalog.Sound := by
  induction run with
  | refl => exact sound
  | round run guard state ih => exact ih.runRound guard state

def lockedFaults : Faults := { Faults.none with writeShadow := fun _ _ _ => some "lock timeout" }

/-- The shop with a view that was created past the transaction its shadows have to absorb. -/
def shopAhead : Catalog := { shopCatalog with views := [shopView 20 []] }

theorem shop_sound (frontier : Nat) : Catalog.Sound { shopCatalog with views := [shopView frontier []] } := by
  intro s member failed
  simp only [shopCatalog, List.mem_cons, List.not_mem_nil, or_false] at member
  rcases member with rfl | rfl <;> exact absurd failed Bool.false_ne_true

/-- The view has no transaction of the peek left to go stale at. -/
theorem shopAhead_unsound : ¬ ∀ {pf : Platform} {settings : Settings} {faults : Faults}
    {cache : Nat → Option Relation} {peek : Peek} {d d' : Durable}, d.catalog.Sound →
    d' ∈ runRound pf settings faults cache peek d → d'.catalog.Sound := by
  intro claim
  obtain ⟨d, state, row, views, status, spec, s, shadows, relid, failed⟩ : ∃ d ∈ runRound .basic shopSettings lockedFaults
      (some ∘ shopRelation) shopPeek ⟨shopAhead, some 0⟩, ∃ row, d.catalog.views = [row] ∧ row.status = .live ∧
        row.spec = shopSpec ∧ ∃ s, s ∈ d.catalog.shadows ∧ s.relid = 1 ∧ s.failed = true :=
    ⟨_, List.mem_of_getElem? (i := 0) rfl, _, rfl, rfl, rfl, _, List.mem_cons_self, rfl, rfl⟩
  refine claim (shop_sound 20) state s shadows failed row (views ▸ List.mem_singleton_self row) ?_ status
  rw [spec, relid]
  exact ⟨rfl, rfl⟩

theorem shop_guard : RoundGuard .basic shopSettings lockedFaults (some ∘ shopRelation) shopCatalog [shopDecoded .null] where
  drift := by
    intro start reached r harmed
    obtain rfl : ⟨[LiveView.load (shopView 0 [])], shopCatalog.shadows⟩ = start := Except.ok.inj reached
    obtain ⟨s, member, _, failed⟩ := harmed
    simp only [shopCatalog, List.mem_cons, List.not_mem_nil, or_false] at member
    rcases member with rfl | rfl <;> exact absurd failed Bool.false_ne_true
  absorb := by
    intro n before after reached reached' r harmed fresh
    cases n with
    | zero =>
        obtain rfl : ⟨[LiveView.load (shopView 0 [])], shopCatalog.shadows⟩ = before := Except.ok.inj reached
        intro v member _ _
        obtain rfl := List.mem_singleton.mp member
        exact ⟨rfl, show (0 : Nat) < 10 by decide⟩
    | succ n =>
        simp only [roundAfter, stateAfter, List.take_succ_cons, List.take_nil] at reached reached'
        rw [reached', Except.ok.injEq] at reached
        exact absurd (reached ▸ harmed) fresh

/-- A view behind the failing transaction goes stale with its shadow. -/
theorem shop_guarded : ∃ d, GuardedRun .basic ⟨shopCatalog, some 0⟩ d ∧ (∃ s ∈ d.catalog.shadows, s.failed = true) ∧
    d.catalog.Sound := by
  obtain ⟨d, state, s, shadows, failed⟩ : ∃ d ∈ runRound .basic shopSettings lockedFaults (some ∘ shopRelation) shopPeek
      ⟨shopCatalog, some 0⟩, ∃ s, s ∈ d.catalog.shadows ∧ s.failed = true :=
    ⟨_, List.mem_of_getElem? (i := 0) rfl, _, List.mem_cons_self, rfl⟩
  have run : GuardedRun .basic ⟨shopCatalog, some 0⟩ d := .round .refl shop_guard state
  exact ⟨d, run, ⟨s, shadows, failed⟩, run.sound (shop_sound 0)⟩

end Nabla
