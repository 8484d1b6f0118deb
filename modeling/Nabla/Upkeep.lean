import Nabla.Projections
import Nabla.ReadYourWrites
import Nabla.Unchanged

/-! Projections over one table over whole runs of the worker: populations, rounds that
views fail in, crashes between the states of a round, and other sessions. -/
namespace Nabla
open Bags

variable {pf : Platform} {S : Schema pf} {identity : Nat → Option (List String)} {base : BaseRelation}
  {settings : Settings} {faults : Faults} {h : History S} {stream : List SourceTransaction}

/-- What a round over the transactions that take `pre` to `pre'` makes of a live row. -/
structure ViewRow.Onward (h : History S) (identity : Nat → Option (List String)) (base : BaseRelation) (faults : Faults)
    (pre pre' : List BaseTransaction) (row row' : ViewRow) : Prop where
  spec : row'.spec = row.spec
  frontier : row.frontier ≤ row'.frontier
  holds : row.spec.Projects S base → ∀ since, since ≤ row.frontier → row.spec.KeepsRows S identity base h.commits since row'.frontier →
    (∀ u ∈ pre, u.endLsn ≤ row.frontier) → row.Holds (h.asOf row.frontier) → row'.Holds (h.asOf row'.frontier)
  settles : faults = Faults.none → row.spec.Projects S base → ∀ since upto, since ≤ row.frontier →
    row.spec.KeepsRows S identity base h.commits since upto → (∀ u ∈ pre', u.endLsn ≤ upto) →
    (∀ u ∈ pre, u.endLsn ≤ row.frontier) → (row.frontier ≤ upto → row.Holds (h.asOf row.frontier)) →
    row'.status = .stale ∨ row'.status = .live ∧ ∀ u ∈ pre', u.endLsn ≤ row'.frontier

theorem applyRound_onward (base : BaseRelation) {cache : Nat → Option Relation} {c : Catalog} {txs : List SourceTransaction}
    {result : RoundResult} (ids : Keyed ViewRow.id c.views) (ordered : txs.Pairwise fun t u => t.endLsn < u.endLsn)
    {pre ts rest : List BaseTransaction} (split : h.commits = pre ++ ts ++ rest) (sends : List.Forall₂ (TransactionSends S identity) ts txs)
    (described : ∀ r ∈ changedRelids txs, Described S cache r)
    (applied : applyRound pf settings faults cache c txs = .ok result) :
    ∀ row' ∈ result.catalog.views, ∃ row ∈ c.views, row'.id = row.id ∧ (row.status ≠ .live → row' = row) ∧
      (row.status = .live → row.Onward h identity base faults pre (pre ++ ts) row') := by
  obtain ⟨cache₁, rels₁, collected₁, known, _, _⟩ :=
    collectRelations_ok [] described fun p member => absurd member List.not_mem_nil
  have through : ∀ {cache' : Nat → Option Relation} {rels : List (Nat × Relation)} {start st : RoundState},
      collectRelations pf (changedRelids txs) cache [] = .ok (cache', rels) →
      applyTransactions pf settings faults rels 0 txs start = .ok (st, result.blockedAt) →
      List.Forall₂ (fun v v' => v.Ran 0 (txs.map SourceTransaction.endLsn) result.blockedAt v' ∧
        v.Onward h identity base faults pre (pre ++ ts) v') start.views st.views := by
    intro cache' rels start st collected ran
    obtain ⟨rfl, rfl⟩ := Prod.mk.inj (Except.ok.inj (collected₁.symm.trans collected))
    exact forall₂_both (applyTransactions_ran ordered ran) (applyTransactions_onward base known split sends ran)
  intro row' member
  obtain ⟨row, inCatalog, rowId, handled⟩ := (applyRound_rows (fun step => step.1.same.id) through ids applied).2 row' member
  refine ⟨row, inCatalog, rowId, ?_⟩
  cases handled with
  | other status same => exact ⟨fun _ => same, fun live => absurd live status⟩
  | live v v' status loaded went found finished =>
      refine ⟨fun other => absurd status other, fun _ => ?_⟩
      obtain ⟨ran, onward⟩ := went
      have done := LiveView.finish_ok finished
      have alive : v.dead = false := by rw [loaded]; rfl
      have spec : v.row.spec = row.spec := by rw [loaded]; rfl
      have none : v.absorbed = [] := by rw [loaded]; rfl
      have frontier : v.frontier = row.frontier := by rw [loaded]; rfl
      have rowFrontier : v'.row.frontier = row.frontier := by rw [ran.same.frontier, loaded]; rfl
      obtain ⟨n, _, absorbed, last, _⟩ := ran.absorbs alive
      have reached : row'.frontier = v'.frontier := by
        rw [done.frontier, rowFrontier, last, absorbed, none, List.nil_append, frontier]
      have further : row.frontier ≤ row'.frontier := by
        rw [reached, last, ← frontier]
        cases final : (((txs.map SourceTransaction.endLsn).take n).filter (v.frontier < ·)).getLast? with
        | none => exact le_refl _
        | some x => exact (of_decide_eq_true (List.mem_filter.mp (List.mem_of_getLast? final)).2).le
      have enters : ∀ {since upto : Nat}, since ≤ row.frontier → (∀ u ∈ pre, u.endLsn ≤ row.frontier) →
          (row.frontier ≤ upto → row.Holds (h.asOf row.frontier)) → v.Exact h faults since upto pre := by
        intro since upto populated passed holds
        rw [loaded]
        exact ⟨populated, holds, fun _ => passed, fun _ => ⟨rfl, rfl, status⟩, fun _ _ => nofun⟩
      refine ⟨done.spec.trans (onward.spec.trans spec), further, ?_, ?_⟩
      · intro projects since populated keeps passed holds
        have exact' := onward.exact (spec ▸ projects) since row'.frontier (spec ▸ keeps) (enters populated passed fun _ => holds)
        rw [ViewRow.Holds, done.storage, done.spec, reached]
        exact exact'.holds reached.ge
      · intro calm projects since upto populated keeps low passed holds
        have exact' := onward.exact (spec ▸ projects) since upto (spec ▸ keeps) (enters populated passed holds)
        rw [done.status, reached]
        cases dead : v'.dead with
        | true => exact Or.inl (exact'.drops calm low dead)
        | false => exact Or.inr ⟨(exact'.ready dead).2.2, exact'.passed dead⟩

theorem sends_ends (sends : List.Forall₂ (TransactionSends S identity) h.commits stream) :
    stream.map SourceTransaction.endLsn = h.commits.map BaseTransaction.endLsn :=
  map_eq_of_forall₂ sends fun _ _ sent => sent.1

theorem sends_ordered (sends : List.Forall₂ (TransactionSends S identity) h.commits stream) :
    stream.Pairwise fun t u => t.endLsn < u.endLsn := by
  have ordered := List.pairwise_map.mpr h.increasing
  rw [← sends_ends sends] at ordered
  exact List.pairwise_map.mp ordered

theorem Peek.Reads.stretch {peek : Peek} {confirmed : Nat} (sends : List.Forall₂ (TransactionSends S identity) h.commits stream)
    (reads : peek.Reads stream confirmed) :
    ∃ pre ts rest, h.commits = pre ++ ts ++ rest ∧ List.Forall₂ (TransactionSends S identity) ts peek.transactions ∧
      ∀ u ∈ pre, u.endLsn ≤ confirmed := by
  obtain ⟨cut, peeked, _⟩ := reads
  refine ⟨h.commits.filter fun t => decide (t.endLsn ≤ confirmed),
    (h.commits.filter fun t => decide (confirmed < t.endLsn)).filter fun t => decide (t.endLsn ≤ cut),
    (h.commits.filter fun t => decide (confirmed < t.endLsn)).filter fun t => decide (cut < t.endLsn), ?_, ?_, ?_⟩
  · rw [List.append_assoc, ← split_at (h.increasing.filter _) cut, ← split_at h.increasing confirmed]
  · rw [peeked, List.filter_filter]
    apply forall₂_filter sends
    intro t tx sent
    rw [sent.1, Bool.and_comm]
  · intro u member
    exact of_decide_eq_true (List.mem_filter.mp member).2

theorem ViewSpec.KeepsRows.mono {spec : ViewSpec} {ts : List BaseTransaction} {since upto upto' : Nat} (le : upto ≤ upto')
    (keeps : spec.KeepsRows S identity base ts since upto') : spec.KeepsRows S identity base ts since upto :=
  fun t member after low => keeps t member after (low.trans le)

/-- Every live projection of one table holds its query as of its frontier. -/
def Durable.Exact (S : Schema pf) (identity : Nat → Option (List String)) (h : History S) (ledger : Nat → Absorption) (d : Durable) : Prop :=
  ∀ base, ∀ row ∈ d.catalog.views, row.status = .live → row.spec.Projects S base →
    row.spec.KeepsRows S identity base h.commits (ledger row.id).since row.frontier → row.Holds (h.asOf row.frontier)

section State

variable {ledger : Nat → Absorption} {confirmed : Nat} {peek : Peek}

theorem mem_idle {c : Catalog} {slot : Option Nat} {lastEnd : Nat} {d' : Durable} (state : d' ∈ Durable.idle ⟨c, slot⟩ peek lastEnd) :
    d'.catalog = c ∨ d'.catalog = c.idleAdvance (max peek.target lastEnd) := by
  unfold Durable.idle at state
  by_cases drained : peek.drained = true
  · rw [if_pos drained] at state
    simp only [List.mem_cons, List.not_mem_nil, or_false] at state
    rcases state with rfl | rfl
    · exact Or.inl rfl
    · exact Or.inr rfl
  · rw [if_neg drained] at state
    exact absurd state List.not_mem_nil

/-- The idle advance passes no published transaction. -/
theorem Durable.Exact.idle (sends : List.Forall₂ (TransactionSends S identity) h.commits stream) {c : Catalog} {slot : Option Nat}
    (exact : Durable.Exact S identity h ledger ⟨c, slot⟩) {at_ at' lastEnd : Nat} {d' : Durable}
    (once : ∀ row ∈ c.views, row.status = .live → row.ExactlyOnce (stream.map SourceTransaction.endLsn) (ledger row.id) at_)
    (once' : d'.ExactlyOnce (stream.map SourceTransaction.endLsn) ledger at') (state : d' ∈ Durable.idle ⟨c, slot⟩ peek lastEnd) :
    d'.Exact S identity h ledger := by
  rcases mem_idle state with same | advanced
  · intro base row member
    exact exact base row (same ▸ member)
  · intro base row' member live projects keeps
    have done' := once'.views row' member live
    rw [advanced] at member
    obtain ⟨row, inViews, ⟨rfl, _⟩ | ⟨rfl, wasLive, low⟩⟩ := Catalog.idleAdvance_row member
    · exact exact base row' inViews live projects keeps
    · have done := once row inViews wasLive
      have holds := exact base row inViews wasLive projects (keeps.mono low.le)
      rw [h.asOf_congr low.le] at holds
      · exact holds
      · intro t inCommits reached
        by_contra above
        have inEnds : t.endLsn ∈ stream.map SourceTransaction.endLsn := by
          rw [sends_ends sends]
          exact List.mem_map_of_mem inCommits
        have inWindow := mem_window.mpr ⟨inEnds, done.populated.trans_lt (not_le.mp above), reached⟩
        rw [← done'.absorbed, done.absorbed] at inWindow
        exact above (mem_window.mp inWindow).2.2

theorem Durable.Exact.round (sends : List.Forall₂ (TransactionSends S identity) h.commits stream) {d d' : Durable}
    (exact : d.Exact S identity h ledger) (once : d.ExactlyOnce (stream.map SourceTransaction.endLsn) ledger confirmed)
    {cache : Nat → Option Relation} (lag : peek.lag ≤ settings.maxSlotLagBytes) (reads : peek.Reads stream confirmed)
    (described : ∀ r ∈ changedRelids peek.transactions, Described S cache r)
    (state : d' ∈ runRound pf settings faults cache peek d) :
    d'.Exact S identity h fun id =>
      ⟨(ledger id).since, (ledger id).ends ++ absorbedBy pf settings faults cache d.catalog peek.transactions id⟩ := by
  obtain ⟨c, slot⟩ := d
  obtain rfl : slot = some confirmed := once.slot
  have ordered := sends_ordered sends
  rcases mem_runRound lag state with ⟨empty, state⟩ | ⟨last, result, final, applied, states⟩
  · obtain ⟨moved, once'⟩ := once.quiet reads empty state
    exact exact.idle sends once.views once' state
  · have sorted : peek.transactions.Pairwise fun t u => t.endLsn < u.endLsn := by
      obtain ⟨cut, peeked, _⟩ := reads
      exact peeked ▸ ordered.filter _
    obtain ⟨pre, ts, rest, split, sent, before⟩ := reads.stretch sends
    have rows : ∀ slot, Durable.Exact S identity h (fun id =>
        ⟨(ledger id).since, (ledger id).ends ++ absorbedBy pf settings faults cache c peek.transactions id⟩) ⟨result.catalog, slot⟩ := by
      intro slot base row' member live projects keeps
      obtain ⟨row, inViews, id, other, onward⟩ := applyRound_onward base once.ids sorted split sent described applied row' member
      have wasLive : row.status = .live := by
        by_contra idle
        exact idle (other idle ▸ live)
      have steps := onward wasLive
      have done := once.views row inViews wasLive
      rw [steps.spec] at projects
      rw [steps.spec, id] at keeps
      refine steps.holds projects _ done.populated keeps ?_ (exact base row inViews wasLive projects (keeps.mono steps.frontier))
      intro u member
      refine done.safe u.endLsn ?_ (before u member)
      rw [sends_ends sends, split]
      exact List.mem_map_of_mem (List.mem_append_left _ (List.mem_append_left _ member))
    obtain ⟨moved, once'⟩ := once.committed ordered reads final applied states
    obtain ⟨_, here⟩ := once.committed ordered reads final applied .committed
    cases states with
    | committed | held | advanced => exact rows _
    | idle free inIdle =>
        exact (rows _).idle sends here.views once' inIdle

/-- A round without an error of the environment leaves a live projection stale, or live and
past every transaction of the peek. -/
def Durable.Settles (S : Schema pf) (identity : Nat → Option (List String)) (h : History S) (stream : List SourceTransaction)
    (ledger : Nat → Absorption) (d : Durable) : Prop :=
  ∀ (settings : Settings) (cache : Nat → Option Relation) (peek : Peek) (confirmed : Nat), d.slot = some confirmed →
    peek.lag ≤ settings.maxSlotLagBytes → peek.Reads stream confirmed → (∀ r ∈ changedRelids peek.transactions, Described S cache r) →
    ∀ d' ∈ runRound pf settings Faults.none cache peek d, ∀ base, ∀ row ∈ d.catalog.views, row.status = .live → row.spec.Projects S base →
      (∀ tx ∈ peek.transactions, row.spec.KeepsRows S identity base h.commits (ledger row.id).since tx.endLsn) →
      ∀ row' ∈ d'.catalog.views, row'.id = row.id →
        row'.status = .stale ∨ row'.status = .live ∧ ∀ tx ∈ peek.transactions, tx.endLsn ≤ row'.frontier

theorem mem_idle_views {c : Catalog} {slot : Option Nat} {lastEnd : Nat} {d' : Durable} (state : d' ∈ Durable.idle ⟨c, slot⟩ peek lastEnd)
    {row' : ViewRow} (member : row' ∈ d'.catalog.views) :
    ∃ row ∈ c.views, row'.id = row.id ∧ row'.status = row.status ∧ row.frontier ≤ row'.frontier := by
  rcases mem_idle state with same | advanced
  · exact ⟨row', same ▸ member, rfl, rfl, le_refl _⟩
  · rw [advanced] at member
    obtain ⟨row, inViews, ⟨rfl, _⟩ | ⟨rfl, _, low⟩⟩ := Catalog.idleAdvance_row member
    · exact ⟨row', inViews, rfl, rfl, le_refl _⟩
    · exact ⟨row, inViews, rfl, rfl, low.le⟩

theorem Durable.Exact.settles (sends : List.Forall₂ (TransactionSends S identity) h.commits stream) {d : Durable}
    (exact : d.Exact S identity h ledger) (once : d.ExactlyOnce (stream.map SourceTransaction.endLsn) ledger confirmed) :
    d.Settles S identity h stream ledger := by
  intro settings cache peek confirmed' slot lag reads described d' state base row inViews live projects keeps row' member same
  obtain ⟨c, _⟩ := d
  obtain rfl := Option.some.inj (once.slot.symm.trans slot)
  obtain rfl : _ = some confirmed := slot
  rcases mem_runRound lag state with ⟨empty, state⟩ | ⟨last, result, final, applied, states⟩
  · right
    obtain ⟨row₁, inViews₁, id, status, _⟩ := mem_idle_views state member
    obtain rfl := once.ids.eq_of_mem inViews inViews₁ (same.symm.trans id)
    refine ⟨status.trans live, fun tx within => ?_⟩
    rw [empty] at within
    exact absurd within List.not_mem_nil
  · have sorted : peek.transactions.Pairwise fun t u => t.endLsn < u.endLsn := by
      obtain ⟨cut, peeked, _⟩ := reads
      exact peeked ▸ (sends_ordered sends).filter _
    obtain ⟨pre, ts, rest, split, sent, before⟩ := reads.stretch sends
    have done := once.views row inViews live
    have ends : ts.map BaseTransaction.endLsn = peek.transactions.map SourceTransaction.endLsn :=
      (map_eq_of_forall₂ sent fun _ _ sent => sent.1).symm
    have passed : ∀ u ∈ pre, u.endLsn ≤ row.frontier := by
      intro u within
      refine done.safe u.endLsn ?_ (before u within)
      rw [sends_ends sends, split]
      exact List.mem_map_of_mem (List.mem_append_left _ (List.mem_append_left _ within))
    have low : ∀ u ∈ pre ++ ts, u.endLsn ≤ last.endLsn := by
      have lastIn : last.endLsn ∈ ts.map BaseTransaction.endLsn := ends ▸ List.mem_map_of_mem (List.mem_of_getLast? final)
      obtain ⟨t, inTs, isLast⟩ := List.mem_map.mp lastIn
      intro u within
      rcases List.mem_append.mp within with earlier | inPeek
      · obtain ⟨left, right, rfl⟩ := List.append_of_mem inTs
        rw [← isLast]
        have here : h.commits = (pre ++ left) ++ t :: (right ++ rest) := by
          simpa only [List.append_assoc, List.cons_append] using split
        exact (h.before here (List.mem_append_left _ earlier)).le
      · have inEnds := List.mem_map_of_mem (f := BaseTransaction.endLsn) inPeek
        rw [ends] at inEnds
        obtain ⟨tx, inTxs, eq⟩ := List.mem_map.mp inEnds
        rw [← eq]
        exact endLsn_le_last sorted final tx inTxs
    have holds := exact base row inViews live projects
    have rows : ∀ row₁ ∈ result.catalog.views, row₁.id = row.id →
        row₁.status = .stale ∨ row₁.status = .live ∧ ∀ tx ∈ peek.transactions, tx.endLsn ≤ row₁.frontier := by
      intro row₁ inResult sameId
      obtain ⟨row₂, inViews₂, id, _, onward⟩ := applyRound_onward base once.ids sorted split sent described applied row₁ inResult
      obtain rfl := once.ids.eq_of_mem inViews inViews₂ (sameId.symm.trans id)
      have keepsAll := keeps last (List.mem_of_getLast? final)
      rcases (onward live).settles rfl projects _ last.endLsn done.populated keepsAll low passed (fun upTo => holds (keepsAll.mono upTo)) with
        stale | ⟨isLive, all⟩
      · exact Or.inl stale
      · refine Or.inr ⟨isLive, fun tx within => ?_⟩
        have inEnds := List.mem_map_of_mem (f := SourceTransaction.endLsn) within
        rw [← ends] at inEnds
        obtain ⟨t, inTs, eq⟩ := List.mem_map.mp inEnds
        rw [← eq]
        exact all t (List.mem_append_right _ inTs)
    cases states with
    | committed | held | advanced => exact rows row' member same
    | idle free inIdle =>
        obtain ⟨row₁, inResult, id, status, further⟩ := mem_idle_views inIdle member
        rcases rows row₁ inResult (id.symm.trans same) with stale | ⟨isLive, all⟩
        · exact Or.inl (status.trans stale)
        · exact Or.inr ⟨status.trans isLive, fun tx within => (all tx within).trans further⟩

end State

/-- The durable states of the worker over the published history, with what each view
absorbed. Other sessions make no view live and leave the live ones alone, a group of views is
built from the tables as of one point, and a round goes through its states, the last one
before a crash included. -/
inductive Maintains (S : Schema pf) (identity : Nat → Option (List String)) (h : History S) (stream : List SourceTransaction) :
    Durable → (Nat → Absorption) → Prop where
  | start {c : Catalog} {confirmed : Nat} {ledger : Nat → Absorption} (ids : Keyed ViewRow.id c.views)
      (none : ∀ row ∈ c.views, row.status ≠ .live) : Maintains S identity h stream ⟨c, some confirmed⟩ ledger
  | session {d : Durable} {c : Catalog} {ledger : Nat → Absorption} (run : Maintains S identity h stream d ledger)
      (ids : Keyed ViewRow.id c.views) (rows : ∀ row' ∈ c.views, row'.status = .live → row' ∈ d.catalog.views) :
      Maintains S identity h stream { d with catalog := c } ledger
  | build {d : Durable} {ledger : Nat → Absorption} {sight : Sight} {point : Nat} {group : List Pending}
      (run : Maintains S identity h stream d ledger) (distinct : (group.map Pending.id).Nodup)
      (sees : ∀ relid, (sight.table relid).rows.Perm (h.asOf point relid))
      (loaded : ∀ view ∈ group, ∀ row ∈ d.catalog.views, row.id = view.id → row.spec = view.spec) :
      Maintains S identity h stream { d with catalog := d.catalog.populate sight point d.slot group }
        (builtLedger ledger point group (d.catalog.populate sight point d.slot group))
  | round {d d' : Durable} {settings : Settings} {faults : Faults} {cache : Nat → Option Relation} {peek : Peek} {confirmed : Nat}
      {ledger : Nat → Absorption} (run : Maintains S identity h stream d ledger) (slot : d.slot = some confirmed)
      (lag : peek.lag ≤ settings.maxSlotLagBytes) (reads : peek.Reads stream confirmed)
      (described : ∀ r ∈ changedRelids peek.transactions, Described S cache r)
      (state : d' ∈ runRound pf settings faults cache peek d) :
      Maintains S identity h stream d' fun id =>
        ⟨(ledger id).since, (ledger id).ends ++ absorbedBy pf settings faults cache d.catalog peek.transactions id⟩

theorem Maintains.delivers {d : Durable} {ledger : Nat → Absorption} (ordered : stream.Pairwise fun t u => t.endLsn < u.endLsn)
    (run : Maintains S identity h stream d ledger) : Delivers pf stream d ledger := by
  induction run with
  | start ids none => exact .start ids none
  | session run ids rows ih =>
      exact .others ih ids fun row' member live => Or.inl ⟨row', rows row' member live, live, rfl, rfl, rfl⟩
  | @build d ledger sight point group run distinct sees loaded ih =>
      obtain ⟨confirmed, once⟩ := ih.invariant ordered
      have built := @Catalog.populate_views sight point group distinct d.slot d.catalog
      have sameIds : (d.catalog.populate sight point d.slot group).views.map ViewRow.id = d.catalog.views.map ViewRow.id :=
        map_eq_of_forall₂ built fun _ _ step => step.1.id
      refine .others ih (by rw [Keyed, sameIds]; exact once.ids) fun row' member live => ?_
      obtain ⟨row, before, step, ahead⟩ := mem_of_forall₂_right built member
      by_cases inside : row.id ∈ group.map Pending.id
      · right
        have within : row'.id ∈ group.map Pending.id := step.id ▸ inside
        rcases step.inside inside with ⟨view, _, _, spec, _, rfl⟩ | ⟨message, rfl⟩
        · exact ⟨builtLedger_live member within live, ahead inside live⟩
        · exact absurd live Status.noConfusion
      · left
        obtain rfl := step.outside inside
        exact ⟨row', before, live, rfl, rfl, builtLedger_other inside⟩
  | round run slot lag reads described state ih => exact .round ih slot lag reads state

theorem Maintains.exact {d : Durable} {ledger : Nat → Absorption} (sends : List.Forall₂ (TransactionSends S identity) h.commits stream)
    (run : Maintains S identity h stream d ledger) : d.Exact S identity h ledger := by
  have ordered := sends_ordered sends
  induction run with
  | start ids none => exact fun base row member live => absurd live (none row member)
  | session run ids rows ih => exact fun base row member live => ih base row (rows row member live) live
  | @build d ledger sight point group run distinct sees loaded ih =>
      intro base row' member live projects keeps
      have built := @Catalog.populate_views sight point group distinct d.slot d.catalog
      obtain ⟨row, before, step, _⟩ := mem_of_forall₂_right built member
      by_cases inside : row.id ∈ group.map Pending.id
      · rcases step.inside inside with ⟨view, inGroup, same, spec, valid, rfl⟩ | ⟨message, rfl⟩
        · have isSpec : (row.rebuilt sight point view spec).spec = spec := by
            unfold Sight.spec at valid
            by_cases rebuild : view.rebuild = true
            · exact if_pos rebuild
            · rw [if_neg rebuild] at valid
              exact (if_neg rebuild).trans ((loaded view inGroup row before same.symm).trans (Except.ok.inj valid))
          rw [isSpec] at projects
          have holds := ViewSpec.populate_perm projects.fits.closed projects.fits.tabled sees
          rw [ViewRow.Holds, isSpec]
          exact holds
        · exact absurd live Status.noConfusion
      · obtain rfl := step.outside inside
        rw [builtLedger_other inside] at keeps
        exact ih base row' before live projects keeps
  | @round d d' settings faults cache peek confirmed ledger run slot lag reads described state ih =>
      obtain ⟨confirmed', once⟩ := (run.delivers ordered).invariant ordered
      obtain rfl := Option.some.inj (once.slot.symm.trans slot)
      exact ih.round sends once lag reads described state

/-- Over every run, whatever the replica identity: a live projection of one table holds its
query as of its frontier when the transactions since its population leave no old row behind,
and a round that meets no error of the environment has it absorb its whole peek or go stale. -/
theorem Maintains.projections_exact {d : Durable} {ledger : Nat → Absorption}
    (sends : List.Forall₂ (TransactionSends S identity) h.commits stream) (run : Maintains S identity h stream d ledger) :
    d.Exact S identity h ledger ∧ d.Settles S identity h stream ledger := by
  obtain ⟨confirmed, once⟩ := (run.delivers (sends_ordered sends)).invariant (sends_ordered sends)
  exact ⟨run.exact sends, (run.exact sends).settles sends once⟩

def orderHistory : History shop where
  start := fun relid => if relid = 1 then [orderBefore] else []
  commits := [⟨10, [.update 1 orderBefore orderAfter]⟩]
  ok := by
    constructor
    · intro relid
      split
      · exact List.nodup_singleton _
      · exact List.nodup_nil
    · intro relid row member
      split at member
      · obtain rfl := List.mem_singleton.mp member
        exact ⟨fun c within ty typed => (orders_described.typed c within ty typed).1, fun c within => List.mem_singleton.mp within ▸ nofun⟩
      · exact absurd member List.not_mem_nil
  increasing := List.pairwise_singleton _ _
  valid := by
    refine ⟨⟨List.mem_singleton_self _, ⟨fun c within ty typed => (orders_described.typed c within ty typed).2,
      fun c within => List.mem_singleton.mp within ▸ nofun⟩, ?_⟩, trivial⟩
    exact fun taken => absurd taken List.not_mem_nil

def orderStream (old : Option (UInt8 × Tuple)) : List SourceTransaction :=
  [⟨1, 9, 10, [.update 1 old (encodeRow .basic (shopRelation 1) orderAfter)]⟩]

def ordersSight : Sight where
  table := fun relid => ⟨[("id", "text"), ("ref", "text"), ("doc", "jsonb")], orderHistory.asOf 0 relid⟩
  validate := fun _ => .ok ordersSpec
  fault := fun _ => none

def ordersCreated : ViewRow := { ordersView.row with status := .initializing, populated := false }

def ordersBase : BaseRelation := ⟨1, 1, "public.orders", ["id"], ["id", "ref"], ["text", "text"], []⟩

theorem orders_projects : ordersSpec.Projects shop ordersBase where
  fits := {
    tabled := ⟨by decide, fun shape => Shape.noConfusion shape⟩
    oids := by decide
    used := by decide
    provided := by
      intro b member
      obtain rfl := List.mem_singleton.mp member
      exact show ∀ p ∈ [("id", "text"), ("ref", "text")], (shopRelation 1).provides p.1 p.2 by decide
    key := by
      intro b member
      obtain rfl := List.mem_singleton.mp member
      exact show ["id"] ⊆ ["id", "ref"] by decide
    vars := by
      intro e member v within
      simp only [ViewSpec.exprs, ordersSpec, SqlExpr.column, Option.toList, List.map_cons, List.map_nil, List.append_nil,
        List.nil_append, List.cons_append, List.mem_cons, List.not_mem_nil, or_false] at member
      rcases member with rfl | rfl | rfl | rfl <;> obtain rfl := List.mem_singleton.mp within <;>
        exact ⟨_, rfl, "text", by decide, rfl⟩
    keyColumn := by
      intro _ c member
      obtain rfl := List.mem_singleton.mp member
      exact ⟨0, _, "id", .text, rfl, List.mem_cons_self, List.mem_cons_self⟩
    keyCover := by
      intro _ i b at_i name inKey
      obtain rfl := List.mem_singleton.mp inKey
      cases i with
      | zero => exact ⟨"id", List.mem_cons_self, .text, List.mem_cons_self⟩
      | succ n => cases at_i }
  shape := rfl
  single := rfl
  pkColumns := rfl
  shown := .cons ⟨.text, List.mem_cons_self⟩ .nil
  sums := rfl

theorem orders_maintained {identity : Nat → Option (List String)} {old : Option (UInt8 × Tuple)}
    {result : RoundResult}
    (applied : applyRound .basic shopSettings Faults.none (some ∘ shopRelation)
      (Catalog.populate ordersSight 0 (some 0) [ordersCreated.pending] ⟨[ordersCreated], [(7, 1)], []⟩) (orderStream old) = .ok result)
    (free : result.blockedAt = none) :
    ∃ ledger, Maintains shop identity orderHistory (orderStream old) ⟨result.catalog, some 0⟩ ledger := by
  have created : Maintains shop identity orderHistory (orderStream old) ⟨⟨[ordersCreated], [(7, 1)], []⟩, some 0⟩ fun _ => ⟨0, []⟩ := by
    refine .start (List.nodup_singleton _) fun row member => ?_
    obtain rfl := List.mem_singleton.mp member
    exact Status.noConfusion
  have populated : Maintains shop identity orderHistory (orderStream old)
      ⟨Catalog.populate ordersSight 0 (some 0) [ordersCreated.pending] ⟨[ordersCreated], [(7, 1)], []⟩, some 0⟩
      (builtLedger (fun _ => ⟨0, []⟩) 0 [ordersCreated.pending]
        (Catalog.populate ordersSight 0 (some 0) [ordersCreated.pending] ⟨[ordersCreated], [(7, 1)], []⟩)) := by
    refine .build created (List.nodup_singleton _) (fun relid => List.Perm.refl _) fun view inGroup row member _ => ?_
    obtain rfl := List.mem_singleton.mp inGroup
    obtain rfl := List.mem_singleton.mp member
    rfl
  have state : (⟨result.catalog, some 0⟩ : Durable) ∈ runRound .basic shopSettings Faults.none (some ∘ shopRelation)
      ⟨0, 10, orderStream old, true, false⟩
      ⟨Catalog.populate ordersSight 0 (some 0) [ordersCreated.pending] ⟨[ordersCreated], [(7, 1)], []⟩, some 0⟩ := by
    apply List.mem_of_getElem? (i := 0)
    simp only [runRound, applied, free]
    rfl
  refine ⟨_, Maintains.round populated rfl (show (0 : Int) ≤ 1000000 by decide) ⟨10, rfl, fun _ => le_refl 10⟩ ?_ state⟩
  intro r member
  exact Described.of_relation rfl

/-- The replica identity is a unique index on the customer, which did not change: no old tuple
is sent, and the row with the old id is left over. -/
theorem orders_left_over : ∃ (d : Durable) (ledger : Nat → Absorption), ∃ row ∈ d.catalog.views,
    List.Forall₂ (TransactionSends shop fun _ => some ["ref"]) orderHistory.commits (orderStream none) ∧
      Maintains shop (fun _ => some ["ref"]) orderHistory (orderStream none) d ledger ∧ row.status = .live ∧
      row.spec.Projects shop ordersBase ∧ row.frontier = 10 ∧
      row.storage = [[("id", .text "a"), ("ref", .text "c")], [("id", .text "b"), ("ref", .text "c")]] ∧
      ¬ row.Holds (orderHistory.asOf row.frontier) := by
  obtain ⟨result, row, applied, free, views, live, spec, frontier, storage⟩ : ∃ result row,
      applyRound .basic shopSettings Faults.none (some ∘ shopRelation)
        (Catalog.populate ordersSight 0 (some 0) [ordersCreated.pending] ⟨[ordersCreated], [(7, 1)], []⟩) (orderStream none) = .ok result ∧
      result.blockedAt = none ∧ result.catalog.views = [row] ∧ row.status = .live ∧ row.spec = ordersSpec ∧ row.frontier = 10 ∧
      row.storage = [[("id", .text "a"), ("ref", .text "c")], [("id", .text "b"), ("ref", .text "c")]] :=
    ⟨_, _, rfl, rfl, rfl, rfl, rfl, rfl, rfl⟩
  obtain ⟨ledger, run⟩ := orders_maintained applied free
  have sends : List.Forall₂ (TransactionSends shop fun _ => some ["ref"]) orderHistory.commits (orderStream none) :=
    .cons ⟨rfl, .cons (.update rfl rfl) .nil⟩ .nil
  refine ⟨_, ledger, row, views ▸ List.mem_singleton_self row, sends, run, live, spec ▸ orders_projects, frontier, storage, ?_⟩
  intro holds
  rw [ViewRow.Holds, spec, frontier, storage] at holds
  exact absurd holds.length_eq (by decide)

/-- Under the primary key the same update sends the old id, and the view follows. -/
theorem orders_follow : ∃ (d : Durable) (ledger : Nat → Absorption), ∃ row ∈ d.catalog.views, row.status = .live ∧ row.frontier = 10 ∧
    row.storage = [[("id", .text "b"), ("ref", .text "c")]] ∧ row.Holds (orderHistory.asOf row.frontier) ∧
      d.Settles shop (fun _ => some ["id"]) orderHistory
        (orderStream (some (keyTuple, encodeKey .basic (shopRelation 1) ["id"] orderBefore))) ledger := by
  obtain ⟨result, row, applied, free, views, live, spec, frontier, storage⟩ : ∃ result row,
      applyRound .basic shopSettings Faults.none (some ∘ shopRelation)
        (Catalog.populate ordersSight 0 (some 0) [ordersCreated.pending] ⟨[ordersCreated], [(7, 1)], []⟩)
        (orderStream (some (keyTuple, encodeKey .basic (shopRelation 1) ["id"] orderBefore))) = .ok result ∧
      result.blockedAt = none ∧ result.catalog.views = [row] ∧ row.status = .live ∧ row.spec = ordersSpec ∧ row.frontier = 10 ∧
      row.storage = [[("id", .text "b"), ("ref", .text "c")]] :=
    ⟨_, _, rfl, rfl, rfl, rfl, rfl, rfl, rfl⟩
  obtain ⟨ledger, run⟩ := orders_maintained applied free
  have sends : List.Forall₂ (TransactionSends shop fun _ => some ["id"]) orderHistory.commits
      (orderStream (some (keyTuple, encodeKey .basic (shopRelation 1) ["id"] orderBefore))) :=
    .cons ⟨rfl, .cons (.updateKey rfl (by decide)) .nil⟩ .nil
  have member : row ∈ result.catalog.views := views ▸ List.mem_singleton_self row
  obtain ⟨exact', settles⟩ := Maintains.projections_exact sends run
  refine ⟨_, ledger, row, member, live, frontier, storage, ?_, settles⟩
  apply exact' ordersBase row member live (spec ▸ orders_projects)
  intro t inCommits _ _ rc inChanges
  obtain rfl := List.mem_singleton.mp inCommits
  obtain rfl := List.mem_singleton.mp inChanges
  rw [spec]
  refine fun _ => ⟨fun _ key index same => ?_, fun _ _ o selected => ?_⟩
  · obtain rfl := Option.some.inj index
    exact absurd same (by decide)
  · simp only [ordersSpec, List.mem_cons, List.not_mem_nil, or_false] at selected
    rcases selected with rfl | rfl <;> exact fun same => absurd same (by decide)

end Nabla
