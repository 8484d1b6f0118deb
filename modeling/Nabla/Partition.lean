import Nabla.Batching
import Nabla.Round

/-! Rounds over the parts of a list of source transactions, and the one round over all
of it. -/
namespace Nabla
open Bags

variable {pf : Platform} {settings : Settings} {faults : Faults}

/-- The rounds over the parts, each from the catalog and the descriptions the last one left. -/
def applyRounds (pf : Platform) (settings : Settings) (faults : Faults) :
    (Nat → Option Relation) → Catalog → List (List SourceTransaction) → Except String Catalog
  | _, c, [] => .ok c
  | cache, c, part :: parts =>
    match applyRound pf settings faults cache c part with
    | .error e => .error e
    | .ok result => applyRounds pf settings faults result.relations result.catalog parts

section Congruence

variable {rels rels' : List (Nat × Relation)}

theorem applyRelids_congr {e position : Nat} {change : Change} {relids : List Nat}
    (same : ∀ r ∈ relids, rels.lookup r = rels'.lookup r) (st : RoundState) :
    applyRelids pf faults rels e position change relids st = applyRelids pf faults rels' e position change relids st := by
  induction relids generalizing st with
  | nil => rfl
  | cons relid relids ih =>
      have here : applyRelid pf faults rels e position change relid st =
          applyRelid pf faults rels' e position change relid st := by
        unfold applyRelid
        rw [same relid List.mem_cons_self]
      rw [applyRelids, applyRelids, here]
      cases applyRelid pf faults rels' e position change relid st with
      | error message => rfl
      | ok st' => exact ih (fun r member => same r (List.mem_cons_of_mem _ member)) st'

theorem applyChanges_congr {e position : Nat} {changes : List Change}
    (same : ∀ r ∈ changes.flatMap Change.relids, rels.lookup r = rels'.lookup r) (st : RoundState) :
    applyChanges pf faults rels e position changes st = applyChanges pf faults rels' e position changes st := by
  induction changes generalizing position st with
  | nil => rfl
  | cons change changes ih =>
      rw [List.flatMap_cons] at same
      rw [applyChanges, applyChanges, applyRelids_congr fun r member => same r (List.mem_append_left _ member)]
      cases applyRelids pf faults rels' e position change change.relids st with
      | error message => rfl
      | ok st' => exact ih (fun r member => same r (List.mem_append_right _ member)) st'

theorem applyTransactions_congr {ti : Nat} {txs : List SourceTransaction}
    (same : ∀ r ∈ changedRelids txs, rels.lookup r = rels'.lookup r) (st : RoundState) :
    applyTransactions pf settings faults rels ti txs st = applyTransactions pf settings faults rels' ti txs st := by
  induction txs generalizing ti st with
  | nil => rfl
  | cons tx txs ih =>
      rw [changedRelids, List.flatMap_cons] at same
      have first : applyTransaction pf settings faults rels tx st = applyTransaction pf settings faults rels' tx st := by
        rw [applyTransaction, applyTransaction, applyChanges_congr fun r member => same r (List.mem_append_left _ member)]
      rw [applyTransactions, applyTransactions, first]
      cases applyTransaction pf settings faults rels' tx st with
      | error message => rfl
      | ok step =>
          dsimp only
          rw [ih fun r member => same r (List.mem_append_right _ member)]

end Congruence

/-- The description of the relation matches what the live views and the shadows recorded
of its columns. -/
structure Catalog.Matches (relation : Nat → Relation) (c : Catalog) (relid : Nat) : Prop where
  views : ∀ row ∈ c.views, row.status = .live → row.spec.drift relid (relation relid) = none
  shadows : ∀ s ∈ c.shadows, s.relid = relid → s.failed = false →
    ∀ p ∈ s.columns.zip s.columnTypes, (relation relid).provides p.1 p.2 = true

theorem shadowDrift_provided {s : ShadowRow} {rel : Relation}
    (provided : ∀ p ∈ s.columns.zip s.columnTypes, rel.provides p.1 p.2 = true) (qualified : String) : shadowDrift s rel qualified = s := by
  have none : ((s.columns.zip s.columnTypes).filter fun c => !rel.provides c.1 c.2).map Prod.fst = [] := by
    rw [List.map_eq_nil_iff, List.filter_eq_nil_iff]
    intro c member
    rw [provided c member, Bool.not_true]
    exact Bool.false_ne_true
  unfold shadowDrift
  dsimp only
  rw [if_pos none]

/-- Nothing drifts. -/
theorem Catalog.Matches.start {relation : Nat → Relation} {c : Catalog} (roundEnd : Nat) {rels : List (Nat × Relation)}
    (known : ∀ p ∈ rels, p.2 = relation p.1 ∧ c.Matches relation p.1) :
    rels.foldl (driftRelation roundEnd) ⟨c.liveViews, c.shadows⟩ = ⟨c.liveViews, c.shadows⟩ := by
  induction rels with
  | nil => rfl
  | cons p rels ih =>
      obtain ⟨eq, fits⟩ := known p List.mem_cons_self
      have still : driftRelation roundEnd ⟨c.liveViews, c.shadows⟩ p = ⟨c.liveViews, c.shadows⟩ := by
        obtain ⟨relid, rel⟩ := p
        dsimp only at eq fits
        subst eq
        unfold driftRelation
        dsimp only
        congr 1
        · refine List.map_congr_left (g := id) (fun v member => ?_) |>.trans (List.map_id _)
          obtain ⟨row, inViews, live, rfl⟩ := Catalog.mem_liveViews member
          split
          · rw [show (LiveView.load row).row.spec = row.spec from rfl, fits.views row inViews live]
            rfl
          · rfl
        · refine List.map_congr_left (g := id) (fun s member => ?_) |>.trans (List.map_id _)
          split
          · rename_i here
            dsimp only [id]
            split
            · rename_i active
              rw [Bool.and_eq_true, Bool.not_eq_true'] at active
              exact shadowDrift_provided (fits.shadows s member here active.1) _
            · rfl
          · rfl
      rw [List.foldl_cons, still]
      exact ih fun q member => known q (List.mem_cons_of_mem _ member)

/-- What a round needs of its descriptions: one for each changed relation, and it matches. -/
def Catalog.Reads (pf : Platform) (relation : Nat → Relation) (cache : Nat → Option Relation) (c : Catalog)
    (txs : List SourceTransaction) : Prop :=
  ∀ r ∈ changedRelids txs, DescribedAs pf relation cache r ∧ c.Matches relation r

def relationList (relation : Nat → Relation) (relids : List Nat) : List (Nat × Relation) :=
  relids.map fun r => (r, relation r)

theorem lookup_relationList (relation : Nat → Relation) {relids : List Nat} {r : Nat} (member : r ∈ relids) :
    (relationList relation relids).lookup r = some (relation r) := by
  refine lookup_known (fun p within => ?_) ?_
  · obtain ⟨q, _, rfl⟩ := List.mem_map.mp within
    rfl
  · rw [Option.isSome_iff_ne_none, ne_eq, List.lookup_eq_none_iff]
    intro none
    have apart := none (r, relation r) (List.mem_map_of_mem member)
    simp only [bne_self_eq_false, Bool.false_eq_true] at apart

/-- A round that finds one matching description of each relation is its transactions and
its bookkeeping. -/
theorem applyRound_plain {relation : Nat → Relation} {cache : Nat → Option Relation} {c : Catalog}
    {txs : List SourceTransaction} {relids : List Nat} (reads : c.Reads pf relation cache txs)
    (within : ∀ r ∈ changedRelids txs, r ∈ relids) :
    ∃ cache', (∀ r, DescribedAs pf relation cache r → DescribedAs pf relation cache' r) ∧
      applyRound pf settings faults cache c txs =
        match applyTransactions pf settings faults (relationList relation relids) 0 txs ⟨c.liveViews, c.shadows⟩ with
        | .error e => .error e
        | .ok (st, blockedAt) => (finishViews settings st.views).map fun written =>
          ⟨c.writeBack written st.shadows, cache', blockedAt, st.views⟩ := by
  obtain ⟨cache', rels, collected, known, origin, found, kept⟩ := @collectRelations_as pf relation (changedRelids txs) cache
    [] (fun r member => (reads r member).1) fun p member => absurd member List.not_mem_nil
  refine ⟨cache', kept, ?_⟩
  have matched : ∀ p ∈ rels, p.2 = relation p.1 ∧ c.Matches relation p.1 := fun p member =>
    ⟨known p member, (reads p.1 ((origin p member).resolve_left List.not_mem_nil)).2⟩
  have same : ∀ r ∈ changedRelids txs, rels.lookup r = (relationList relation relids).lookup r := by
    intro r member
    rw [lookup_known known (found r (Or.inl member)), lookup_relationList relation (within r member)]
  cases done : applyTransactions pf settings faults (relationList relation relids) 0 txs ⟨c.liveViews, c.shadows⟩ with
  | error e => simp only [applyRound, collected, Catalog.Matches.start _ matched, applyTransactions_congr same, done]
  | ok state =>
      obtain ⟨st, blockedAt⟩ := state
      simp only [applyRound, collected, Catalog.Matches.start _ matched, applyTransactions_congr same, done]

theorem applyTransactions_replay (rels : List (Nat × Relation)) (ti : Nat) (txs : List SourceTransaction)
    (shadows : List ShadowRow) :
    (∃ message, ∀ views, applyTransactions pf settings faults rels ti txs ⟨views, shadows⟩ = .error message) ∨
    ∃ events left, ∀ views, ∃ blockedAt, applyTransactions pf settings faults rels ti txs ⟨views, shadows⟩ =
      .ok (⟨views.map (LiveView.replay pf settings faults events), left⟩, blockedAt) := by
  have same : List.Forall₂ ShadowRow.Like shadows shadows := List.forall₂_same.mpr fun s _ => ShadowRow.Like.refl s
  rcases @applyTransactions_traced pf settings faults rels ti txs shadows with ⟨message, failed⟩ | ⟨events, _, done⟩
  · refine Or.inl ⟨message, fun views => ?_⟩
    have ran := failed shadows same views
    cases eq : applyTransactions pf settings faults rels ti txs ⟨views, shadows⟩ with
    | error e =>
        simp only [eq, Except.map, Except.error.injEq] at ran
        rw [ran]
    | ok r => simp only [eq, Except.map, reduceCtorEq] at ran
  · obtain ⟨left, _, done⟩ := done shadows same
    refine Or.inr ⟨events, left, fun views => ?_⟩
    have ran := done views
    cases eq : applyTransactions pf settings faults rels ti txs ⟨views, shadows⟩ with
    | error e => simp only [eq, Except.map, reduceCtorEq] at ran
    | ok r =>
        simp only [eq, Except.map, Except.ok.injEq] at ran
        exact ⟨r.2, by rw [← ran]⟩

theorem applyTransactions_append (rels : List (Nat × Relation)) (ti : Nat) (xs ys : List SourceTransaction)
    (st : RoundState) : (applyTransactions pf settings faults rels ti (xs ++ ys) st).map Prod.fst =
      match applyTransactions pf settings faults rels ti xs st with
      | .error e => .error e
      | .ok (st', _) => (applyTransactions pf settings faults rels 0 ys st').map Prod.fst := by
  induction xs generalizing ti st with
  | nil => exact applyTransactions_index rels ti 0 ys st
  | cons tx xs ih =>
      rw [List.cons_append, applyTransactions, applyTransactions]
      cases applyTransaction pf settings faults rels tx st with
      | error message => rfl
      | ok step =>
          have rest := ih (ti + 1) step.1
          dsimp only
          revert rest
          cases applyTransactions pf settings faults rels (ti + 1) (xs ++ ys) step.1 <;>
            cases applyTransactions pf settings faults rels (ti + 1) xs step.1 <;> exact id

/-- A round leaves a shadow's columns alone, and never repairs it. -/
structure ShadowRow.Stays (s s' : ShadowRow) : Prop where
  relid : s'.relid = s.relid
  columns : s'.columns = s.columns
  types : s'.columnTypes = s.columnTypes
  failed : s.failed = true → s'.failed = true

theorem ShadowRow.Stays.trans {s s' s'' : ShadowRow} (first : s.Stays s') (second : s'.Stays s'') : s.Stays s'' :=
  ⟨second.relid.trans first.relid, second.columns.trans first.columns, second.types.trans first.types,
    fun failed => second.failed (first.failed failed)⟩

theorem Stays.keyed {shadows shadows' : List ShadowRow} (stays : List.Forall₂ ShadowRow.Stays shadows shadows')
    (keyed : Keyed ShadowRow.relid shadows) : Keyed ShadowRow.relid shadows' := by
  rw [Keyed, map_eq_of_forall₂ stays fun _ _ same => same.relid]
  exact keyed

theorem Stays.harmed {st st' : RoundState} (stays : List.Forall₂ ShadowRow.Stays st.shadows st'.shadows) {r : Nat}
    (harmed : st.Harmed r) : st'.Harmed r := by
  obtain ⟨s, member, relid, failed⟩ := harmed
  obtain ⟨s', member', same⟩ := mem_of_forall₂ stays member
  exact ⟨s', member', same.relid.trans relid, same.failed failed⟩

theorem ShadowRow.Kept.stays {e : Nat} {s s' : ShadowRow} (kept : s.Kept e s') : s.Stays (advanceShadow e s') := by
  have stays : s.Stays s' := by
    refine ⟨kept.relid, kept.columns, by rw [kept.same], fun failed => ?_⟩
    rw [kept.idle fun active => by
      rw [active.1] at failed
      exact Bool.false_ne_true failed]
    exact failed
  unfold advanceShadow
  split
  · exact ⟨stays.relid, stays.columns, stays.types, stays.failed⟩
  · exact stays

theorem applyTransaction_rested {rels : List (Nat × Relation)} {tx : SourceTransaction} {st st' : RoundState}
    {blocked : Bool} (keyed : Keyed ShadowRow.relid st.shadows)
    (applied : applyTransaction pf settings faults rels tx st = .ok (st', blocked)) :
    List.Forall₂ ShadowRow.Stays st.shadows st'.shadows ∧
      ((∀ r, st'.Harmed r → st.Harmed r) → (∀ v ∈ st.views, v.Rested) → ∀ v ∈ st'.views, v.Rested) := by
  unfold applyTransaction at applied
  cases changed : applyChanges pf faults rels tx.endLsn 0 tx.changes st with
  | error message => simp only [changed, Except.map, reduceCtorEq] at applied
  | ok planned =>
      simp only [changed, Except.map, Except.ok.injEq, Prod.mk.injEq] at applied
      obtain ⟨rfl, rfl⟩ := applied
      obtain ⟨kept, quiet⟩ := applyChanges_quiet changed keyed
      constructor
      · rw [List.forall₂_map_right_iff]
        exact kept.shadows.imp fun s s' same => same.stays
      · intro sound rested v' member
        obtain ⟨v₁, inPlanned, rfl⟩ := List.mem_map.mp member
        have quiet := quiet fun r harmed => sound r (by
          obtain ⟨s, within, relid, failed⟩ := harmed
          refine ⟨advanceShadow tx.endLsn s, List.mem_map_of_mem within, ?_⟩
          simp only [advanceShadow, failed, Bool.not_true, Bool.false_and, Bool.false_eq_true, if_false]
          exact ⟨relid, trivial⟩)
        obtain ⟨v, inViews, same⟩ := mem_of_forall₂_right quiet inPlanned
        exact same.rested (rested v inViews)

theorem applyTransactions_rested {rels : List (Nat × Relation)} {ti : Nat} {txs : List SourceTransaction}
    {st st' : RoundState} {blockedAt : Option Nat} (keyed : Keyed ShadowRow.relid st.shadows)
    (ran : applyTransactions pf settings faults rels ti txs st = .ok (st', blockedAt)) :
    List.Forall₂ ShadowRow.Stays st.shadows st'.shadows ∧
      ((∀ r, st'.Harmed r → st.Harmed r) → (∀ v ∈ st.views, v.Rested) → ∀ v ∈ st'.views, v.Rested) := by
  induction txs generalizing ti st blockedAt with
  | nil =>
      obtain ⟨rfl, rfl⟩ := Prod.mk.inj (Except.ok.inj ran)
      exact ⟨List.forall₂_same.mpr fun s _ => ⟨rfl, rfl, rfl, id⟩, fun _ rested => rested⟩
  | cons tx txs ih =>
      rw [applyTransactions] at ran
      cases first : applyTransaction pf settings faults rels tx st with
      | error message => simp only [first, reduceCtorEq] at ran
      | ok step =>
          obtain ⟨st₁, blocked⟩ := step
          cases rest : applyTransactions pf settings faults rels (ti + 1) txs st₁ with
          | error message => simp only [first, rest, Except.map, reduceCtorEq] at ran
          | ok result =>
              simp only [first, rest, Except.map, Except.ok.injEq, Prod.mk.injEq] at ran
              obtain ⟨rfl, rfl⟩ := ran
              obtain ⟨stays, rests⟩ := applyTransaction_rested keyed first
              obtain ⟨stays', rests'⟩ := ih (Stays.keyed stays keyed) rest
              refine ⟨forall₂_trans (fun _ _ _ left right => left.trans right) stays stays', fun sound rested => ?_⟩
              exact rests' (fun r harmed => Stays.harmed stays (sound r harmed))
                (rests (fun r harmed => sound r (Stays.harmed stays' harmed)) rested)

theorem LiveView.settledRow_same (v : LiveView) : (v.settledRow settings).id = v.row.id ∧
    (v.settledRow settings).spec = v.row.spec ∧ (v.settledRow settings).status = v.row.status := by
  unfold LiveView.settledRow
  cases v.absorbed.getLast? <;> exact ⟨rfl, rfl, rfl⟩

theorem Catalog.writeBack_settled {c : Catalog} (ids : Keyed ViewRow.id c.views) {h : LiveView → LiveView}
    (same : ∀ v, (h v).row.id = v.row.id) (shadows : List ShadowRow) :
    (c.writeBack ((c.liveViews.map h).map (LiveView.settledRow settings)) shadows).views =
      c.views.map fun row => if row.status = .live then (h (LiveView.load row)).settledRow settings else row := by
  refine List.map_congr_left fun row member => ?_
  have rowId : ∀ r : ViewRow, ((h (LiveView.load r)).settledRow settings).id = r.id := fun r =>
    (LiveView.settledRow_same _).1.trans (same _)
  have written : (c.liveViews.map h).map (LiveView.settledRow settings) =
      (c.views.filter (·.status = .live)).map fun r => (h (LiveView.load r)).settledRow settings := by
    rw [Catalog.liveViews, List.map_map, List.map_map]
    rfl
  rw [written]
  by_cases live : row.status = .live
  · rw [if_pos live]
    have keyed : Keyed ViewRow.id ((c.views.filter (·.status = .live)).map fun r => (h (LiveView.load r)).settledRow settings) := by
      have eq : ((c.views.filter (·.status = .live)).map fun r => (h (LiveView.load r)).settledRow settings).map ViewRow.id =
          (c.views.filter (·.status = .live)).map ViewRow.id := by
        rw [List.map_map]
        exact List.map_congr_left fun r _ => rowId r
      rw [Keyed, eq]
      exact ids.filter _
    have within : (h (LiveView.load row)).settledRow settings ∈
        (c.views.filter (·.status = .live)).map fun r => (h (LiveView.load r)).settledRow settings := by
      refine List.mem_map_of_mem (f := fun r => (h (LiveView.load r)).settledRow settings) ?_
      rw [List.mem_filter, decide_eq_true_eq]
      exact ⟨member, live⟩
    have found := keyed.find_of_mem within
    rw [rowId] at found
    rw [found, Option.getD_some]
  · rw [if_neg live]
    have missing : ((c.views.filter (·.status = .live)).map fun r => (h (LiveView.load r)).settledRow settings).find?
        (·.id = row.id) = none := by
      rw [List.find?_eq_none]
      intro r' within eq
      obtain ⟨r, inLive, rfl⟩ := List.mem_map.mp within
      rw [List.mem_filter, decide_eq_true_eq] at inLive
      rw [decide_eq_true_eq, rowId] at eq
      rw [ids.eq_of_mem inLive.1 member eq] at inLive
      exact live inLive.2
    rw [missing, Option.getD_none]

/-- The transactions plan, maintain the shadows and execute as `events`, and leave the
shadows `left`, for any views. -/
def ReplaysAs (pf : Platform) (settings : Settings) (faults : Faults) (rels : List (Nat × Relation))
    (txs : List SourceTransaction) (shadows : List ShadowRow) (events : List ViewEvent) (left : List ShadowRow) : Prop :=
  ∀ ti views, ∃ blockedAt, applyTransactions pf settings faults rels ti txs ⟨views, shadows⟩ =
    .ok (⟨views.map (LiveView.replay pf settings faults events), left⟩, blockedAt)

/-- A view that comes out of a round without a failure, its numbers within their columns'
types and, where it has news, its name within the channel's length. -/
structure LiveView.Clean (v : LiveView) : Prop where
  sound : v.failedThisRound = false
  seq : v.lastSeq < 2 ^ 63
  position : v.frontier < 2 ^ 64
  short : v.row.lastSeq < v.lastSeq → v.row.name.utf8ByteSize ≤ 57

theorem LiveView.Numbered.bounded {v : LiveView} (numbered : v.Numbered) (seq : v.lastSeq < 2 ^ 63)
    (position : v.frontier < 2 ^ 64) : v.Bounded := fun d member =>
  ⟨(numbered.bound d member).1.trans_lt seq, (numbered.bound d member).2.trans_lt position⟩

theorem LiveView.Numbered.news {v : LiveView} (numbered : v.Numbered) : v.pending ≠ [] ↔ v.row.lastSeq < v.lastSeq := by
  rw [numbered.count, ← List.length_pos_iff]
  omega

theorem finishViews_clean {views : List LiveView} (numbered : ∀ v ∈ views, v.Numbered)
    (small : ∀ v ∈ views, v.lastSeq < 2 ^ 63 ∧ v.frontier < 2 ^ 64) (sound : ∀ v ∈ views, v.failedThisRound = false) :
    (∃ rows, finishViews settings views = .ok rows) ↔ ∀ v ∈ views, v.Clean := by
  rw [finishViews_ok_iff fun v member => (numbered v member).bounded (small v member).1 (small v member).2]
  constructor
  · intro short v member
    refine ⟨sound v member, (small v member).1, (small v member).2, fun news => ?_⟩
    have some := (numbered v member).news.mpr news
    exact short v member ((numbered v member).worked some) some
  · intro clean v member _ some
    exact (clean v member).short ((numbered v member).news.mp some)

theorem finishViews_settled {views : List LiveView} {rows : List ViewRow} (done : finishViews settings views = .ok rows) :
    rows = views.map (LiveView.settledRow settings) := by
  have finished := finishViews_iff.mp done
  clear done
  induction finished with
  | nil => rfl
  | cons head tail ih => rw [List.map_cons, LiveView.finish_settledRow head, ih]

def KeepsWhole (shadows left : List ShadowRow) : Prop :=
  ∀ s ∈ left, s.failed = true → ∃ s₀ ∈ shadows, s₀.relid = s.relid ∧ s₀.failed = true

/-- A round in which no planning, no execution and no shadow's maintenance fails. -/
structure CleanRound (pf : Platform) (settings : Settings) (faults : Faults) (cache : Nat → Option Relation) (c : Catalog)
    (txs : List SourceTransaction) (result : RoundResult) : Prop where
  applied : applyRound pf settings faults cache c txs = .ok result
  views : ∀ v ∈ result.views, v.failedThisRound = false
  shadows : KeepsWhole c.shadows result.catalog.shadows

/-- The numbers of the views fit their columns, a `bigint` and a `pg_lsn`. -/
def Catalog.Fits (c : Catalog) : Prop := ∀ row ∈ c.views, row.lastSeq < 2 ^ 63 ∧ row.frontier < 2 ^ 64

/-- What a clean round leaves of one row of `nabla.views`. -/
def ViewRow.through (pf : Platform) (settings : Settings) (faults : Faults) (events : List ViewEvent) (row : ViewRow) : ViewRow :=
  if row.status = .live then (LiveView.replay pf settings faults events (LiveView.load row)).settledRow settings else row

def Catalog.through (pf : Platform) (settings : Settings) (faults : Faults) (events : List ViewEvent) (left : List ShadowRow)
    (c : Catalog) : Catalog :=
  { c with views := c.views.map (ViewRow.through pf settings faults events), shadows := left }

structure CleanTrace (pf : Platform) (settings : Settings) (faults : Faults) (rels : List (Nat × Relation)) (c : Catalog)
    (txs : List SourceTransaction) (events : List ViewEvent) (left : List ShadowRow) : Prop where
  replays : ReplaysAs pf settings faults rels txs c.shadows events left
  views : ∀ row ∈ c.views, row.status = .live → (LiveView.replay pf settings faults events (LiveView.load row)).Clean
  shadows : KeepsWhole c.shadows left

theorem replay_numbered (events : List ViewEvent) (row : ViewRow) :
    (LiveView.replay pf settings faults events (LiveView.load row)).Numbered :=
  (replay_grown events (LiveView.load row)).numbered (LiveView.load_numbered row)

theorem replay_same_id (events : List ViewEvent) (v : LiveView) :
    (LiveView.replay pf settings faults events v).row.id = v.row.id :=
  (replay_grown events v).same.id

theorem ReplaysAs.exists {rels : List (Nat × Relation)} {ti : Nat} {txs : List SourceTransaction} {views : List LiveView}
    {shadows : List ShadowRow} {result : RoundState × Option Nat}
    (ran : applyTransactions pf settings faults rels ti txs ⟨views, shadows⟩ = .ok result) :
    ∃ events left, ReplaysAs pf settings faults rels txs shadows events left := by
  rcases @applyTransactions_replay pf settings faults rels ti txs shadows with ⟨message, failed⟩ | ⟨events, left, done⟩
  · cases (failed views).symm.trans ran
  · refine ⟨events, left, fun tj views => ?_⟩
    obtain ⟨blockedAt, eq⟩ := done views
    have same := @applyTransactions_index pf settings faults rels ti tj txs ⟨views, shadows⟩
    rw [eq] at same
    cases other : applyTransactions pf settings faults rels tj txs ⟨views, shadows⟩ with
    | error message => simp only [other, Except.map, reduceCtorEq] at same
    | ok r =>
        simp only [other, Except.map, Except.ok.injEq] at same
        exact ⟨r.2, by rw [same]⟩

theorem mem_replayed {c : Catalog} {events : List ViewEvent} {v : LiveView}
    (member : v ∈ c.liveViews.map (LiveView.replay pf settings faults events)) :
    ∃ row ∈ c.views, row.status = .live ∧ v = LiveView.replay pf settings faults events (LiveView.load row) := by
  obtain ⟨w, inLive, rfl⟩ := List.mem_map.mp member
  obtain ⟨row, inViews, live, rfl⟩ := Catalog.mem_liveViews inLive
  exact ⟨row, inViews, live, rfl⟩

theorem replayed_mem {c : Catalog} (events : List ViewEvent) {row : ViewRow} (member : row ∈ c.views)
    (live : row.status = .live) :
    LiveView.replay pf settings faults events (LiveView.load row) ∈
      c.liveViews.map (LiveView.replay pf settings faults events) := by
  refine List.mem_map_of_mem (List.mem_map_of_mem ?_)
  rw [List.mem_filter, decide_eq_true_eq]
  exact ⟨member, live⟩

theorem replayed_numbered {c : Catalog} {events : List ViewEvent} {v : LiveView}
    (member : v ∈ c.liveViews.map (LiveView.replay pf settings faults events)) : v.Numbered := by
  obtain ⟨row, _, _, rfl⟩ := mem_replayed member
  exact replay_numbered events row

theorem Catalog.writeBack_through {c : Catalog} (ids : Keyed ViewRow.id c.views) (events : List ViewEvent) (left : List ShadowRow) :
    c.writeBack ((c.liveViews.map (LiveView.replay pf settings faults events)).map (LiveView.settledRow settings)) left =
      c.through pf settings faults events left := by
  exact congrArg (fun views => ({ c with views := views, shadows := left } : Catalog))
    (@Catalog.writeBack_settled settings c ids _ (@replay_same_id pf settings faults events) left)

theorem LiveView.Tidy.settled {v : LiveView} (tidy : v.Tidy) : (v.settledRow settings).lastSeq = v.lastSeq ∧
    (v.settledRow settings).frontier = v.frontier ∧ (v.settledRow settings).name = v.row.name := by
  unfold LiveView.settledRow
  cases absorbed : v.absorbed.getLast? with
  | none =>
      obtain ⟨frontier, lastSeq, _⟩ := tidy.idle (List.getLast?_eq_none_iff.mp absorbed)
      exact ⟨lastSeq.symm, frontier.symm, rfl⟩
  | some e => exact ⟨rfl, (tidy.position e absorbed).symm, rfl⟩

theorem replay_settled (events : List ViewEvent) (row : ViewRow) :
    ((LiveView.replay pf settings faults events (LiveView.load row)).settledRow settings).lastSeq =
        (LiveView.replay pf settings faults events (LiveView.load row)).lastSeq ∧
      ((LiveView.replay pf settings faults events (LiveView.load row)).settledRow settings).frontier =
        (LiveView.replay pf settings faults events (LiveView.load row)).frontier := by
  have settled := @LiveView.Tidy.settled settings _ (@replay_tidy pf settings faults events _ (LiveView.load_tidy row none))
  exact ⟨settled.1, settled.2.1⟩

theorem CleanTrace.rested {rels : List (Nat × Relation)} {c : Catalog} {txs : List SourceTransaction}
    {events : List ViewEvent} {left : List ShadowRow} (trace : CleanTrace pf settings faults rels c txs events left)
    (keyed : Keyed ShadowRow.relid c.shadows) {row : ViewRow} (member : row ∈ c.views) (live : row.status = .live) :
    (LiveView.replay pf settings faults events (LiveView.load row)).Rested := by
  obtain ⟨blockedAt, ran⟩ := trace.replays 0 c.liveViews
  obtain ⟨_, rests⟩ := @applyTransactions_rested pf settings faults rels 0 txs ⟨c.liveViews, c.shadows⟩ _ _ keyed ran
  refine rests ?_ ?_ _ (replayed_mem events member live)
  · rintro r ⟨s, within, rfl, failed⟩
    exact trace.shadows s within failed
  · intro v inLive
    obtain ⟨row, _, live, rfl⟩ := Catalog.mem_liveViews inLive
    exact LiveView.load_rested live

theorem settle_same {v w : LiveView} (same : v.settle settings = w.settle settings) :
    v.settledRow settings = w.settledRow settings ∧ v.failedThisRound = w.failedThisRound ∧ v.lastSeq = w.lastSeq ∧
      v.frontier = w.frontier := by
  unfold LiveView.settle at same
  rw [LiveView.mk.injEq] at same
  obtain ⟨row, frontier, lastSeq, _, _, _, _, _, failed, _⟩ := same
  exact ⟨row, failed, lastSeq, frontier⟩

theorem LiveView.Grown.row {v u : LiveView} (grown : v.Grown u) :
    u.row.lastSeq = v.row.lastSeq ∧ u.row.name = v.row.name := by
  constructor <;> rw [grown.same]

theorem LiveView.Grown.clean {v u : LiveView} (grown : v.Grown u) (sound : v.failedThisRound = false)
    (clean : u.Clean) : v.Clean := by
  refine ⟨sound, grown.lastSeq.trans_lt clean.seq, grown.frontier.trans_lt clean.position, fun news => ?_⟩
  rw [← grown.row.2]
  refine clean.short ?_
  rw [grown.row.1]
  exact news.trans_le grown.lastSeq

theorem through_alive {v : LiveView} (tidy : v.Tidy) (numbered : v.Numbered) (rested : v.Rested) (alive : v.dead = false)
    (sound : v.failedThisRound = false) (events : List ViewEvent) :
    ((LiveView.replay pf settings faults events v).Clean ↔ v.Clean ∧
      (LiveView.replay pf settings faults events (LiveView.load (v.settledRow settings))).Clean) ∧
    ((LiveView.replay pf settings faults events v).Clean →
      (LiveView.replay pf settings faults events (LiveView.load (v.settledRow settings))).settledRow settings =
        (LiveView.replay pf settings faults events v).settledRow settings) := by
  have loaded := @LiveView.Rested.load settings v rested tidy alive sound
  have tidy' : (LiveView.load (v.settledRow settings)).Tidy := LiveView.load_tidy _ none
  have same : v.settle settings = (LiveView.load (v.settledRow settings)).settle settings := by rw [loaded]; rfl
  obtain ⟨lastSeq, _, name⟩ := @LiveView.Tidy.settled settings v tidy
  have grown := @replay_grown pf settings faults events v
  have grown' := @replay_grown pf settings faults events (LiveView.load (v.settledRow settings))
  have row' : (LiveView.load (v.settledRow settings)).row = v.settledRow settings := rfl
  have bases : v.row.lastSeq ≤ (v.settledRow settings).lastSeq := by
    rw [lastSeq, numbered.count]
    exact Nat.le_add_right _ _
  constructor
  · constructor
    · intro clean
      obtain ⟨_, failed, seq, position⟩ := settle_same (settle_replay tidy tidy' same clean.sound)
      refine ⟨grown.clean sound clean, failed ▸ clean.sound, seq ▸ clean.seq, position ▸ clean.position, fun news => ?_⟩
      rw [grown'.row.1, ← seq] at news
      rw [grown'.row.2, row', name, ← grown.row.2]
      refine clean.short ?_
      rw [grown.row.1]
      exact bases.trans_lt news
    · rintro ⟨first, second⟩
      obtain ⟨_, failed, seq, position⟩ := settle_same (settle_replay tidy' tidy same.symm second.sound)
      refine ⟨failed ▸ second.sound, seq ▸ second.seq, position ▸ second.position, fun news => ?_⟩
      rw [grown.row.1] at news
      rw [grown.row.2]
      rcases Nat.lt_or_ge v.row.lastSeq v.lastSeq with early | late
      · exact first.short early
      · rw [← name, ← row', ← grown'.row.2]
        refine second.short ?_
        rw [grown'.row.1, seq, row', lastSeq]
        exact late.trans_lt news
  · intro clean
    exact (settle_same (settle_replay tidy tidy' same clean.sound)).1.symm

theorem settledRow_status (v : LiveView) : (v.settledRow settings).status = v.row.status := v.settledRow_same.2.2

theorem through_twice {row : ViewRow} (live : row.status = .live) (first second : List ViewEvent)
    (rested : (LiveView.replay pf settings faults first (LiveView.load row)).Rested)
    (sound : (LiveView.replay pf settings faults first (LiveView.load row)).failedThisRound = false) :
    ((LiveView.replay pf settings faults (first ++ second) (LiveView.load row)).Clean ↔
      (LiveView.replay pf settings faults first (LiveView.load row)).Clean ∧
      ((row.through pf settings faults first).status = .live →
        (LiveView.replay pf settings faults second (LiveView.load (row.through pf settings faults first))).Clean)) ∧
    ((LiveView.replay pf settings faults (first ++ second) (LiveView.load row)).Clean →
      (row.through pf settings faults first).through pf settings faults second =
        row.through pf settings faults (first ++ second)) := by
  have tidy := @replay_tidy pf settings faults first (LiveView.load row) (LiveView.load_tidy row none)
  have numbered := @replay_numbered pf settings faults first row
  have once : row.through pf settings faults first =
      (LiveView.replay pf settings faults first (LiveView.load row)).settledRow settings := if_pos live
  have both : row.through pf settings faults (first ++ second) =
      (LiveView.replay pf settings faults (first ++ second) (LiveView.load row)).settledRow settings := if_pos live
  rw [once, both, LiveView.replay_append, Function.comp_apply, settledRow_status]
  unfold ViewRow.through
  rw [settledRow_status]
  cases dead : (LiveView.replay pf settings faults first (LiveView.load row)).dead with
  | false =>
      obtain ⟨clean, rows⟩ := @through_alive pf settings faults _ tidy numbered rested dead sound second
      have status := (rested.clear dead).2.2.2
      rw [if_pos status]
      refine ⟨clean.trans (and_congr_right fun _ => ⟨fun clean _ => clean, fun clean => clean status⟩), rows⟩
  | true =>
      have gone : (LiveView.replay pf settings faults first (LiveView.load row)).row.status ≠ .live := fun status => by
        rw [rested.dropped dead status] at sound
        cases sound
      rw [replay_dead dead, if_neg gone]
      exact ⟨⟨fun clean => ⟨clean, fun status => absurd status gone⟩, fun clean => clean.1⟩, fun _ => rfl⟩

theorem ReplaysAs.append {rels : List (Nat × Relation)} {xs ys : List SourceTransaction} {shadows mid left : List ShadowRow}
    {first second : List ViewEvent} (before : ReplaysAs pf settings faults rels xs shadows first mid)
    (after : ReplaysAs pf settings faults rels ys mid second left) :
    ReplaysAs pf settings faults rels (xs ++ ys) shadows (first ++ second) left := by
  intro ti views
  obtain ⟨_, ran⟩ := before ti views
  obtain ⟨_, ran'⟩ := after 0 (views.map (LiveView.replay pf settings faults first))
  have joined := @applyTransactions_append pf settings faults rels ti xs ys ⟨views, shadows⟩
  simp only [ran, ran', Except.map] at joined
  cases eq : applyTransactions pf settings faults rels ti (xs ++ ys) ⟨views, shadows⟩ with
  | error message => simp only [eq, reduceCtorEq] at joined
  | ok result =>
      simp only [eq, Except.ok.injEq] at joined
      refine ⟨result.2, congrArg Except.ok (Prod.ext ?_ rfl)⟩
      rw [joined, LiveView.replay_append, List.map_map]

theorem ReplaysAs.split {rels : List (Nat × Relation)} {xs ys : List SourceTransaction} {shadows left : List ShadowRow}
    {events : List ViewEvent} (whole : ReplaysAs pf settings faults rels (xs ++ ys) shadows events left) :
    ∃ first mid second, ReplaysAs pf settings faults rels xs shadows first mid ∧
      ReplaysAs pf settings faults rels ys mid second left ∧
      ReplaysAs pf settings faults rels (xs ++ ys) shadows (first ++ second) left := by
  obtain ⟨_, ran⟩ := whole 0 []
  have joined := @applyTransactions_append pf settings faults rels 0 xs ys ⟨[], shadows⟩
  rw [ran] at joined
  cases ran₁ : applyTransactions pf settings faults rels 0 xs ⟨[], shadows⟩ with
  | error message => simp only [ran₁, Except.map, reduceCtorEq] at joined
  | ok result =>
      obtain ⟨first, mid, before⟩ := ReplaysAs.exists ran₁
      obtain ⟨_, eq⟩ := before 0 []
      obtain rfl := Except.ok.inj (ran₁.symm.trans eq)
      simp only [ran₁, Except.map] at joined
      cases ran₂ : applyTransactions pf settings faults rels 0 ys ⟨[].map (LiveView.replay pf settings faults first), mid⟩ with
      | error message => simp only [ran₂, reduceCtorEq] at joined
      | ok result =>
          obtain ⟨second, left', after⟩ := ReplaysAs.exists ran₂
          obtain ⟨_, eq⟩ := after 0 ([].map (LiveView.replay pf settings faults first))
          obtain rfl := Except.ok.inj (ran₂.symm.trans eq)
          simp only [ran₂, Except.ok.injEq, RoundState.mk.injEq] at joined
          obtain ⟨_, rfl⟩ := joined
          exact ⟨first, mid, second, before, after, before.append after⟩

theorem ReplaysAs.stays {rels : List (Nat × Relation)} {txs : List SourceTransaction} {shadows left : List ShadowRow}
    {events : List ViewEvent} (replays : ReplaysAs pf settings faults rels txs shadows events left)
    (keyed : Keyed ShadowRow.relid shadows) : List.Forall₂ ShadowRow.Stays shadows left := by
  obtain ⟨_, ran⟩ := replays 0 []
  exact (@applyTransactions_rested pf settings faults rels 0 txs ⟨[], shadows⟩ _ _ keyed ran).1

theorem ViewRow.through_id (events : List ViewEvent) (row : ViewRow) : (row.through pf settings faults events).id = row.id := by
  unfold ViewRow.through
  split
  · exact (LiveView.settledRow_same _).1.trans (replay_same_id events _)
  · rfl

theorem Catalog.through_ids {c : Catalog} (ids : Keyed ViewRow.id c.views) (events : List ViewEvent) (left : List ShadowRow) :
    Keyed ViewRow.id (c.through pf settings faults events left).views := by
  have same : (c.through pf settings faults events left).views.map ViewRow.id = c.views.map ViewRow.id := by
    rw [Catalog.through, List.map_map]
    exact List.map_congr_left fun row _ => ViewRow.through_id events row
  rw [Keyed, same]
  exact ids

theorem Stays.failed {shadows left : List ShadowRow} (stays : List.Forall₂ ShadowRow.Stays shadows left) {s : ShadowRow}
    (member : s ∈ shadows) (failed : s.failed = true) : ∃ s' ∈ left, s'.relid = s.relid ∧ s'.failed = true := by
  obtain ⟨s', member', same⟩ := mem_of_forall₂ stays member
  exact ⟨s', member', same.relid, same.failed failed⟩

theorem CleanTrace.join {rels : List (Nat × Relation)} {c : Catalog} {xs ys : List SourceTransaction}
    {first second : List ViewEvent} {mid left : List ShadowRow} (keyed : Keyed ShadowRow.relid c.shadows)
    (before : CleanTrace pf settings faults rels c xs first mid)
    (after : CleanTrace pf settings faults rels (c.through pf settings faults first mid) ys second left) :
    CleanTrace pf settings faults rels c (xs ++ ys) (first ++ second) left ∧
      (c.through pf settings faults first mid).through pf settings faults second left =
        c.through pf settings faults (first ++ second) left := by
  have rows : ∀ row ∈ c.views, row.status = .live →
      (LiveView.replay pf settings faults (first ++ second) (LiveView.load row)).Clean ∧
      (row.through pf settings faults first).through pf settings faults second =
        row.through pf settings faults (first ++ second) := by
    intro row member live
    have clean := before.views row member live
    obtain ⟨both, same⟩ := through_twice live first second (before.rested keyed member live) clean.sound
    have whole := both.mpr ⟨clean, after.views _ (List.mem_map_of_mem member)⟩
    exact ⟨whole, same whole⟩
  refine ⟨⟨before.replays.append after.replays, fun row member live => (rows row member live).1, ?_⟩, ?_⟩
  · intro s member failed
    obtain ⟨s₁, inMid, relid, failed₁⟩ := after.shadows s member failed
    obtain ⟨s₀, inShadows, relid₀, failed₀⟩ := before.shadows s₁ inMid failed₁
    exact ⟨s₀, inShadows, relid₀.trans relid, failed₀⟩
  · unfold Catalog.through
    dsimp only
    rw [List.map_map]
    congr 1
    refine List.map_congr_left fun row member => ?_
    by_cases live : row.status = .live
    · exact (rows row member live).2
    · simp only [Function.comp_apply, ViewRow.through, if_neg live]

theorem CleanTrace.split {rels : List (Nat × Relation)} {c : Catalog} {xs ys : List SourceTransaction}
    {events : List ViewEvent} {left : List ShadowRow} (keyed : Keyed ShadowRow.relid c.shadows)
    (whole : CleanTrace pf settings faults rels c (xs ++ ys) events left) :
    ∃ first mid second, CleanTrace pf settings faults rels c xs first mid ∧
      CleanTrace pf settings faults rels (c.through pf settings faults first mid) ys second left ∧
      (c.through pf settings faults first mid).through pf settings faults second left = c.through pf settings faults events left := by
  obtain ⟨first, mid, second, before, after, both⟩ := whole.replays.split
  have same : ∀ v ∈ c.liveViews, LiveView.replay pf settings faults events v = LiveView.replay pf settings faults (first ++ second) v := by
    obtain ⟨_, ran⟩ := whole.replays 0 c.liveViews
    obtain ⟨_, ran'⟩ := both 0 c.liveViews
    have eq := congrArg (Prod.fst) (Except.ok.inj (ran.symm.trans ran'))
    exact List.map_inj_left.mp (congrArg RoundState.views eq)
  have clean : ∀ row ∈ c.views, row.status = .live →
      (LiveView.replay pf settings faults (first ++ second) (LiveView.load row)).Clean := by
    intro row member live
    rw [← same]
    · exact whole.views row member live
    · refine List.mem_map_of_mem ?_
      rw [List.mem_filter, decide_eq_true_eq]
      exact ⟨member, live⟩
  have stays := before.stays keyed
  have stays' := after.stays (Stays.keyed stays keyed)
  have grown := @replay_grown pf settings faults
  have firstTrace : CleanTrace pf settings faults rels c xs first mid := by
    refine ⟨before, fun row member live => ?_, fun s member failed => ?_⟩
    · have clean := clean row member live
      rw [LiveView.replay_append, Function.comp_apply] at clean
      exact (grown second _).clean (replay_failed clean.sound) clean
    · obtain ⟨s', inLeft, relid, failed'⟩ := Stays.failed stays' member failed
      obtain ⟨s₀, inShadows, relid₀, failed₀⟩ := whole.shadows s' inLeft failed'
      exact ⟨s₀, inShadows, relid₀.trans relid, failed₀⟩
  refine ⟨first, mid, second, firstTrace, ⟨after, ?_, ?_⟩, ?_⟩
  · intro row' member' live'
    obtain ⟨row, member, rfl⟩ := List.mem_map.mp member'
    by_cases live : row.status = .live
    · have done := firstTrace.views row member live
      exact ((through_twice live first second (firstTrace.rested keyed member live) done.sound).1.mp
        (clean row member live)).2 live'
    · rw [ViewRow.through, if_neg live] at live'
      exact absurd live' live
  · intro s member failed
    obtain ⟨s₀, inShadows, relid₀, failed₀⟩ := whole.shadows s member failed
    obtain ⟨s₁, inMid, relid₁, failed₁⟩ := Stays.failed stays inShadows failed₀
    exact ⟨s₁, inMid, relid₁.trans relid₀, failed₁⟩
  · unfold Catalog.through
    dsimp only
    rw [List.map_map]
    congr 1
    refine List.map_congr_left fun row member => ?_
    by_cases live : row.status = .live
    · have done := firstTrace.views row member live
      have eq := (through_twice live first second (firstTrace.rested keyed member live) done.sound).2 (clean row member live)
      rw [Function.comp_apply, eq, ViewRow.through, if_pos live, ViewRow.through, if_pos live, same]
      refine List.mem_map_of_mem ?_
      rw [List.mem_filter, decide_eq_true_eq]
      exact ⟨member, live⟩
    · simp only [Function.comp_apply, ViewRow.through, if_neg live]

theorem ViewRow.through_grown (events : List ViewEvent) (row : ViewRow) :
    row.lastSeq ≤ (row.through pf settings faults events).lastSeq ∧
      row.frontier ≤ (row.through pf settings faults events).frontier := by
  unfold ViewRow.through
  split
  · have grown := @replay_grown pf settings faults events (LiveView.load row)
    obtain ⟨lastSeq, frontier⟩ := @replay_settled pf settings faults events row
    rw [lastSeq, frontier]
    exact ⟨grown.lastSeq, grown.frontier⟩
  · exact ⟨le_refl _, le_refl _⟩

theorem Catalog.Fits.before {c : Catalog} {events : List ViewEvent} {left : List ShadowRow}
    (fits : (c.through pf settings faults events left).Fits) : c.Fits := by
  intro row member
  obtain ⟨seq, position⟩ := fits _ (List.mem_map_of_mem member)
  obtain ⟨lastSeq, frontier⟩ := @ViewRow.through_grown pf settings faults events row
  exact ⟨lastSeq.trans_lt seq, frontier.trans_lt position⟩

theorem Catalog.Fits.replay {c : Catalog} {events : List ViewEvent} {left : List ShadowRow}
    (fits : (c.through pf settings faults events left).Fits) {v : LiveView}
    (member : v ∈ c.liveViews.map (LiveView.replay pf settings faults events)) :
    v.lastSeq < 2 ^ 63 ∧ v.frontier < 2 ^ 64 := by
  obtain ⟨row, inViews, live, rfl⟩ := mem_replayed member
  have here := fits _ (List.mem_map_of_mem inViews)
  obtain ⟨lastSeq, frontier⟩ := @replay_settled pf settings faults events row
  rwa [ViewRow.through, if_pos live, lastSeq, frontier] at here

theorem CleanRound.trace {relation : Nat → Relation} {cache : Nat → Option Relation} {c : Catalog}
    {txs : List SourceTransaction} {result : RoundResult} (round : CleanRound pf settings faults cache c txs result)
    (reads : c.Reads pf relation cache txs) (ids : Keyed ViewRow.id c.views) {relids : List Nat}
    (within : ∀ r ∈ changedRelids txs, r ∈ relids) :
    ∃ events left, ReplaysAs pf settings faults (relationList relation relids) txs c.shadows events left ∧
      result.catalog = c.through pf settings faults events left ∧
      (∀ r, DescribedAs pf relation cache r → DescribedAs pf relation result.relations r) ∧
      (result.catalog.Fits → CleanTrace pf settings faults (relationList relation relids) c txs events left) := by
  obtain ⟨cache', kept, plain⟩ := @applyRound_plain pf settings faults _ _ _ _ _ reads within
  rw [round.applied] at plain
  cases ran : applyTransactions pf settings faults (relationList relation relids) 0 txs ⟨c.liveViews, c.shadows⟩ with
  | error message => simp only [ran, reduceCtorEq] at plain
  | ok reached =>
      obtain ⟨events, left, replays⟩ := ReplaysAs.exists ran
      obtain ⟨blockedAt, eq⟩ := replays 0 c.liveViews
      obtain rfl := Except.ok.inj (ran.symm.trans eq)
      rw [ran] at plain
      dsimp only at plain
      cases done : finishViews settings (c.liveViews.map (LiveView.replay pf settings faults events)) with
      | error message => simp only [done, Except.map, reduceCtorEq] at plain
      | ok rows =>
          simp only [done, Except.map, Except.ok.injEq] at plain
          have views := round.views
          have shadows := round.shadows
          rw [finishViews_settled done, Catalog.writeBack_through ids] at plain
          rw [plain] at views shadows ⊢
          refine ⟨events, left, replays, rfl, kept, fun fits => ⟨replays, fun row member live => ?_, shadows⟩⟩
          have clean := (finishViews_clean (fun v member => replayed_numbered member)
            (fun v member => fits.replay member) views).mp ⟨rows, done⟩
          exact clean _ (replayed_mem events member live)

theorem CleanTrace.round {relation : Nat → Relation} {cache : Nat → Option Relation} {c : Catalog}
    {txs : List SourceTransaction} (ids : Keyed ViewRow.id c.views) {relids : List Nat} {events : List ViewEvent}
    {left : List ShadowRow} (trace : CleanTrace pf settings faults (relationList relation relids) c txs events left)
    (reads : c.Reads pf relation cache txs) (within : ∀ r ∈ changedRelids txs, r ∈ relids) :
    ∃ result, applyRound pf settings faults cache c txs = .ok result ∧
      (∀ r, DescribedAs pf relation cache r → DescribedAs pf relation result.relations r) ∧
      result.catalog = c.through pf settings faults events left := by
  obtain ⟨cache', kept, plain⟩ := @applyRound_plain pf settings faults _ _ _ _ _ reads within
  obtain ⟨blockedAt, eq⟩ := trace.replays 0 c.liveViews
  have clean : ∀ v ∈ c.liveViews.map (LiveView.replay pf settings faults events), v.Clean := by
    intro v member
    obtain ⟨row, inViews, live, rfl⟩ := mem_replayed member
    exact trace.views row inViews live
  obtain ⟨rows, done⟩ := (@finishViews_clean settings _ (fun v member => replayed_numbered member)
    (fun v member => ⟨(clean v member).seq, (clean v member).position⟩) fun v member => (clean v member).sound).mpr clean
  simp only [eq, done, Except.map, finishViews_settled done, Catalog.writeBack_through ids] at plain
  exact ⟨_, plain, kept, rfl⟩

theorem CleanTrace.idle {rels : List (Nat × Relation)} {c : Catalog} (fits : c.Fits)  :
    CleanTrace pf settings faults rels c [] [] c.shadows ∧ c.through pf settings faults [] c.shadows = c := by
  have same : ∀ row : ViewRow, row.through pf settings faults [] = row := fun row => ite_self row
  refine ⟨⟨fun ti views => ⟨none, ?_⟩, fun row member _ => ?_, fun s member failed => ⟨s, member, rfl, failed⟩⟩, ?_⟩
  · rw [show LiveView.replay pf settings faults [] = id from rfl, List.map_id]
    rfl
  · exact ⟨rfl, (fits row member).1, (fits row member).2, fun news => absurd news (Nat.lt_irrefl _)⟩
  · unfold Catalog.through
    rw [funext same, List.map_id']

theorem ReplaysAs.idle {rels : List (Nat × Relation)} {c : Catalog} {events : List ViewEvent} {left : List ShadowRow}
    (replays : ReplaysAs pf settings faults rels [] c.shadows events left) :
    c.through pf settings faults events left = c := by
  obtain ⟨_, ran⟩ := replays 0 c.liveViews
  have same := (Prod.mk.inj (Except.ok.inj ran)).1
  rw [RoundState.mk.injEq] at same
  obtain ⟨views, rfl⟩ := same
  have still : ∀ row ∈ c.views, row.through pf settings faults events = row := by
    intro row member
    unfold ViewRow.through
    split
    · rename_i live
      have loaded : LiveView.load row ∈ c.liveViews := by
        refine List.mem_map_of_mem ?_
        rw [List.mem_filter, decide_eq_true_eq]
        exact ⟨member, live⟩
      rw [← List.map_inj_left.mp (views.symm.trans (List.map_id _).symm |>.symm) _ loaded]
      rfl
    · rfl
  unfold Catalog.through
  rw [List.map_congr_left still, List.map_id']

/-- A round keeps what the later rounds need of the descriptions. -/
theorem Catalog.Reads.next {relation : Nat → Relation} {cache cache' : Nat → Option Relation} {c : Catalog}
    {xs ys : List SourceTransaction} (reads : c.Reads pf relation cache (xs ++ ys))
    (kept : ∀ r, DescribedAs pf relation cache r → DescribedAs pf relation cache' r) {rels : List (Nat × Relation)}
    {events : List ViewEvent} {left : List ShadowRow} (keyed : Keyed ShadowRow.relid c.shadows)
    (replays : ReplaysAs pf settings faults rels xs c.shadows events left) :
    (c.through pf settings faults events left).Reads pf relation cache' ys := by
  intro r member
  obtain ⟨described, fits⟩ := reads r (by
    rw [changedRelids, List.flatMap_append]
    exact List.mem_append_right _ member)
  refine ⟨kept r described, fun row' member' live' => ?_, fun s' member' relid active p within => ?_⟩
  · obtain ⟨row, inViews, rfl⟩ := List.mem_map.mp member'
    unfold ViewRow.through at live' ⊢
    by_cases live : row.status = .live
    · rw [if_pos live, (LiveView.settledRow_same _).2.1, (replay_grown events (LiveView.load row)).same.spec]
      exact fits.views row inViews live
    · rw [if_neg live] at live'
      exact absurd live' live
  · obtain ⟨s, inShadows, stays⟩ := mem_of_forall₂_right (replays.stays keyed) member'
    rw [stays.columns, stays.types] at within
    refine fits.shadows s inShadows (stays.relid.symm.trans relid) ?_ p within
    cases failed : s.failed with
    | false => rfl
    | true => exact absurd (active.symm.trans (stays.failed failed)) Bool.false_ne_true

/-- Clean rounds over the parts, one after another. -/
inductive CleanRounds (pf : Platform) (settings : Settings) (faults : Faults) :
    (Nat → Option Relation) → Catalog → List (List SourceTransaction) → Catalog → Prop where
  | nil (cache : Nat → Option Relation) (c : Catalog) : CleanRounds pf settings faults cache c [] c
  | cons {cache : Nat → Option Relation} {c d : Catalog} {part : List SourceTransaction}
      {parts : List (List SourceTransaction)} {result : RoundResult} :
      CleanRound pf settings faults cache c part result →
      CleanRounds pf settings faults result.relations result.catalog parts d →
      CleanRounds pf settings faults cache c (part :: parts) d

theorem changedRelids_left {xs ys : List SourceTransaction} {r : Nat} (member : r ∈ changedRelids xs) :
    r ∈ changedRelids (xs ++ ys) := by
  rw [changedRelids, List.flatMap_append]
  exact List.mem_append_left _ member

theorem changedRelids_right {xs ys : List SourceTransaction} {r : Nat} (member : r ∈ changedRelids ys) :
    r ∈ changedRelids (xs ++ ys) := by
  rw [changedRelids, List.flatMap_append]
  exact List.mem_append_right _ member

theorem CleanRounds.trace {relation : Nat → Relation} {cache : Nat → Option Relation} {c d : Catalog}
    {parts : List (List SourceTransaction)} (rounds : CleanRounds pf settings faults cache c parts d)
    (reads : c.Reads pf relation cache parts.flatten) (ids : Keyed ViewRow.id c.views) (keyed : Keyed ShadowRow.relid c.shadows)
    (fits : d.Fits) {relids : List Nat} (within : ∀ r ∈ changedRelids parts.flatten, r ∈ relids) :
    c.Fits ∧ ∃ events left, CleanTrace pf settings faults (relationList relation relids) c parts.flatten events left ∧
      d = c.through pf settings faults events left := by
  induction rounds with
  | nil cache c =>
      obtain ⟨trace, same⟩ := @CleanTrace.idle pf settings faults (relationList relation relids) c fits
      exact ⟨fits, [], c.shadows, trace, same.symm⟩
  | @cons cache c d part parts result round rounds ih =>
      rw [List.flatten_cons] at reads within ⊢
      have here : c.Reads pf relation cache part := fun r member => reads r (changedRelids_left member)
      obtain ⟨first, mid, replays, eq, kept, clean⟩ := round.trace here ids fun r member => within r (changedRelids_left member)
      have left := replays.stays keyed
      rw [eq] at ih clean
      obtain ⟨fits', second, last, after, rfl⟩ := ih (reads.next kept keyed replays) (Catalog.through_ids ids first mid)
        (Stays.keyed left keyed) fits fun r member => within r (changedRelids_right member)
      obtain ⟨whole, same⟩ := (clean fits').join keyed after
      exact ⟨fits'.before, first ++ second, last, whole, same⟩

/-- The trace of the whole list is the rounds over any parts of it. -/
theorem CleanTrace.rounds {relation : Nat → Relation} {cache : Nat → Option Relation} {c : Catalog}
    {parts : List (List SourceTransaction)} {relids : List Nat} {events : List ViewEvent} {left : List ShadowRow}
    (trace : CleanTrace pf settings faults (relationList relation relids) c parts.flatten events left)
    (reads : c.Reads pf relation cache parts.flatten) (ids : Keyed ViewRow.id c.views) (keyed : Keyed ShadowRow.relid c.shadows)
    (within : ∀ r ∈ changedRelids parts.flatten, r ∈ relids) :
    applyRounds pf settings faults cache c parts = .ok (c.through pf settings faults events left) := by
  induction parts generalizing cache c events with
  | nil => exact congrArg Except.ok trace.replays.idle.symm
  | cons part parts ih =>
      rw [List.flatten_cons] at trace reads within
      have here : c.Reads pf relation cache part := fun r member => reads r (changedRelids_left member)
      obtain ⟨first, mid, second, before, after, same⟩ := trace.split keyed
      obtain ⟨result, applied, kept, eq⟩ := before.round ids here fun r member => within r (changedRelids_left member)
      rw [applyRounds, applied, ← same]
      dsimp only
      rw [eq]
      exact ih after (reads.next kept keyed before.replays) (Catalog.through_ids ids first mid)
        (Stays.keyed (before.replays.stays keyed) keyed) fun r member => within r (changedRelids_right member)

/-- Rounds without a failure leave the same catalog however the list is cut. -/
theorem CleanRounds.partition {relation : Nat → Relation} {cache : Nat → Option Relation} {c d : Catalog}
    {parts parts' : List (List SourceTransaction)} (rounds : CleanRounds pf settings faults cache c parts d)
    (reads : c.Reads pf relation cache parts.flatten) (ids : Keyed ViewRow.id c.views)
    (keyed : Keyed ShadowRow.relid c.shadows) (fits : d.Fits) (same : parts'.flatten = parts.flatten) :
    applyRounds pf settings faults cache c parts' = .ok d := by
  obtain ⟨_, events, left, trace, rfl⟩ := rounds.trace reads ids keyed fits fun r member => member
  rw [← same] at trace reads
  exact trace.rounds reads ids keyed fun r member => same ▸ member

def shopOrder : SourceTransaction where
  xid := 2
  commitLsn := 19
  endLsn := 20
  changes := [.insert 1 (encodeRow .basic (shopRelation 1) (shopRow (.text "p") (.text "c") .null))]

theorem shopCatalog_reads {c : Catalog} (txs : List SourceTransaction)
    (drift : ∀ relid, ∀ row ∈ c.views, row.status = .live → row.spec.drift relid (shopRelation relid) = none)
    (provided : ∀ relid, ∀ s ∈ c.shadows, ∀ p ∈ s.columns.zip s.columnTypes, (shopRelation relid).provides p.1 p.2 = true) :
    c.Reads .basic shopRelation (some ∘ shopRelation) txs := fun relid _ =>
  ⟨shop_described relid, drift relid, fun s member _ _ => provided relid s member⟩

theorem keepsWhole_of_read {shadows left : List ShadowRow} (read : left.map ShadowRow.failed = [false, false]) :
    KeepsWhole shadows left := by
  intro s member failed
  have within : s.failed ∈ [false, false] := read ▸ List.mem_map_of_mem member
  simp only [failed, List.mem_cons, List.not_mem_nil, reduceCtorEq, or_self] at within

theorem sound_of_read {views : List LiveView} (read : views.map LiveView.failedThisRound = [false]) :
    ∀ v ∈ views, v.failedThisRound = false := fun _ member =>
  List.mem_singleton.mp (read ▸ List.mem_map_of_mem member)

theorem fits_of_read {c : Catalog} {seq position : Nat}
    (read : (c.views.map fun row => (row.lastSeq, row.frontier)) = [(seq, position)])
    (small : seq < 2 ^ 63 ∧ position < 2 ^ 64) : c.Fits := by
  intro row member
  have within : (row.lastSeq, row.frontier) ∈ [(seq, position)] := read ▸ List.mem_map_of_mem member
  obtain ⟨rfl, rfl⟩ := Prod.mk.inj (List.mem_singleton.mp within)
  exact small

theorem shop_partition : ∃ d, (d.views.map fun row => (row.lastSeq, row.frontier)) = [(2, 20)] ∧
    applyRounds .basic shopSettings Faults.none (some ∘ shopRelation) shopCatalog [[shopDecoded .null, shopOrder]] =
      .ok d := by
  obtain ⟨first, applied, sound, whole, second, applied', sound', whole', numbers⟩ : ∃ first,
      applyRound .basic shopSettings Faults.none (some ∘ shopRelation) shopCatalog [shopDecoded .null] = .ok first ∧
      first.views.map LiveView.failedThisRound = [false] ∧ first.catalog.shadows.map ShadowRow.failed = [false, false] ∧
      ∃ second, applyRound .basic shopSettings Faults.none first.relations first.catalog [shopOrder] = .ok second ∧
      second.views.map LiveView.failedThisRound = [false] ∧ second.catalog.shadows.map ShadowRow.failed = [false, false] ∧
      (second.catalog.views.map fun row => (row.lastSeq, row.frontier)) = [(2, 20)] :=
    ⟨_, rfl, rfl, rfl, _, rfl, rfl, rfl, rfl⟩
  refine ⟨second.catalog, numbers, ?_⟩
  have rounds : CleanRounds .basic shopSettings Faults.none (some ∘ shopRelation) shopCatalog
      [[shopDecoded .null], [shopOrder]] second.catalog :=
    .cons ⟨applied, sound_of_read sound, keepsWhole_of_read whole⟩
      (.cons ⟨applied', sound_of_read sound', keepsWhole_of_read whole'⟩ (.nil _ _))
  refine rounds.partition (shopCatalog_reads _ ?_ ?_) (show [7].Nodup by decide) (show [1, 2].Nodup by decide)
    (fits_of_read numbers (by decide)) rfl
  · intro relid row member _
    obtain rfl := List.mem_singleton.mp member
    exact shopSpec_fits.no_drift relid
  · intro relid
    exact (show ∀ s ∈ shopCatalog.shadows, ∀ p ∈ s.columns.zip s.columnTypes, (shopRelation 0).provides p.1 p.2 = true by
      decide)

def shopNoted : Catalog where
  views := [shopView 15 []]
  viewRelations := [(7, 1), (7, 2)]
  shadows := [shopShadow 1 15 ["id", "ref", "doc"] ["text", "text", "jsonb"] [], shopShadow 2 15 ["id", "note"] ["text", "text"] []]

/-- A round checks the shadows of every relation that changes in it against the round's
last position, so a shadow between two transactions keeps the column in the rounds of the
one and the other, and loses it in their common round. -/
theorem shopNoted_partition : ¬ ∀ {pf : Platform} {settings : Settings} {faults : Faults} {relation : Nat → Relation}
    {cache : Nat → Option Relation} {c d : Catalog} {parts parts' : List (List SourceTransaction)},
    CleanRounds pf settings faults cache c parts d →
    (∀ r ∈ changedRelids parts.flatten, DescribedAs pf relation cache r ∧
      ∀ row ∈ c.views, row.status = .live → row.spec.drift r (relation r) = none) →
    Keyed ViewRow.id c.views → Keyed ShadowRow.relid c.shadows → d.Fits → parts'.flatten = parts.flatten →
    applyRounds pf settings faults cache c parts' = .ok d := by
  intro claim
  obtain ⟨first, applied, sound, whole, second, applied', sound', whole', numbers, columns⟩ : ∃ first,
      applyRound .basic shopSettings Faults.none (some ∘ shopRelation) shopNoted [shopDecoded .null] = .ok first ∧
      first.views.map LiveView.failedThisRound = [false] ∧ first.catalog.shadows.map ShadowRow.failed = [false, false] ∧
      ∃ second, applyRound .basic shopSettings Faults.none first.relations first.catalog [shopOrder] = .ok second ∧
      second.views.map LiveView.failedThisRound = [false] ∧ second.catalog.shadows.map ShadowRow.failed = [false, false] ∧
      (second.catalog.views.map fun row => (row.lastSeq, row.frontier)) = [(0, 20)] ∧
      second.catalog.shadows.map ShadowRow.columns = [["id", "ref", "doc"], ["id", "note"]] :=
    ⟨_, rfl, rfl, rfl, _, rfl, rfl, rfl, rfl, rfl⟩
  have rounds : CleanRounds .basic shopSettings Faults.none (some ∘ shopRelation) shopNoted
      [[shopDecoded .null], [shopOrder]] second.catalog :=
    .cons ⟨applied, sound_of_read sound, keepsWhole_of_read whole⟩
      (.cons ⟨applied', sound_of_read sound', keepsWhole_of_read whole'⟩ (.nil _ _))
  have one := @claim _ _ _ shopRelation _ _ _ _ [[shopDecoded .null, shopOrder]] rounds (fun r _ =>
    ⟨shop_described r, fun row member _ => by
      obtain rfl := List.mem_singleton.mp member
      exact shopSpec_fits.no_drift r⟩) (show [7].Nodup by decide) (show [1, 2].Nodup by decide)
    (fits_of_read numbers (by decide)) rfl
  have pruned : ((applyRounds .basic shopSettings Faults.none (some ∘ shopRelation) shopNoted
      [[shopDecoded .null, shopOrder]]).toOption.map fun d => d.shadows.map ShadowRow.columns) =
      some [["id", "ref", "doc"], ["id"]] := by decide +kernel
  rw [one] at pruned
  simp only [Except.toOption, Option.map_some, columns] at pruned
  revert pruned
  decide

end Nabla
