import Nabla.History
import Nabla.Bookkeeping

/-! A whole round: the descriptions it collects, drift, the transactions of the peek
and the bookkeeping. A catalog whose views and shadows agree with the history stays
so. -/
namespace Nabla
open Bags

variable {pf : Platform} {S : Schema pf}

/-- The decoder's cache describes the relation as `relation` has it. -/
def DescribedAs (pf : Platform) (relation : Nat → Relation) (cache : Nat → Option Relation) (relid : Nat) : Prop :=
  ∃ rel columns, cache relid = some rel ∧ resolveTypes pf rel.columns = .ok columns ∧
    { rel with columns := columns } = relation relid

theorem resolveTypes_resolved {columns : List RelationColumn} (resolved : ∀ c ∈ columns, c.typeName.isSome) :
    resolveTypes pf columns = .ok columns := by
  induction columns with
  | nil => rfl
  | cons c columns ih =>
      obtain ⟨ty, eq⟩ := Option.isSome_iff_exists.mp (resolved c List.mem_cons_self)
      simp only [resolveTypes, eq, ih fun d member => resolved d (List.mem_cons_of_mem _ member), Except.map]

theorem resolveTypes_isSome {columns resolved : List RelationColumn} (ok : resolveTypes pf columns = .ok resolved) :
    ∀ c ∈ resolved, c.typeName.isSome := by
  induction columns generalizing resolved with
  | nil =>
      obtain rfl := Except.ok.inj ok
      exact fun c member => absurd member List.not_mem_nil
  | cons c columns ih =>
      rw [resolveTypes] at ok
      have rest : ∀ d : RelationColumn, d.typeName.isSome →
          (resolveTypes pf columns).map (d :: ·) = .ok resolved → ∀ c ∈ resolved, c.typeName.isSome := by
        intro d named mapped
        cases later : resolveTypes pf columns with
        | error e =>
            rw [later] at mapped
            cases mapped
        | ok cols =>
            rw [later] at mapped
            obtain rfl := Except.ok.inj mapped
            intro c member
            rcases List.mem_cons.mp member with rfl | inRest
            · exact named
            · exact ih later c inRest
      cases named : c.typeName with
      | some ty =>
          simp only [named] at ok
          exact rest c (by rw [named]; rfl) ok
      | none =>
          simp only [named] at ok
          cases found : pf.formatType c.typid c.typmod with
          | none =>
              rw [found] at ok
              cases ok
          | some ty =>
              rw [found] at ok
              exact rest _ rfl ok

theorem DescribedAs.of_relation {relation : Nat → Relation} {cache : Nat → Option Relation} {relid : Nat}
    (resolved : ∀ c ∈ (relation relid).columns, c.typeName.isSome) (known : cache relid = some (relation relid)) :
    DescribedAs pf relation cache relid :=
  ⟨_, _, known, resolveTypes_resolved resolved, rfl⟩

theorem DescribedAs.resolved {relation : Nat → Relation} {cache : Nat → Option Relation} {relid : Nat}
    (described : DescribedAs pf relation cache relid) : ∀ c ∈ (relation relid).columns, c.typeName.isSome := by
  obtain ⟨rel, columns, _, ok, eq⟩ := described
  rw [← eq]
  exact resolveTypes_isSome ok

theorem collectRelations_as {relation : Nat → Relation} {relids : List Nat} {cache : Nat → Option Relation}
    (rels : List (Nat × Relation)) (described : ∀ r ∈ relids, DescribedAs pf relation cache r)
    (known : ∀ p ∈ rels, p.2 = relation p.1) :
    ∃ cache' rels', collectRelations pf relids cache rels = .ok (cache', rels') ∧
      (∀ p ∈ rels', p.2 = relation p.1) ∧ (∀ p ∈ rels', p ∈ rels ∨ p.1 ∈ relids) ∧
      (∀ r, (r ∈ relids ∨ (rels.lookup r).isSome) → (rels'.lookup r).isSome) ∧
      (∀ r, DescribedAs pf relation cache r → DescribedAs pf relation cache' r) := by
  induction relids generalizing cache rels with
  | nil =>
      refine ⟨cache, rels, rfl, known, fun p member => Or.inl member, ?_, fun _ same => same⟩
      rintro r (member | found)
      · exact absurd member List.not_mem_nil
      · exact found
  | cons relid relids ih =>
      by_cases seen : (rels.lookup relid).isSome = true
      · obtain ⟨cache', rels', collected, known', origin, found, kept⟩ :=
          ih rels (fun r member => described r (List.mem_cons_of_mem _ member)) known
        refine ⟨cache', rels', ?_, known',
          fun p member => (origin p member).imp_right (List.mem_cons_of_mem _), ?_, kept⟩
        · rw [collectRelations, if_pos seen, collected]
        · rintro r (member | before)
          · rcases List.mem_cons.mp member with rfl | later
            · exact found r (Or.inr seen)
            · exact found r (Or.inl later)
          · exact found r (Or.inr before)
      · have here := described relid List.mem_cons_self
        have typed := here.resolved
        obtain ⟨rel, columns, cached, resolved, eq⟩ := here
        have kept₁ : ∀ r, DescribedAs pf relation cache r →
            DescribedAs pf relation (fun id => if id = relid then some (relation relid) else cache id) r := by
          intro r before
          by_cases here : r = relid
          · subst here
            exact DescribedAs.of_relation typed (if_pos rfl)
          · obtain ⟨rel', columns', cached', resolved', eq'⟩ := before
            exact ⟨rel', columns', (if_neg here).trans cached', resolved', eq'⟩
        obtain ⟨cache', rels', collected, known', origin, found, kept⟩ :=
          @ih (fun id => if id = relid then some (relation relid) else cache id) (rels ++ [(relid, relation relid)])
            (fun r member => kept₁ r (described r (List.mem_cons_of_mem _ member)))
            (by
              intro p member
              rcases List.mem_append.mp member with before | last
              · exact known p before
              · rw [List.mem_singleton.mp last])
        refine ⟨cache', rels', ?_, known', ?_, ?_, fun r before => kept r (kept₁ r before)⟩
        · rw [collectRelations, if_neg seen]
          simp only [cached, resolved, eq, collected]
        · intro p member
          rcases origin p member with before | later
          · rcases List.mem_append.mp before with first | last
            · exact Or.inl first
            · right
              rw [List.mem_singleton.mp last]
              exact List.mem_cons_self
          · exact Or.inr (List.mem_cons_of_mem _ later)
        · rintro r (member | before)
          · rcases List.mem_cons.mp member with rfl | later
            · apply found r
              right
              rw [List.lookup_append, List.lookup_cons, BEq.rfl, Option.isSome_or, Option.isSome_some, Bool.or_true]
            · exact found r (Or.inl later)
          · apply found r
            right
            rw [List.lookup_append, Option.isSome_or, before, Bool.true_or]

/-- The decoder's cache describes the relation as it stands. -/
def Described (S : Schema pf) (cache : Nat → Option Relation) (relid : Nat) : Prop :=
  ∃ rel columns, cache relid = some rel ∧ resolveTypes pf rel.columns = .ok columns ∧
    { rel with columns := columns } = S.relation relid

theorem Described.of_relation {cache : Nat → Option Relation} {relid : Nat}
    (known : cache relid = some (S.relation relid)) : Described S cache relid :=
  DescribedAs.of_relation (S.resolved relid) known

theorem collectRelations_ok {relids : List Nat} {cache : Nat → Option Relation} (rels : List (Nat × Relation))
    (described : ∀ r ∈ relids, Described S cache r) (known : ∀ p ∈ rels, p.2 = S.relation p.1) :
    ∃ cache' rels', collectRelations pf relids cache rels = .ok (cache', rels') ∧
      (∀ p ∈ rels', p.2 = S.relation p.1) ∧
      (∀ r, (r ∈ relids ∨ (rels.lookup r).isSome) → (rels'.lookup r).isSome) ∧
      (∀ r, Described S cache r → Described S cache' r) := by
  obtain ⟨cache', rels', collected, known', _, found, kept⟩ := collectRelations_as rels described known
  exact ⟨cache', rels', collected, known', found, kept⟩

theorem lookup_known {relation : Nat → Relation} {rels : List (Nat × Relation)}
    (known : ∀ p ∈ rels, p.2 = relation p.1) {r : Nat} (found : (rels.lookup r).isSome) :
    rels.lookup r = some (relation r) := by
  obtain ⟨rel, eq⟩ := Option.isSome_iff_exists.mp found
  rw [eq, ← known (r, rel) (List.lookup_eq_some_iff.mp eq |> fun ⟨_, _, split, _⟩ =>
    split ▸ List.mem_append_right _ List.mem_cons_self)]

theorem ViewSpec.Fits.no_drift {spec : ViewSpec} (fits : spec.Fits S) (relid : Nat) :
    spec.drift relid (S.relation relid) = none := by
  unfold ViewSpec.drift
  cases index : spec.relationIndex relid with
  | none => rfl
  | some i =>
      obtain ⟨b, at_i, oid⟩ := ViewSpec.relationIndex_some index
      have provided := fits.provided b (List.mem_of_getElem? at_i)
      have none : (b.usedColumns.zip b.usedColumnTypes).find?
          (fun c => !(S.relation relid).provides c.1 c.2) = none := by
        rw [List.find?_eq_none]
        intro c member
        rw [← oid, provided c member, Bool.not_true]
        exact Bool.false_ne_true
      simp only [Option.bind_some, at_i, none, Option.map_none]

theorem ShadowRow.Fits.no_drift {s : ShadowRow} (fits : s.Fits S) (qualified : String) :
    shadowDrift s (S.relation s.relid) qualified = s := by
  have none : (s.columns.zip s.columnTypes).filter (fun c => !(S.relation s.relid).provides c.1 c.2) = [] := by
    rw [List.filter_eq_nil_iff]
    intro c member
    rw [fits.provided c member, Bool.not_true]
    exact Bool.false_ne_true
  simp only [shadowDrift, none, List.map_nil, if_true]

theorem driftRelation_shadows {p : Nat × Relation} (known : p.2 = S.relation p.1) (roundEnd : Nat) {st : RoundState}
    (fits : ∀ s ∈ st.shadows, s.Fits S) : (driftRelation roundEnd st p).shadows = st.shadows := by
  obtain ⟨relid, rel⟩ := p
  obtain rfl : rel = S.relation relid := known
  rw [driftRelation, updateShadow]
  refine (List.map_congr_left fun s member => ?_).trans (List.map_id _)
  by_cases here : s.relid = relid
  · subst here
    rw [if_pos rfl, (fits s member).no_drift, ite_self]
    rfl
  · rw [if_neg here]
    rfl

theorem driftRelation_views {p : Nat × Relation} (known : p.2 = S.relation p.1) (roundEnd : Nat) {st : RoundState}
    (views : ∀ v ∈ st.views, v.row.spec.isJoin = true → v.row.spec.Fits S) :
    List.Forall₂ (fun v v' => v' = { v with stale := v'.stale } ∧ (v.row.spec.isJoin = true → v' = v))
      st.views (driftRelation roundEnd st p).views := by
  obtain ⟨relid, rel⟩ := p
  obtain rfl : rel = S.relation relid := known
  apply forall₂_map_right
  intro v member
  by_cases drifting : (v.stale.isNone && decide (v.frontier < roundEnd)) = true
  · rw [if_pos drifting]
    refine ⟨rfl, fun join => ?_⟩
    rw [Bool.and_eq_true, Option.isNone_iff_eq_none] at drifting
    rw [(views v member join).no_drift, ← drifting.1]
  · rw [if_neg drifting]
    exact ⟨rfl, fun _ => rfl⟩

theorem foldl_driftRelation {rels : List (Nat × Relation)} (known : ∀ p ∈ rels, p.2 = S.relation p.1) (roundEnd : Nat)
    {st : RoundState} (fits : ∀ s ∈ st.shadows, s.Fits S)
    (views : ∀ v ∈ st.views, v.row.spec.isJoin = true → v.row.spec.Fits S) :
    (rels.foldl (driftRelation roundEnd) st).shadows = st.shadows ∧
    List.Forall₂ (fun v v' => v' = { v with stale := v'.stale } ∧ (v.row.spec.isJoin = true → v' = v))
      st.views (rels.foldl (driftRelation roundEnd) st).views := by
  induction rels generalizing st with
  | nil => exact ⟨rfl, List.forall₂_same.mpr fun _ _ => ⟨rfl, fun _ => rfl⟩⟩
  | cons p rels ih =>
      have shadows := driftRelation_shadows (known p List.mem_cons_self) roundEnd fits
      have first := driftRelation_views (known p List.mem_cons_self) roundEnd views
      obtain ⟨shadows', second⟩ := @ih (fun q member => known q (List.mem_cons_of_mem _ member))
        (driftRelation roundEnd st p) (shadows ▸ fits)
        (by
          intro v' member join
          obtain ⟨v, before, eq, same⟩ := mem_of_forall₂_right first member
          rw [eq] at join
          rw [same join]
          exact views v before join)
      refine ⟨shadows'.trans shadows, forall₂_trans (fun v v' v'' left right => ?_) first second⟩
      refine ⟨by rw [right.1, left.1], fun join => ?_⟩
      have same := left.2 join
      rw [right.2 (same ▸ join), same]

/-- A join view holds its query as of its frontier, and its tables were not truncated
since their shadows follow them. -/
structure ViewRow.Settled (h : History S) (origin : Nat → Nat) (row : ViewRow) : Prop where
  fits : row.spec.Fits S
  holds : row.Holds (h.asOf row.frontier)
  intact : ∀ b ∈ row.spec.relations, h.Intact b.oid (origin b.oid) row.frontier

structure Tracking.Synced (K : Tracking S) (h : History S) (origin : Nat → Nat) (c : Catalog) : Prop where
  ids : Keyed ViewRow.id c.views
  keyed : Keyed ShadowRow.relid c.shadows
  fits : ∀ s ∈ c.shadows, s.Fits S
  since : ∀ s ∈ c.shadows, origin s.relid ≤ s.frontier
  follows : ∀ s ∈ c.shadows, s.failed = false → h.Intact s.relid (origin s.relid) s.frontier →
    K.Follows s (h.asOf s.frontier s.relid)
  views : ∀ row ∈ c.views, row.status = .live → row.spec.isJoin = true → row.Settled h origin

/-- Every live join view and every maintained shadow has absorbed the transactions. -/
structure Catalog.Passed (c : Catalog) (ts : List BaseTransaction) : Prop where
  views : ∀ row ∈ c.views, row.status = .live → row.spec.isJoin = true → ∀ t ∈ ts, t.endLsn ≤ row.frontier
  shadows : ∀ s ∈ c.shadows, s.failed = false → ∀ t ∈ ts, t.endLsn ≤ s.frontier

/-- The state in which a round starts on its transactions: drift has spared the join
views and the shadows. -/
structure Catalog.Starts (c : Catalog) (start : RoundState) : Prop where
  shadows : start.shadows = c.shadows
  views : List.Forall₂ (fun v v' => v' = { v with stale := v'.stale } ∧ (v.row.spec.isJoin = true → v' = v))
    c.liveViews start.views

/-- A join view of the round is loaded from its live row. -/
theorem Catalog.Starts.join {c : Catalog} {start : RoundState} (starts : c.Starts start) {v : LiveView}
    (member : v ∈ start.views) (join : v.row.spec.isJoin = true) :
    ∃ row ∈ c.views, row.status = .live ∧ v = LiveView.load row := by
  obtain ⟨v₀, before, eq, same⟩ := mem_of_forall₂_right starts.views member
  rw [eq] at join
  rw [same join]
  exact Catalog.mem_liveViews before

theorem Tracking.Synced.between {K : Tracking S} {h : History S} {origin : Nat → Nat} {c : Catalog}
    (synced : K.Synced h origin c) {pre : List BaseTransaction} (passed : c.Passed pre) {start : RoundState}
    (starts : c.Starts start) : K.Between h origin pre start where
  keyed := starts.shadows ▸ synced.keyed
  fits := starts.shadows ▸ synced.fits
  since := starts.shadows ▸ synced.since
  passed := starts.shadows ▸ passed.shadows
  follows := starts.shadows ▸ synced.follows
  views := by
    intro v member join
    obtain ⟨row, inCatalog, live, rfl⟩ := starts.join member join
    have settled := synced.views row inCatalog live join
    exact ⟨settled.fits, settled.holds, fun _ => rfl, fun _ => rfl, fun _ => passed.views row inCatalog live join,
      settled.intact, rfl, fun _ => live⟩

/-- The views a round has in hand are those of the live rows. -/
theorem Catalog.Starts.loaded {c : Catalog} {start st : RoundState} (starts : c.Starts start)
    {done : List BaseTransaction} (since : start.Since done st) :
    List.Forall₂ (fun v v' => v'.row.id = v.row.id) c.liveViews st.views :=
  forall₂_trans (fun v v₁ v' first second => by rw [second.1.id, first.1]) starts.views since.views

theorem Catalog.Starts.rewritten {c : Catalog} {start st : RoundState} (starts : c.Starts start)
    {done : List BaseTransaction} (since : start.Since done st) {written : List ViewRow}
    (finished : List.Forall₂ ViewRow.Finished st.views written) (ids : Keyed ViewRow.id c.views)
    (shadows : List ShadowRow) {row : ViewRow} (member : row ∈ c.views) (live : row.status = .live)
    (join : row.spec.isJoin = true) :
    ∃ v ∈ st.views, row.Same v.row ∧ Advanced done row.frontier v.frontier ∧
      ∃ row' ∈ (c.writeBack written shadows).views, ViewRow.Finished v row' := by
  have loaded : LiveView.load row ∈ c.liveViews := by
    refine List.mem_map_of_mem ?_
    rw [List.mem_filter, decide_eq_true_eq]
    exact ⟨member, live⟩
  obtain ⟨v₁, inStart, _, same⟩ := mem_of_forall₂ starts.views loaded
  obtain rfl := same join
  obtain ⟨v, inRound, sameRow, advanced⟩ := mem_of_forall₂ since.views inStart
  obtain ⟨row', inWritten, done⟩ := mem_of_forall₂ finished inRound
  exact ⟨v, inRound, sameRow, advanced, row', Catalog.writeBack_written (starts.loaded since) finished ids inWritten
    member (done.id.trans sameRow.id), done⟩

/-- A round starts on its transactions with the descriptions of the history. -/
theorem Tracking.Synced.begins {K : Tracking S} {h : History S} {origin : Nat → Nat} {c : Catalog}
    (synced : K.Synced h origin c) {pre : List BaseTransaction} (passed : c.Passed pre) {txs : List SourceTransaction}
    {cache : Nat → Option Relation} (described : ∀ r ∈ changedRelids txs, Described S cache r) :
    ∃ cache' rels, collectRelations pf (changedRelids txs) cache [] = .ok (cache', rels) ∧
      (∀ tx ∈ txs, ∀ change ∈ tx.changes, ∀ r ∈ change.relids, rels.lookup r = some (S.relation r)) ∧
      (∀ r, Described S cache r → Described S cache' r) ∧
      c.Starts (rels.foldl (driftRelation ((txs.getLast?.map SourceTransaction.endLsn).getD 0)) ⟨c.liveViews, c.shadows⟩) ∧
      K.Between h origin pre
        (rels.foldl (driftRelation ((txs.getLast?.map SourceTransaction.endLsn).getD 0)) ⟨c.liveViews, c.shadows⟩) := by
  obtain ⟨cache', rels, collected, known, found, kept⟩ :=
    collectRelations_ok [] described fun p member => absurd member List.not_mem_nil
  have fits : ∀ v ∈ c.liveViews, v.row.spec.isJoin = true → v.row.spec.Fits S := by
    intro v member join
    obtain ⟨row, inCatalog, live, rfl⟩ := Catalog.mem_liveViews member
    exact (synced.views row inCatalog live join).fits
  have drifted := @foldl_driftRelation pf S rels known ((txs.getLast?.map SourceTransaction.endLsn).getD 0)
    ⟨c.liveViews, c.shadows⟩ synced.fits fits
  have starts : c.Starts _ := ⟨drifted.1, drifted.2⟩
  refine ⟨cache', rels, collected, ?_, kept, starts, synced.between passed starts⟩
  intro tx member change within r touched
  refine lookup_known known (found r (Or.inl ?_))
  exact List.mem_flatMap.mpr ⟨tx, member, List.mem_flatMap.mpr ⟨change, within, touched⟩⟩

/-- A round over transactions of the history, from a catalog that agrees with it. -/
theorem Tracking.Synced.round {K : Tracking S} {h : History S} {origin : Nat → Nat} {c : Catalog}
    (synced : K.Synced h origin c) {pre ts rest : List BaseTransaction} (passed : c.Passed pre)
    (split : h.commits = pre ++ ts ++ rest) (advances : K.Advances h) {txs : List SourceTransaction}
    (encodes : List.Forall₂ (TransactionEncodes S) ts txs) {cache : Nat → Option Relation}
    (described : ∀ r ∈ changedRelids txs, Described S cache r) {settings : Settings} {faults : Faults}
    (admits : ∀ start done t tx st, c.Starts start → (t, tx) ∈ ts.zip txs → (∃ todo, ts = done ++ t :: todo) →
      start.Since done st → K.Between h origin (pre ++ done) st →
      K.Admits (S.through h.start (pre ++ done)) t tx st) {result : RoundResult}
    (applied : applyRound pf settings faults cache c txs = .ok result) :
    K.Synced h origin result.catalog ∧ (∀ r, Described S cache r → Described S result.relations r) ∧
    ∃ start st written, c.Starts start ∧ start.Since ts st ∧ K.Between h origin (pre ++ ts) st ∧
      List.Forall₂ ViewRow.Finished st.views written ∧ result.catalog = c.writeBack written st.shadows ∧
      (faults = Faults.none → (∀ t ∈ ts, ∀ rc ∈ t.changes, ∀ relids, rc ≠ .truncate relids) →
        (∀ r, Untruncated r (origin r) pre) →
        (∀ done t st, (∃ todo, ts = done ++ t :: todo) → start.Since done st →
          K.Between h origin (pre ++ done) st → st.Whole →
          ∀ v ∈ st.views, v.Owes t.endLsn → v.Fresh K t.endLsn st.shadows) →
        start.Whole → st.Whole) := by
  obtain ⟨cache', rels, collected, known, kept, starts, between⟩ := synced.begins passed described
  simp only [applyRound, collected] at applied
  generalize rels.foldl (driftRelation ((txs.getLast?.map SourceTransaction.endLsn).getD 0))
    ⟨c.liveViews, c.shadows⟩ = start at applied starts between
  rw [← List.append_nil pre] at between
  obtain ⟨st, blockedAt, ran, between', since, whole⟩ := between.applyTransactions (RoundState.Since.refl start)
    (show h.commits = pre ++ [] ++ ts ++ rest by rwa [List.append_nil]) advances encodes settings faults 0 known
    (fun done t tx st paired todo since between => admits start done t tx st starts paired
      (by simpa only [List.nil_append] using todo) since between)
  rw [List.append_nil] at between'
  rw [List.nil_append] at since
  simp only [ran] at applied
  cases finishing : finishViews settings st.views with
  | error e => simp only [finishing, Except.map, reduceCtorEq] at applied
  | ok written =>
      simp only [finishing, Except.map, Except.ok.injEq] at applied
      subst applied
      have finished := finishViews_ok finishing
      refine ⟨?_, kept, start, st, written, starts, since, between', finished, rfl, ?_⟩
      · refine ⟨?_, between'.keyed, between'.fits, between'.since, between'.follows, ?_⟩
        · rw [Keyed, c.writeBack_ids]
          exact synced.ids
        · intro row member live join
          obtain ⟨v, inRound, done⟩ := Catalog.written_live (starts.loaded since) finished member live
          have settled := between'.views v inRound (done.spec ▸ join)
          have frontier : row.frontier = v.frontier := done.frontier.trans settled.ledger.symm
          refine ⟨done.spec ▸ settled.fits, ?_, ?_⟩
          · rw [ViewRow.Holds, done.storage, done.spec, frontier]
            exact settled.holds
          · rw [done.spec, frontier]
            exact settled.intact
      · intro none kind untruncated fresh before
        refine whole none kind (by rwa [List.append_nil]) ?_ before
        intro done t st todo
        exact fresh done t st (by simpa only [List.nil_append] using todo)

end Nabla
