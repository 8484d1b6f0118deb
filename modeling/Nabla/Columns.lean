import Nabla.Dependents
import Nabla.Drift
import Nabla.Reuse
import Nabla.Unchanged

/-! The columns of shadows: which ones builds, rounds and drops leave active, and when every
column a live join view uses stays among them with the type the view recorded. -/
namespace Nabla
open Bags

variable {pf : Platform} {settings : Settings} {faults : Faults} {sight : Sight} {point : Nat}

/-- Each active column has its type, and none is active twice. -/
structure ShadowRow.Tidy (s : ShadowRow) : Prop where
  paired : s.columns.length = s.columnTypes.length
  once : s.columns.Nodup

theorem ShadowRow.Tidy.of_pairs {s : ShadowRow} {active : List (String × String)} (columns : s.columns = active.map Prod.fst)
    (types : s.columnTypes = active.map Prod.snd) (once : (active.map Prod.fst).Nodup) : s.Tidy ∧ s.pairs = active := by
  refine ⟨⟨?_, ?_⟩, ?_⟩
  · rw [columns, types, List.length_map, List.length_map]
  · rw [columns]
    exact once
  · rw [ShadowRow.pairs, columns, types, List.zip_map']
    simp only [Prod.mk.eta, List.map_id']

theorem ShadowRow.Tidy.names {s : ShadowRow} (tidy : s.Tidy) : s.pairs.map Prod.fst = s.columns :=
  List.map_fst_zip (Nat.le_of_eq tidy.paired)

/-- A change of an active column has its position among those `shadow_apply` writes and
`shadow_old_row` returns. -/
theorem ShadowRow.writes {s : ShadowRow} {p : String × String} (active : p ∈ s.pairs) {rel : Relation} {i : Nat}
    (column : rel.columnIndex p.1 = some i) : i ∈ shadowColumnIndexes s rel :=
  List.mem_filterMap.mpr ⟨p.1, (List.of_mem_zip active).1, column⟩

/-- The drift check leaves active what the description provides, and everything where it fails
the shadow. -/
theorem ShadowRow.Tidy.drift {s : ShadowRow} (tidy : s.Tidy) (rel : Relation) (qualified : String) :
    (shadowDrift s rel qualified).Tidy ∧ ∀ p ∈ s.pairs, (rel.provides p.1 p.2 = true ∨ ∃ k ∈ s.drifted rel, k ∈ s.pkColumns) →
      p ∈ (shadowDrift s rel qualified).pairs := by
  rw [shadowDrift_eq]
  by_cases none : s.drifted rel = []
  · rw [if_pos none]
    exact ⟨tidy, fun _ active _ => active⟩
  rw [if_neg none]
  by_cases key : (s.drifted rel).any s.pkColumns.contains = true
  · rw [if_pos key]
    exact ⟨⟨tidy.paired, tidy.once⟩, fun _ active _ => active⟩
  · have once : ((s.pairs.filter fun c => !(s.drifted rel).contains c.1).map Prod.fst).Nodup :=
      (tidy.names ▸ tidy.once : (s.pairs.map Prod.fst).Nodup).sublist (List.filter_sublist.map _)
    rw [if_neg key]
    refine (ShadowRow.Tidy.of_pairs rfl rfl once).imp_right fun pairs p active either => ?_
    have provided := either.resolve_right fun ⟨k, drifts, inKey⟩ =>
      key (List.any_eq_true.mpr ⟨k, drifts, List.contains_iff_mem.mpr inKey⟩)
    rw [pairs, List.mem_filter]
    refine ⟨active, ?_⟩
    rw [Bool.not_eq_true', ← Bool.not_eq_true, List.contains_iff_mem, ShadowRow.mem_drifted]
    rintro ⟨type, active', missing⟩
    rw [zip_functional tidy.paired tidy.once active' active, provided] at missing
    exact absurd missing Bool.noConfusion

/-- A shadow filled from its table has the columns asked for that the table has. -/
theorem ShadowRow.Filled.tidy {rel : BaseRelation} {needed : List String} {base : BaseTable} {s : ShadowRow} (filled : s.Filled rel needed base)
    (distinct : (base.columns.map Prod.fst).Nodup) : s.Tidy ∧ s.pairs = activeSet rel needed base.columns :=
  ShadowRow.Tidy.of_pairs filled.columns filled.types (distinct.sublist (List.filter_sublist.map _))

/-- `extend` adds the columns asked for that the table has, where no column of that name is
active, whatever its type. -/
theorem ShadowRow.Tidy.extend {s : ShadowRow} (tidy : s.Tidy) (rel : BaseRelation) (needed keys : List String) {base : BaseTable}
    (distinct : (base.columns.map Prod.fst).Nodup) : (extendShadow rel needed keys base s).Tidy ∧
      (extendShadow rel needed keys base s).pairs.Perm (s.pairs ++ s.added rel needed base) := by
  have perm := @extendShadow_perm rel needed keys base s tidy.paired
  have paired : (extendShadow rel needed keys base s).columns.length = (extendShadow rel needed keys base s).columnTypes.length := by
    simp only [extendShadow, List.length_map]
  refine ⟨⟨paired, ?_⟩, perm⟩
  have names := perm.map Prod.fst
  rw [List.map_fst_zip (Nat.le_of_eq paired), List.map_append, List.map_fst_zip (Nat.le_of_eq tidy.paired)] at names
  rw [names.nodup_iff]
  refine List.nodup_append.mpr ⟨tidy.once, distinct.sublist (List.filter_sublist.map _), fun name active other added same => ?_⟩
  obtain ⟨p, within, rfl⟩ := List.mem_map.mp added
  exact (ShadowRow.mem_added within).2 (same ▸ active)

/-- Every column a live join view uses is active in the shadow of its table, with the type the
view recorded. -/
def Catalog.Supplied (c : Catalog) : Prop :=
  ∀ row ∈ c.views, row.status = .live → row.spec.isJoin = true → ∀ b ∈ row.spec.relations,
    ∃ s ∈ c.shadows, s.relid = b.oid ∧ ∀ p ∈ b.usedColumns.zip b.usedColumnTypes, p ∈ s.pairs

/-- A view that does not drift finds the columns it uses in the description. -/
theorem ViewSpec.provided {spec : ViewSpec} (once : spec.oids.Nodup) {b : BaseRelation} (member : b ∈ spec.relations) {rel : Relation}
    (stays : spec.drift b.oid rel = none) : ∀ p ∈ b.usedColumns.zip b.usedColumnTypes, rel.provides p.1 p.2 = true := by
  intro p used
  cases index : spec.relationIndex b.oid with
  | none => exact absurd rfl (ViewSpec.relationIndex_none index member)
  | some i =>
      obtain ⟨first, at_i, same⟩ := ViewSpec.relationIndex_some index
      obtain rfl := List.inj_on_of_nodup_map once (List.mem_of_getElem? at_i) member same
      simp only [ViewSpec.drift, index, Option.bind_some, at_i, Option.map_eq_none_iff, List.find?_eq_none, Bool.not_eq_true',
        Bool.not_eq_false] at stays
      exact stays p used

/-- A view in the round that is marked goes stale before its end. -/
def LiveView.Sinks (roundEnd : Nat) (v : LiveView) : Prop :=
  v.row.status = .live → v.stale ≠ none ∧ v.dead = false ∧ v.frontier < roundEnd

theorem applyTransaction_sinks {rels : List (Nat × Relation)} {tx : SourceTransaction} {st st' : RoundState} {blocked : Bool}
    (applied : applyTransaction pf settings faults rels tx st = .ok (st', blocked)) (roundEnd : Nat) :
    List.Forall₂ (fun v v' : LiveView => v.row.Same v'.row ∧ (v'.row.status = .live → v.row.status = .live) ∧
      (v.Sinks roundEnd → v'.Sinks roundEnd ∧ (tx.endLsn = roundEnd → v'.row.status ≠ .live))) st.views st'.views := by
  unfold applyTransaction at applied
  obtain ⟨planned, changed, same⟩ := ok_of_map applied
  obtain ⟨rfl, _⟩ := Prod.mk.inj same
  rw [List.forall₂_map_right_iff]
  refine (applyChanges_views changed).imp fun v w kept => ?_
  have still : (executeView pf settings faults tx w).row.status = .live → v.row.status = .live := fun live =>
    kept.row ▸ executeView_live live
  refine ⟨(executeView_outcome pf settings faults rfl kept).same, still, fun sinks => ?_⟩
  have held : (executeView pf settings faults tx w).row.status = .live →
      executeView pf settings faults tx w = w ∧ tx.endLsn ≤ w.frontier ∧ w.stale ≠ none ∧ w.dead = false ∧ w.frontier < roundEnd := by
    intro live
    obtain ⟨stale, alive, behind⟩ := sinks (still live)
    have stale' : w.stale ≠ none := fun fresh => stale (kept.stale fresh)
    have alive' := kept.dead.trans alive
    obtain ⟨same, ahead⟩ := executeView_lost alive' stale' live
    exact ⟨same, ahead, stale', alive', kept.frontier ▸ behind⟩
  constructor
  · intro live
    obtain ⟨same, _, rest⟩ := held live
    rw [same]
    exact rest
  · intro last live
    obtain ⟨_, ahead, _, _, behind⟩ := held live
    omega

theorem applyTransactions_sinks {rels : List (Nat × Relation)} {ti : Nat} {txs : List SourceTransaction} {st st' : RoundState}
    {blockedAt : Option Nat} (ran : applyTransactions pf settings faults rels ti txs st = .ok (st', blockedAt)) (roundEnd : Nat) :
    List.Forall₂ (fun v v' : LiveView => v.row.Same v'.row ∧ (v'.row.status = .live → v.row.status = .live) ∧
      (v.Sinks roundEnd → txs.getLast?.map SourceTransaction.endLsn = some roundEnd → v'.row.status ≠ .live)) st.views st'.views := by
  induction txs generalizing ti st blockedAt with
  | nil =>
      obtain ⟨rfl, _⟩ := Prod.mk.inj (Except.ok.inj ran)
      exact List.forall₂_same.mpr fun v _ => ⟨rfl, id, fun _ none => absurd none nofun⟩
  | cons tx txs ih =>
      rw [applyTransactions] at ran
      cases first : applyTransaction pf settings faults rels tx st with
      | error message => simp only [first, reduceCtorEq] at ran
      | ok step =>
          obtain ⟨st₁, blocked⟩ := step
          simp only [first] at ran
          obtain ⟨result, rest, same⟩ := ok_of_map ran
          obtain ⟨rfl, _⟩ := Prod.mk.inj same
          refine forall₂_trans (fun v v₁ v' before after => ?_) (applyTransaction_sinks first roundEnd) (ih rest)
          refine ⟨before.1.trans after.1, before.2.1 ∘ after.2.1, fun sinks last live => ?_⟩
          cases txs with
          | nil => exact (before.2.2 sinks).2 (Option.some.inj last) (after.2.1 live)
          | cons next later => exact after.2.2 (before.2.2 sinks).1 (List.getLast?_cons_cons ▸ last) live

/-- The rows a round leaves live were live, and where one of them was behind its end no
description of the round drifts from it. -/
theorem applyRound_live {cache : Nat → Option Relation} {c : Catalog} {txs : List SourceTransaction} {result : RoundResult}
    (applied : applyRound pf settings faults cache c txs = .ok result) : ∃ cache' rels,
    collectRelations pf (changedRelids txs) cache [] = .ok (cache', rels) ∧ ∀ row' ∈ result.catalog.views, row'.status = .live →
      ∃ row ∈ c.views, row.status = .live ∧ row'.spec = row.spec ∧ ∀ last, txs.getLast? = some last → row.frontier < last.endLsn →
        ∀ p ∈ rels, row.spec.drift p.1 p.2 = none := by
  unfold applyRound at applied
  cases collected : collectRelations pf (changedRelids txs) cache [] with
  | error message => simp only [collected, reduceCtorEq] at applied
  | ok described =>
      obtain ⟨cache', rels⟩ := described
      simp only [collected] at applied
      split at applied
      · simp only [reduceCtorEq] at applied
      · rename_i st blockedAt ran
        obtain ⟨written, finishing, rfl⟩ := ok_of_map applied
        have drifted := foldl_driftRelation_views ((txs.getLast?.map SourceTransaction.endLsn).getD 0) rels ⟨c.liveViews, c.shadows⟩
        have sinks := applyTransactions_sinks ran ((txs.getLast?.map SourceTransaction.endLsn).getD 0)
        rw [drifted, List.forall₂_map_left_iff] at sinks
        have loaded : List.Forall₂ (fun v v' : LiveView => v'.row.id = v.row.id) c.liveViews st.views :=
          sinks.imp fun v v' step => by rw [step.1.id, foldl_driftBy]
        refine ⟨cache', rels, rfl, fun row' member live => ?_⟩
        obtain ⟨v', inRound, finish⟩ := Catalog.written_live loaded (finishViews_ok finishing) member live
        obtain ⟨v, before, same, still, sunk⟩ := mem_of_forall₂_right sinks inRound
        obtain ⟨row, inCatalog, live', rfl⟩ := Catalog.mem_liveViews before
        refine ⟨row, inCatalog, live', ?_, fun last final behind p described => ?_⟩
        · rw [finish.spec, same.spec, foldl_driftBy]
          rfl
        · by_contra drifts
          refine sunk (fun _ => ?_) (by rw [final]; rfl) (finish.status.symm.trans live)
          have marked := (LiveView.driftBy_marks (v := .load row) rfl ((txs.getLast?.map SourceTransaction.endLsn).getD 0) rels).mpr
            ⟨by rw [final]; exact behind, p, described, Option.isSome_iff_ne_none.mpr drifts⟩
          rw [foldl_driftBy]
          refine ⟨Option.isSome_iff_ne_none.mp marked, rfl, ?_⟩
          rw [final]
          exact behind

theorem applyRound_columns {cache : Nat → Option Relation} {c : Catalog} {txs : List SourceTransaction} {result : RoundResult}
    (tidy : ∀ s ∈ c.shadows, s.Tidy) (applied : applyRound pf settings faults cache c txs = .ok result)
    {cache' : Nat → Option Relation} {rels : List (Nat × Relation)}
    (collected : collectRelations pf (changedRelids txs) cache [] = .ok (cache', rels)) :
    List.Forall₂ (fun s s' => s'.relid = s.relid ∧ s'.Tidy ∧ ∀ p ∈ s.pairs, (∀ rel, (s.relid, rel) ∈ rels → s.failed = false →
      s.frontier < (txs.getLast?.map SourceTransaction.endLsn).getD 0 → rel.provides p.1 p.2 = true ∨ ∃ k ∈ s.drifted rel, k ∈ s.pkColumns) →
      p ∈ s'.pairs) c.shadows result.catalog.shadows := by
  have same : ShadowStep fun s s' => s'.relid = s.relid ∧ s'.columns = s.columns ∧ s'.columnTypes = s.columnTypes := by
    constructor
    · exact fun s => ⟨rfl, rfl, rfl⟩
    · exact fun s s' s'' first second => ⟨second.1.trans first.1, second.2.1.trans first.2.1, second.2.2.trans first.2.2⟩
    · exact fun s rows => ⟨rfl, rfl, rfl⟩
    · exact fun s message => ⟨rfl, rfl, rfl⟩
    · intro s e
      unfold advanceShadow
      split <;> exact ⟨rfl, rfl, rfl⟩
  unfold applyRound at applied
  simp only [collected] at applied
  split at applied
  · simp only [reduceCtorEq] at applied
  · rename_i st blockedAt ran
    obtain ⟨written, _, rfl⟩ := ok_of_map applied
    have distinct := (@collectRelations_keys pf _ _ _ [] rels List.nodup_nil collected).1
    have drifted := foldl_driftRelation_shadows ((txs.getLast?.map SourceTransaction.endLsn).getD 0) distinct ⟨c.liveViews, c.shadows⟩
    refine forall₂_trans ?_ (forall₂_imp_mem drifted fun s member s₁ step => And.intro (tidy s member) step) (same.applyTransactions ran)
    rintro s s₁ s' ⟨tidy, qualified, step⟩ ⟨relid, columns, types⟩
    have pairs : s'.pairs = s₁.pairs := by rw [ShadowRow.pairs, columns, types, ShadowRow.pairs]
    have kept : s₁.relid = s.relid ∧ s₁.Tidy ∧ ∀ p ∈ s.pairs, (∀ rel, (s.relid, rel) ∈ rels → s.failed = false →
        s.frontier < (txs.getLast?.map SourceTransaction.endLsn).getD 0 →
        rel.provides p.1 p.2 = true ∨ ∃ k ∈ s.drifted rel, k ∈ s.pkColumns) → p ∈ s₁.pairs := by
      cases found : rels.lookup s.relid with
      | none =>
          rw [found] at step
          rw [step]
          exact ⟨rfl, tidy, fun _ active _ => active⟩
      | some rel =>
          rw [found] at step
          dsimp only at step
          by_cases compared : (!s.failed && decide (s.frontier < (txs.getLast?.map SourceTransaction.endLsn).getD 0)) = true
          · rw [if_pos compared] at step
            rw [Bool.and_eq_true, Bool.not_eq_true', decide_eq_true_eq] at compared
            obtain ⟨tidy', stays⟩ := tidy.drift rel qualified
            obtain ⟨_, _, split, _⟩ := List.lookup_eq_some_iff.mp found
            have described : (s.relid, rel) ∈ rels := split ▸ List.mem_append_right _ List.mem_cons_self
            rw [step]
            exact ⟨shadowDrift_relid s rel qualified, tidy', fun p active meets => stays p active (meets rel described compared.1 compared.2)⟩
          · rw [if_neg compared] at step
            rw [step]
            exact ⟨rfl, tidy, fun _ active _ => active⟩
    refine ⟨relid.trans kept.1, ⟨?_, ?_⟩, fun p active meets => pairs ▸ kept.2.2 p active meets⟩
    · rw [columns, types]
      exact kept.2.1.paired
    · rw [columns]
      exact kept.2.1.once

/-- The columns a round takes from a shadow are used only by live join views that have yet to
reach the end of the round. -/
def Catalog.PrunesAhead (pf : Platform) (c : Catalog) (cache : Nat → Option Relation) (txs : List SourceTransaction) : Prop :=
  ∀ cache' rels, collectRelations pf (changedRelids txs) cache [] = .ok (cache', rels) → ∀ last, txs.getLast? = some last →
    ∀ s ∈ c.shadows, s.failed = false → s.frontier < last.endLsn → ∀ rel, (s.relid, rel) ∈ rels → (∀ k ∈ s.drifted rel, k ∉ s.pkColumns) →
    ∀ row ∈ c.views, row.status = .live → row.spec.isJoin = true → (row.spec.drift s.relid rel).isSome → row.frontier < last.endLsn

theorem Catalog.Supplied.round {cache : Nat → Option Relation} {c : Catalog} {txs : List SourceTransaction} {result : RoundResult}
    (supplied : c.Supplied) (tidy : ∀ s ∈ c.shadows, s.Tidy) (once : ∀ row ∈ c.views, row.spec.oids.Nodup)
    (prunes : c.PrunesAhead pf cache txs) (applied : applyRound pf settings faults cache c txs = .ok result) :
    result.catalog.Supplied := by
  obtain ⟨cache', rels, collected, rows⟩ := applyRound_live applied
  have columns := applyRound_columns tidy applied collected
  intro row' member live join b reads
  obtain ⟨row, before, live₀, spec, stays⟩ := rows row' member live
  rw [spec] at join reads
  obtain ⟨s, inShadows, here, active⟩ := supplied row before live₀ join b reads
  obtain ⟨s', inShadows', relid, _, kept⟩ := mem_of_forall₂ columns inShadows
  refine ⟨s', inShadows', relid.trans here, fun p used => kept p (active p used) fun rel described sound behind => ?_⟩
  cases final : txs.getLast? with
  | none => exact absurd behind (by rw [final]; exact Nat.not_lt_zero _)
  | some last =>
      rw [final, Option.map_some, Option.getD_some] at behind
      rw [or_iff_not_imp_right]
      intro apart
      have ahead : (row.spec.drift s.relid rel).isSome → row.frontier < last.endLsn :=
        prunes cache' rels collected last final s inShadows sound behind rel described
          (fun k drifts inKey => apart ⟨k, drifts, inKey⟩) row before live₀ join
      have fresh : row.spec.drift s.relid rel = none := by
        by_contra drifts
        exact drifts (stays last final (ahead (Option.isSome_iff_ne_none.mpr drifts)) _ described)
      exact ViewSpec.provided (once row before) reads (here ▸ fresh) p used

/-- What a member of a group leaves of the shadows when it handles a table: that of the table
is filled anew, or a sound one is extended. -/
structure Handled (rel : BaseRelation) (needed keys : List String) (base : BaseTable) (rebuild : Bool) (shadows shadows' : List ShadowRow) : Prop where
  keyed : Keyed ShadowRow.relid shadows'
  there : ∃ s ∈ shadows', s.relid = rel.oid
  others : ∀ s ∈ shadows', s.relid ≠ rel.oid → s ∈ shadows
  stays : ∀ s ∈ shadows, s.relid ≠ rel.oid → s ∈ shadows'
  made : ∀ s' ∈ shadows', s'.relid = rel.oid →
    (s'.Filled rel needed base ∧ (rebuild = false → ∀ s ∈ shadows, s.relid = rel.oid → s.failed = true)) ∨
    ∃ s ∈ shadows, rebuild = false ∧ s.relid = rel.oid ∧ s.failed = false ∧
      s' = extendShadow rel needed keys base { s with refcount := s.refcount + 1 }

theorem ensureShadow_handled {shadows : List ShadowRow} (keyed : Keyed ShadowRow.relid shadows) (rel : BaseRelation) (needed keys : List String)
    (base : BaseTable) : Handled rel needed keys base false shadows (ensureShadow rel point needed keys base shadows) where
  keyed := ensureShadow_relids keyed
  there := by
    have touched : ∀ f : ShadowRow → ShadowRow, (∀ s, (f s).relid = s.relid) → ∀ current ∈ shadows, current.relid = rel.oid →
        ∃ s ∈ updateShadow rel.oid f (updateShadow rel.oid (fun s => { s with refcount := s.refcount + 1 }) shadows), s.relid = rel.oid := by
      intro f kept current member here
      refine ⟨_, List.mem_map_of_mem (List.mem_map_of_mem member), ?_⟩
      rw [if_pos here, if_pos here, kept]
      exact here
    unfold ensureShadow
    cases found : shadows.find? (·.relid = rel.oid) with
    | none => exact ⟨_, List.mem_append_right _ (List.mem_singleton_self _), rfl⟩
    | some current =>
        have member := List.mem_of_find?_eq_some found
        have here := List.find?_some found
        rw [decide_eq_true_eq] at here
        dsimp only
        split
        · exact touched _ (fun s => (refillShadow_counts rel needed keys base s).1) current member here
        · exact touched _ (fun s => (extendShadow_counts rel needed keys base s).1) current member here
  others := by
    intro s' member apart
    cases mem_ensureShadow keyed member with
    | other inShadows _ => exact inShadows
    | created _ same => exact absurd (by rw [same]; rfl) apart
    | refilled _ here _ same => exact absurd (by rw [same]; exact here) apart
    | extended _ here _ same => exact absurd (by rw [same]; exact (extendShadow_counts rel needed keys _ _).1.trans here) apart
  stays := fun _ member apart => ensureShadow_other member apart
  made := by
    intro s' member here'
    cases mem_ensureShadow keyed member with
    | other _ apart => exact absurd here' apart
    | created absent same =>
        rw [same]
        exact .inl ⟨createShadow_filled _ _ _ _ _, fun _ s inShadows here => absurd here (absent s inShadows)⟩
    | @refilled s inShadows here failed same =>
        rw [same]
        have located : ({ s with refcount := s.refcount + 1 } : ShadowRow).relid = rel.oid := here
        refine .inl ⟨refillShadow_filled located _ _ _ _, fun _ s₁ inShadows₁ here₁ => ?_⟩
        obtain rfl := keyed.eq_of_mem inShadows₁ inShadows (here₁.trans here.symm)
        exact failed
    | @extended s inShadows here sound same => exact .inr ⟨s, inShadows, rfl, here, sound, same⟩

theorem rebuildShadow_handled {shadows : List ShadowRow} (keyed : Keyed ShadowRow.relid shadows) (rel : BaseRelation) (needed keys : List String)
    (base : BaseTable) : Handled rel needed keys base true shadows (rebuildShadow rel point needed keys base shadows) := by
  unfold rebuildShadow
  cases found : shadows.find? (·.relid = rel.oid) with
  | none =>
      have absent : ∀ s ∈ shadows, s.relid ≠ rel.oid := fun s member here => List.find?_eq_none.mp found s member (decide_eq_true here)
      refine ⟨keyed.concat fun listed => ?_, ⟨_, List.mem_append_right _ (List.mem_singleton_self _), rfl⟩, fun s member apart => ?_,
        fun s member _ => List.mem_append_left _ member, fun s member here => .inl ⟨?_, nofun⟩⟩
      · obtain ⟨s, member, here⟩ := List.mem_map.mp listed
        exact absent s member here
      · exact (List.mem_append.mp member).resolve_right fun new => apart (by rw [List.mem_singleton.mp new]; rfl)
      · rcases List.mem_append.mp member with before | new
        · exact absurd here (absent s before)
        · rw [List.mem_singleton.mp new]
          exact createShadow_filled _ _ _ _ _
  | some current =>
      have located := List.find?_some found
      rw [decide_eq_true_eq] at located
      refine ⟨?_, ⟨_, List.mem_map_of_mem (List.mem_of_find?_eq_some found), ?_⟩, fun s' member apart => ?_, fun s member apart => ?_,
        fun s' member here => .inl ⟨?_, nofun⟩⟩
      · dsimp only
        rw [Keyed, updateShadow_relids rel.oid (f := refillShadow rel point needed keys base) fun _ => rfl]
        exact keyed
      · rw [if_pos located]
        exact located
      · obtain ⟨s, before, rfl⟩ := List.mem_map.mp member
        by_cases here : s.relid = rel.oid
        · rw [if_pos here] at apart
          exact absurd here apart
        · rw [if_neg here]
          exact before
      · exact List.mem_map.mpr ⟨s, member, if_neg apart⟩
      · obtain ⟨s, before, rfl⟩ := List.mem_map.mp member
        by_cases was : s.relid = rel.oid
        · rw [if_pos was]
          exact refillShadow_filled was _ _ _ _
        · rw [if_neg was] at here
          exact absurd here was

/-- The view uses the column of the table, with the type it recorded. -/
def ViewSpec.Reads (spec : ViewSpec) (relid : Nat) (p : String × String) : Prop :=
  ∃ b ∈ spec.relations, b.oid = relid ∧ p ∈ b.usedColumns.zip b.usedColumnTypes

def Sight.handles (sight : Sight) (relid : Nat) (view : Pending) : Bool :=
  match sight.spec view with
  | .ok spec => spec.isJoin && spec.oids.contains relid
  | .error _ => false

theorem Sight.handles_iff {relid : Nat} {view : Pending} :
    sight.handles relid view = true ↔ ∃ spec, sight.spec view = .ok spec ∧ spec.isJoin = true ∧ relid ∈ spec.oids := by
  unfold Sight.handles
  cases valid : sight.spec view with
  | error message => exact ⟨fun impossible => absurd impossible Bool.false_ne_true, fun ⟨_, impossible, _⟩ => absurd impossible nofun⟩
  | ok spec =>
      rw [Bool.and_eq_true, List.contains_iff_mem]
      exact ⟨fun both => ⟨spec, rfl, both⟩, fun ⟨_, same, both⟩ => Except.ok.inj same ▸ both⟩

/-- Handling the table leaves the column active: a sound shadow that is extended has it, or the
table has it, and such a shadow no column of its name. -/
def Sight.Offers (sight : Sight) (shadows : List ShadowRow) (rebuild : Bool) (relid : Nat) (p : String × String) : Prop :=
  (rebuild = false ∧ ∃ s ∈ shadows, s.relid = relid ∧ s.failed = false ∧ p ∈ s.pairs) ∨
    (p ∈ (sight.table relid).columns ∧ (rebuild = false → ∀ s ∈ shadows, s.relid = relid → s.failed = false → p.1 ∉ s.columns))

/-- The shadows of a group that has handled the tables `done`: those of other tables are as
before, and each of a handled one has the columns wanted of it. -/
structure Columned (wanted : Nat → String × String → Prop) (before : List ShadowRow) (done : List Nat) (shadows : List ShadowRow) : Prop where
  keyed : Keyed ShadowRow.relid shadows
  tidy : ∀ s ∈ shadows, s.Tidy
  others : ∀ s ∈ shadows, s.relid ∉ done → s ∈ before
  stays : ∀ s ∈ before, s.relid ∉ done → s ∈ shadows
  made : ∀ relid ∈ done, ∃ s ∈ shadows, s.relid = relid ∧ ∀ p, wanted relid p → p ∈ s.pairs

section Group

variable {wanted : Nat → String × String → Prop} {before : List ShadowRow} {done : List Nat}

theorem Columned.handle {shadows shadows' : List ShadowRow} (columned : Columned wanted before done shadows) {rel : BaseRelation}
    (first : rel.oid ∉ done) (distinct : ((sight.table rel.oid).columns.map Prod.fst).Nodup) {needed keys : List String} {rebuild : Bool}
    (handled : Handled rel needed keys (sight.table rel.oid) rebuild shadows shadows')
    (offers : ∀ p, wanted rel.oid p → sight.Offers before rebuild rel.oid p)
    (asked : ∀ p, wanted rel.oid p → p.1 ∈ needed ∨ p.1 ∈ rel.pkColumns) : Columned wanted before (rel.oid :: done) shadows' := by
  have before_of : ∀ s ∈ shadows, s.relid = rel.oid → s ∈ before := fun s member here => columned.others s member (here ▸ first)
  have selects : ∀ p, wanted rel.oid p → (rel.pkColumns.contains p.1 || needed.contains p.1) = true := by
    intro p wants
    rw [Bool.or_eq_true, List.contains_iff_mem, List.contains_iff_mem]
    exact (asked p wants).symm
  have made : ∀ s' ∈ shadows', s'.relid = rel.oid → s'.Tidy ∧ ∀ p, wanted rel.oid p → p ∈ s'.pairs := by
    intro s' member here'
    rcases handled.made s' member here' with ⟨filled, anew⟩ | ⟨s, inShadows, extends', here, sound, same⟩
    · obtain ⟨tidy, pairs⟩ := filled.tidy distinct
      refine ⟨tidy, fun p wants => pairs ▸ List.mem_filter.mpr ⟨?_, selects p wants⟩⟩
      rcases offers p wants with ⟨again, s, inBefore, here, sound, _⟩ | ⟨inTable, _⟩
      · exact absurd (sound.symm.trans (anew again s (columned.stays s inBefore (here ▸ first)) here)) Bool.false_ne_true
      · exact inTable
    · have tidy := columned.tidy s inShadows
      have counted : ({ s with refcount := s.refcount + 1 } : ShadowRow).Tidy := ⟨tidy.paired, tidy.once⟩
      obtain ⟨tidy', perm⟩ := counted.extend rel needed keys distinct
      rw [same]
      refine ⟨tidy', fun p wants => perm.mem_iff.mpr (List.mem_append.mpr ?_)⟩
      rcases offers p wants with ⟨_, s₀, inBefore, here₀, _, active⟩ | ⟨inTable, free⟩
      · obtain rfl := columned.keyed.eq_of_mem (columned.stays s₀ inBefore (here₀ ▸ first)) inShadows (here₀.trans here.symm)
        exact .inl active
      · right
        refine List.mem_filter.mpr ⟨inTable, ?_⟩
        rw [Bool.and_eq_true, Bool.not_eq_true', ← Bool.not_eq_true, List.contains_iff_mem, Bool.or_comm]
        exact ⟨free extends' s (before_of s inShadows here) here sound, selects p wants⟩
  refine ⟨handled.keyed, fun s member => ?_, fun s member untouched => ?_, fun s inBefore untouched => ?_, fun relid touched => ?_⟩
  · by_cases here : s.relid = rel.oid
    · exact (made s member here).1
    · exact columned.tidy s (handled.others s member here)
  · rw [List.mem_cons, not_or] at untouched
    exact columned.others s (handled.others s member untouched.1) untouched.2
  · rw [List.mem_cons, not_or] at untouched
    exact handled.stays s (columned.stays s inBefore untouched.2) untouched.1
  · by_cases here : relid = rel.oid
    · subst here
      obtain ⟨s, member, same⟩ := handled.there
      exact ⟨s, member, same, (made s member same).2⟩
    · obtain ⟨s, member, same, active⟩ := columned.made relid ((List.mem_cons.mp touched).resolve_left here)
      exact ⟨s, handled.stays s member (same ▸ here), same, active⟩

theorem buildShadows_columned (distinct : ∀ relid, ((sight.table relid).columns.map Prod.fst).Nodup) {rebuild : Bool} (spec : ViewSpec)
    {rels : List BaseRelation} {c : Catalog} (columned : Columned wanted before done c.shadows)
    (ready : ∀ rel ∈ rels, rel.oid ∉ done → ∀ p, wanted rel.oid p → sight.Offers before rebuild rel.oid p ∧
      (p.1 ∈ (neededColumns c rel.oid spec).1 ∨ p.1 ∈ rel.pkColumns)) :
    Columned wanted before (buildShadows sight point rebuild spec rels done c).2 (buildShadows sight point rebuild spec rels done c).1.shadows := by
  induction rels generalizing done c with
  | nil => exact columned
  | cons rel rels ih =>
      rw [List.forall_mem_cons] at ready
      rw [buildShadows]
      by_cases handled : done.contains rel.oid = true
      · rw [if_pos handled]
        exact ih columned ready.2
      · rw [if_neg handled]
        rw [List.contains_iff_mem] at handled
        have taken : Handled rel (neededColumns c rel.oid spec).1 (neededColumns c rel.oid spec).2 (sight.table rel.oid) rebuild c.shadows
            (if rebuild then rebuildShadow rel point (neededColumns c rel.oid spec).1 (neededColumns c rel.oid spec).2 (sight.table rel.oid) c.shadows
              else ensureShadow rel point (neededColumns c rel.oid spec).1 (neededColumns c rel.oid spec).2 (sight.table rel.oid) c.shadows) := by
          cases rebuild with
          | true => exact rebuildShadow_handled columned.keyed _ _ _ _
          | false => exact ensureShadow_handled columned.keyed _ _ _ _
        have next := columned.handle handled (distinct rel.oid) taken (fun p wants => (ready.1 handled p wants).1)
          fun p wants => (ready.1 handled p wants).2
        refine @ih (rel.oid :: done) { c with shadows := _ } next fun other member later => ?_
        exact ready.2 other member fun earlier => later (List.mem_cons_of_mem _ earlier)

theorem BuildStep.columned {view : Pending} {done' : List Nat} {c c' : Catalog} (step : BuildStep sight point view done c c' done')
    (distinct : ∀ relid, ((sight.table relid).columns.map Prod.fst).Nodup) (columned : Columned wanted before done c.shadows)
    (ready : ∀ spec, sight.spec view = .ok spec → spec.isJoin = true → ∀ rel ∈ spec.relations, rel.oid ∉ done → ∀ p, wanted rel.oid p →
      sight.Offers before view.rebuild rel.oid p ∧ (p.1 ∈ (neededColumns (c.respec view spec) rel.oid spec).1 ∨ p.1 ∈ rel.pkColumns)) :
    Columned wanted before done' c'.shadows := by
  cases step with
  | refused => exact columned
  | built spec valid =>
      rw [← c.respec_shadows view spec] at columned
      show Columned wanted before _ ((c.respec view spec).reshadow sight point view spec done).1.shadows
      unfold Catalog.reshadow
      by_cases join : spec.isJoin = true
      · rw [if_pos join]
        exact buildShadows_columned distinct spec columned (ready spec valid join)
      · rw [if_neg join]
        exact columned

/-- A column that a join view uses which is live once the group is built. -/
def Catalog.Wants (c : Catalog) (sight : Sight) (group : List Pending) (relid : Nat) (p : String × String) : Prop :=
  (∃ row ∈ c.views, row.id ∉ group.map Pending.id ∧ row.status = .live ∧ row.spec.isJoin = true ∧ row.spec.Reads relid p) ∨
    ∃ view ∈ group, ∃ spec, sight.spec view = .ok spec ∧ spec.isJoin = true ∧ spec.Reads relid p

/-- A group finds the columns: each table has a name once, the member that handles a table
leaves every wanted column active, and on a table that an earlier member handles a definition
validated again uses no column that its recorded spec did not. -/
structure Catalog.Supplies (c : Catalog) (sight : Sight) (group : List Pending) : Prop where
  distinct : ∀ relid, ((sight.table relid).columns.map Prod.fst).Nodup
  offers : ∀ relid view, group.find? (sight.handles relid) = some view → ∀ p, c.Wants sight group relid p →
    sight.Offers c.shadows view.rebuild relid p
  foreseen : group.Pairwise fun earlier later => ∀ relid, sight.handles relid earlier = true → ∀ spec, sight.spec later = .ok spec →
    spec.isJoin = true → ∀ p, spec.Reads relid p → later.spec.Uses relid p.1

theorem ViewSpec.Reads.uses {spec : ViewSpec} {relid : Nat} {p : String × String} (reads : spec.Reads relid p) : spec.Uses relid p.1 := by
  obtain ⟨b, member, here, used⟩ := reads
  exact ⟨b, member, here, (List.of_mem_zip used).1⟩

theorem ViewSpec.Reads.oid {spec : ViewSpec} {relid : Nat} {p : String × String} (reads : spec.Reads relid p) : relid ∈ spec.oids := by
  obtain ⟨b, member, rfl, _⟩ := reads
  exact List.mem_map_of_mem member

/-- A shadow is asked for the columns of the view it is handled with and of every view that
references its table. -/
theorem mem_neededColumns {c : Catalog} {relid : Nat} {own spec : ViewSpec} {name : String} (uses : spec.Uses relid name)
    (asks : spec = own ∨ ∃ row ∈ c.views, (row.id, relid) ∈ c.viewRelations ∧ row.spec = spec) : name ∈ (neededColumns c relid own).1 := by
  obtain ⟨b, member, here, used⟩ := uses
  have among : spec ∈ c.referencing relid ++ [own] := by
    rcases asks with rfl | ⟨row, inCatalog, references, rfl⟩
    · exact List.mem_append_right _ (List.mem_singleton_self _)
    · exact List.mem_append_left _ (List.mem_map_of_mem (List.mem_filter.mpr ⟨inCatalog, List.contains_iff_mem.mpr references⟩))
  refine List.mem_flatMap.mpr ⟨b, List.mem_flatMap.mpr ⟨spec, among, List.mem_filter.mpr ⟨member, decide_eq_true here⟩⟩, used⟩

/-- The group that is being built, with the catalog it was found with. -/
structure Underway (sight : Sight) (start : Catalog) (whole : List Pending) : Prop where
  tallied : start.Tallied
  ids : (whole.map Pending.id).Nodup
  loaded : ∀ view ∈ whole, ∀ row ∈ start.views, row.id = view.id → row.pending = view
  resolves : ∀ view ∈ whole, view.rebuild = true → ∀ spec, sight.validate view.definition = .ok spec → spec.oids.Perm view.spec.oids
  there : ∀ view ∈ whole, view.spec.isJoin = true → ∃ row ∈ start.views, row.id = view.id
  supplies : start.Supplies sight whole

/-- Between two members: the rows of those to come are as they were found. -/
structure Underway.Amid (sight : Sight) (start : Catalog) (earlier : List Pending) (done : List Nat) (c : Catalog) : Prop where
  relations : c.viewRelations = start.viewRelations
  rows : ∀ row ∈ start.views, row.id ∉ earlier.map Pending.id → row ∈ c.views
  covers : ∀ view ∈ earlier, ∀ relid, sight.handles relid view = true → relid ∈ done

theorem Underway.ready {start : Catalog} {earlier later : List Pending} {view : Pending} {done : List Nat} {c : Catalog}
    (underway : Underway sight start (earlier ++ view :: later)) (amid : Underway.Amid sight start earlier done c) {spec : ViewSpec}
    (valid : sight.spec view = .ok spec) (join : spec.isJoin = true) {rel : BaseRelation} (member : rel ∈ spec.relations)
    (first : rel.oid ∉ done) {p : String × String} (wants : start.Wants sight (earlier ++ view :: later) rel.oid p) :
    sight.Offers start.shadows view.rebuild rel.oid p ∧
      (p.1 ∈ (neededColumns (c.respec view spec) rel.oid spec).1 ∨ p.1 ∈ rel.pkColumns) := by
  have reads : rel.oid ∈ spec.oids := List.mem_map_of_mem member
  constructor
  · refine underway.supplies.offers rel.oid view ?_ p wants
    rw [List.find?_append, List.find?_eq_none.mpr fun v before handles => first (amid.covers v before rel.oid handles), Option.none_or,
      List.find?_cons_of_pos]
    exact Sight.handles_iff.mpr ⟨spec, valid, join, reads⟩
  · left
    have ids := underway.ids
    rw [List.map_append, List.map_cons, List.nodup_append, List.nodup_cons] at ids
    obtain ⟨_, ⟨alone, _⟩, apart⟩ := ids
    have relations : (c.respec view spec).viewRelations = start.viewRelations := by
      rw [← amid.relations]
      unfold Catalog.respec
      split <;> rfl
    have stays : ∀ row ∈ start.views, row.id ∉ earlier.map Pending.id → row.id ≠ view.id → row ∈ (c.respec view spec).views := by
      intro row inStart before other
      obtain ⟨row', member', same, _⟩ := mem_of_forall₂ (c.respec_views view spec) (amid.rows row inStart before)
      exact same other ▸ member'
    have asks : ∀ row ∈ start.views, row.id ∉ earlier.map Pending.id → row.id ≠ view.id → row.spec.Uses rel.oid p.1 →
        p.1 ∈ (neededColumns (c.respec view spec) rel.oid spec).1 := by
      intro row inStart before other uses
      refine mem_neededColumns uses (.inr ⟨row, stays row inStart before other, ?_, rfl⟩)
      rw [relations, underway.tallied.recorded row inStart]
      obtain ⟨b, among, here, _⟩ := uses
      exact here ▸ List.mem_map_of_mem among
    rcases wants with ⟨row, inStart, outside, _, _, used⟩ | ⟨v, among, spec', valid', join', used⟩
    · rw [List.map_append, List.map_cons, List.mem_append, List.mem_cons, not_or, not_or] at outside
      exact asks row inStart outside.1 outside.2.1 used.uses
    · rcases List.mem_append.mp among with before | rest
      · exact absurd (amid.covers v before rel.oid (Sight.handles_iff.mpr ⟨spec', valid', join', used.oid⟩)) first
      · rcases List.mem_cons.mp rest with rfl | after
        · obtain rfl := Except.ok.inj (valid'.symm.trans valid)
          exact mem_neededColumns used.uses (.inl rfl)
        · have foreseen := (List.pairwise_cons.mp (List.pairwise_append.mp underway.supplies.foreseen).2.1).1 v after rel.oid
            (Sight.handles_iff.mpr ⟨spec, valid, join, reads⟩) spec' valid' join' p used
          have perm := Sight.spec_perm (underway.resolves v among) valid'
          obtain ⟨row, inStart, same⟩ := underway.there v among ((ViewSpec.isJoin_of_perm perm).symm.trans join')
          have listed : v.id ∈ later.map Pending.id := List.mem_map_of_mem after
          refine asks row inStart (fun before => ?_) (fun other => ?_) ?_
          · exact apart row.id before v.id (List.mem_cons_of_mem _ listed) same
          · exact alone (other ▸ same ▸ listed)
          · obtain rfl := underway.loaded v among row inStart same
            exact foreseen

theorem BuildStep.covers {view : Pending} {done' : List Nat} {c c' : Catalog} (step : BuildStep sight point view done c c' done') {relid : Nat}
    (either : relid ∈ done ∨ sight.handles relid view = true) : relid ∈ done' := by
  cases step with
  | refused message invalid =>
      refine either.resolve_right fun handles => ?_
      obtain ⟨spec, valid, _⟩ := Sight.handles_iff.mp handles
      exact absurd (invalid.symm.trans valid) nofun
  | built spec valid =>
      unfold Catalog.reshadow
      by_cases join : spec.isJoin = true
      · rw [if_pos join, buildShadows_done]
        refine either.imp_right fun handles => ?_
        obtain ⟨spec', valid', _, reads⟩ := Sight.handles_iff.mp handles
        exact Except.ok.inj (valid'.symm.trans valid) ▸ reads
      · rw [if_neg join]
        refine either.resolve_right fun handles => ?_
        obtain ⟨spec', valid', join', _⟩ := Sight.handles_iff.mp handles
        exact join (Except.ok.inj (valid'.symm.trans valid) ▸ join')

theorem buildGroup_columned {start : Catalog} {earlier rest : List Pending} {c c' : Catalog}
    (underway : Underway sight start (earlier ++ rest)) (amid : Underway.Amid sight start earlier done c)
    (columned : Columned (start.Wants sight (earlier ++ rest)) start.shadows done c.shadows)
    (built : buildGroup sight point rest done c = .ok c') :
    ∃ done', Columned (start.Wants sight (earlier ++ rest)) start.shadows done' c'.shadows ∧
      ∀ view ∈ earlier ++ rest, ∀ relid, sight.handles relid view = true → relid ∈ done' := by
  induction rest generalizing earlier done c with
  | nil =>
      obtain rfl := Except.ok.inj built
      rw [List.append_nil] at columned ⊢
      exact ⟨done, columned, amid.covers⟩
  | cons view rest ih =>
      rw [buildGroup] at built
      cases one : build sight point view done c with
      | error message => simp only [one, reduceCtorEq] at built
      | ok r =>
          obtain ⟨c₁, done₁⟩ := r
          simp only [one] at built
          have step := build_step one
          have columned₁ := step.columned underway.supplies.distinct columned fun spec valid join rel member first p wants =>
            underway.ready amid valid join member first wants
          rw [List.append_cons] at underway columned₁ ⊢
          refine ih underway ⟨step.viewRelations.trans amid.relations, fun row inStart outside => ?_, fun v member relid handles => ?_⟩
            columned₁ built
          · rw [List.map_append, List.mem_append, not_or] at outside
            obtain ⟨row', member, same⟩ := mem_of_forall₂ step.views (amid.rows row inStart outside.1)
            exact same.outside outside.2 ▸ member
          · rcases List.mem_append.mp member with before | here
            · exact step.covers (.inl (amid.covers v before relid handles))
            · obtain rfl := List.mem_singleton.mp here
              exact step.covers (.inr handles)

/-- A group that is built leaves every live join view its columns. -/
theorem Catalog.Supplied.built {c c' : Catalog} {group : List Pending} (supplied : c.Supplied) (tidy : ∀ s ∈ c.shadows, s.Tidy)
    (underway : Underway sight c group) (built : buildGroup sight point group [] c = .ok c') :
    c'.Supplied ∧ ∀ s ∈ c'.shadows, s.Tidy := by
  have amid : Underway.Amid sight c [] [] c := ⟨rfl, fun _ member _ => member, fun _ member => absurd member List.not_mem_nil⟩
  have start : Columned (c.Wants sight ([] ++ group)) c.shadows [] c.shadows :=
    ⟨underway.tallied.counted.keyed, tidy, fun _ member _ => member, fun _ member _ => member, fun _ member => absurd member List.not_mem_nil⟩
  obtain ⟨done, columned, covers⟩ := @buildGroup_columned sight point [] c [] group c c' underway amid start built
  rw [List.nil_append] at columned covers
  refine ⟨fun row' member live join b reads => ?_, columned.tidy⟩
  have found : b.oid ∈ done → (∀ p ∈ b.usedColumns.zip b.usedColumnTypes, c.Wants sight group b.oid p) →
      ∃ s ∈ c'.shadows, s.relid = b.oid ∧ ∀ p ∈ b.usedColumns.zip b.usedColumnTypes, p ∈ s.pairs := by
    intro handled wants
    obtain ⟨s, inShadows, here, active⟩ := columned.made b.oid handled
    exact ⟨s, inShadows, here, fun p used => active p (wants p used)⟩
  obtain ⟨row, before, step⟩ := mem_of_forall₂_right (buildGroup_views underway.ids built) member
  by_cases inside : row.id ∈ group.map Pending.id
  · rcases step.inside inside with ⟨view, among, same, spec, valid, rfl⟩ | ⟨message, rfl⟩
    · have own : (row.rebuilt sight point view spec).spec = spec := by
        obtain rfl := underway.loaded view among row before same.symm
        unfold Sight.spec at valid
        unfold ViewRow.rebuilt ViewRow.built
        cases again : row.pending.rebuild with
        | true => rfl
        | false =>
            rw [again, if_neg Bool.false_ne_true] at valid
            exact Except.ok.inj valid
      rw [own] at join reads
      refine found (covers view among b.oid (Sight.handles_iff.mpr ⟨spec, valid, join, List.mem_map_of_mem reads⟩)) fun p used => ?_
      exact .inr ⟨view, among, spec, valid, join, b, reads, rfl, used⟩
    · exact absurd live Status.noConfusion
  · obtain rfl := step.outside inside
    by_cases handled : b.oid ∈ done
    · exact found handled fun p used => .inl ⟨row', before, inside, live, join, b, reads, rfl, used⟩
    · obtain ⟨s, inShadows, here, active⟩ := supplied row' before live join b reads
      exact ⟨s, columned.stays s inShadows (here ▸ handled), here, active⟩

end Group

def ColumnsFrom (shadows shadows' : List ShadowRow) : Prop :=
  ∀ s' ∈ shadows', ∃ s ∈ shadows, s'.relid = s.relid ∧ s'.columns = s.columns ∧ s'.columnTypes = s.columnTypes

theorem ColumnsFrom.refl (shadows : List ShadowRow) : ColumnsFrom shadows shadows := fun s member => ⟨s, member, rfl, rfl, rfl⟩

theorem ColumnsFrom.trans {shadows shadows' shadows'' : List ShadowRow} (first : ColumnsFrom shadows shadows')
    (second : ColumnsFrom shadows' shadows'') : ColumnsFrom shadows shadows'' := by
  intro s'' member
  obtain ⟨s', member', relid', columns', types'⟩ := second s'' member
  obtain ⟨s, before, relid, columns, types⟩ := first s' member'
  exact ⟨s, before, relid'.trans relid, columns'.trans columns, types'.trans types⟩

theorem ColumnsFrom.tidy {shadows shadows' : List ShadowRow} (origins : ColumnsFrom shadows shadows') (tidy : ∀ s ∈ shadows, s.Tidy) :
    ∀ s' ∈ shadows', s'.Tidy := by
  intro s' member
  obtain ⟨s, before, _, columns, types⟩ := origins s' member
  refine ⟨?_, ?_⟩
  · rw [columns, types]
    exact (tidy s before).paired
  · rw [columns]
    exact (tidy s before).once

theorem releaseShadow_columns (shadows : List ShadowRow) (relid : Nat) : ColumnsFrom shadows (releaseShadow shadows relid) := by
  intro s' member
  obtain ⟨s, before, rfl⟩ := List.mem_map.mp (List.mem_of_mem_filter member)
  refine ⟨s, before, ?_⟩
  split <;> exact ⟨rfl, rfl, rfl⟩

theorem Catalog.forgetView_columns (c : Catalog) (id : Nat) : ColumnsFrom c.shadows (c.forgetView id).shadows := by
  have released : ∀ (relids : List Nat) (shadows : List ShadowRow), ColumnsFrom shadows (relids.foldl releaseShadow shadows) := by
    intro relids
    induction relids with
    | nil => exact ColumnsFrom.refl
    | cons relid relids ih => exact fun shadows => (releaseShadow_columns shadows relid).trans (ih _)
  unfold Catalog.forgetView
  cases c.views.find? (·.id = id) with
  | none => exact .refl _
  | some v =>
      dsimp only
      split
      · exact released _ _
      · exact .refl _

theorem Catalog.dropTable_columns (c : Catalog) (relid : Nat) : ColumnsFrom c.shadows (c.dropTable relid).shadows := by
  have forgotten : ∀ (ids : List Nat) (c : Catalog), ColumnsFrom c.shadows (ids.foldl Catalog.forgetView c).shadows := by
    intro ids
    induction ids with
    | nil => exact fun c => .refl _
    | cons id ids ih => exact fun c => (c.forgetView_columns id).trans (ih _)
  intro s' member
  exact forgotten _ c s' (List.mem_of_mem_filter member)

/-- What keeps the columns of live join views: a group that can be built finds them, and a
round takes them away only ahead of the views. -/
def Server.Furnishes (pf : Platform) (s : Server) : Event → Prop
  | .built sight point slot group => (∀ view ∈ group, sight.fault view.id = none) →
      (∀ position, slot = some position → position ≤ point) → s.catalog.Supplies sight group
  | .applied _ cache txs => s.catalog.PrunesAhead pf cache txs
  | _ => True

/-- The invariant: live join views have their columns, and what is live was built. -/
structure Server.Furnished (s : Server) : Prop where
  supplied : s.catalog.Supplied
  tidy : ∀ shadow ∈ s.catalog.shadows, shadow.Tidy
  once : ∀ row ∈ s.catalog.views, row.spec.oids.Nodup
  populated : ∀ row ∈ s.catalog.views, row.status = .live → row.populated = true

theorem Server.Furnished.of_kept {s s' : Server} (furnished : s.Furnished) (tallied : s.Tallied) (tallied' : s'.Tallied)
    (rows : ∀ row' ∈ s'.catalog.views, (row'.status ≠ .live ∧ row'.spec.oids.Nodup) ∨ ∃ row ∈ s.catalog.views, row'.spec = row.spec ∧
      row'.populated = row.populated ∧ (row'.status = .live → row.status = .live))
    (shadows : ColumnsFrom s.catalog.shadows s'.catalog.shadows) : s'.Furnished := by
  have populated : ∀ row' ∈ s'.catalog.views, row'.status = .live → row'.populated = true := by
    intro row' member live
    rcases rows row' member with ⟨idle, _⟩ | ⟨row, before, _, same, was⟩
    · exact absurd live idle
    · exact same.trans (furnished.populated row before (was live))
  refine ⟨fun row' member live join b reads => ?_, shadows.tidy furnished.tidy, fun row' member => ?_, populated⟩
  · rcases rows row' member with ⟨idle, _⟩ | ⟨row, before, spec, _, was⟩
    · exact absurd live idle
    · have needs : row'.needs b.oid = true := by
        have among : b.oid ∈ row'.spec.oids := List.mem_map_of_mem reads
        rw [ViewRow.needs, populated row' member live, join, List.contains_iff_mem.mpr among]
        rfl
      obtain ⟨shadow', there, here'⟩ := List.mem_map.mp
        ((tallied'.catalog.counted.held b.oid).mpr (Catalog.references_pos member needs))
      obtain ⟨shadow, inShadows, relid, columns, types⟩ := shadows shadow' there
      obtain ⟨shadow₀, inShadows₀, here₀, active⟩ := furnished.supplied row before (was live) (spec ▸ join) b (spec ▸ reads)
      obtain rfl := tallied.catalog.counted.keyed.eq_of_mem inShadows₀ inShadows (here₀.trans (here'.symm.trans relid))
      refine ⟨shadow', there, here', fun p used => ?_⟩
      rw [ShadowRow.pairs, columns, types]
      exact active p used
  · rcases rows row' member with ⟨_, once⟩ | ⟨row, before, spec, _⟩
    · exact once
    · rw [spec]
      exact furnished.once row before

theorem Server.Furnished.of_stands {s : Server} (furnished : s.Furnished) (tallied : s.Tallied) {c : Catalog} (stands : s.catalog.Stands c)
    (shadows : ColumnsFrom s.catalog.shadows c.shadows) : Server.Furnished { s with catalog := c } := by
  refine furnished.of_kept tallied (tallied.of_stands stands) (fun row' member => ?_) shadows
  obtain ⟨row, before, kept⟩ := stands.row member
  refine .inr ⟨row, before, kept.spec, kept.populated, fun live => ?_⟩
  rcases kept.status with same | ⟨was, _⟩
  · exact same.symm.trans live
  · exact was

theorem Call.commit_furnished {s : Server} (furnished : s.Furnished) (tallied : s.Tallied) {call : Call} {id : Nat} {publication : List Nat}
    {c : Catalog} (writes : call.commit s.names id s.publication s.catalog = some (publication, c)) (counts : s.Counts (.committed call id))
    {calls : List Call} {used : List Nat} (tallied' : Server.Tallied { s with catalog := c, publication := publication, calls := calls, used := used }) :
    Server.Furnished { s with catalog := c, publication := publication, calls := calls, used := used } := by
  cases call with
  | create name definition spec added =>
      simp only [Call.commit] at writes
      split at writes
      · cases writes
      · rename_i passes
        obtain ⟨rfl, rfl⟩ := Prod.mk.inj (Option.some.inj writes)
        rw [Bool.or_eq_true, not_or, Bool.not_eq_true', Bool.not_eq_false, decide_eq_true_eq] at passes
        refine furnished.of_kept tallied tallied' (fun row' member => ?_) (.refl _)
        rcases List.mem_append.mp member with before | new
        · exact .inr ⟨row', before, rfl, rfl, fun live => live⟩
        · obtain rfl := List.mem_singleton.mp new
          exact .inl ⟨Status.noConfusion, passes.2⟩
  | refresh _ _ => cases writes
  | marked ids added =>
      simp only [Call.commit] at writes
      split at writes
      · cases writes
      · obtain ⟨rfl, rfl⟩ := Prod.mk.inj (Option.some.inj writes)
        refine furnished.of_kept tallied tallied' (fun row' member => ?_) (.refl _)
        obtain ⟨row, before, step⟩ := mem_of_forall₂_right (s.catalog.markRefreshing_views ids) member
        rcases step with rfl | ⟨_, rfl⟩
        · exact .inr ⟨row', before, rfl, rfl, fun live => live⟩
        · exact .inr ⟨row, before, rfl, rfl, fun live => absurd live Status.noConfusion⟩
  | dropView view pruned =>
      obtain ⟨rfl, rfl⟩ := Prod.mk.inj (Option.some.inj writes)
      refine furnished.of_kept tallied tallied' (fun row' member => ?_) (s.catalog.forgetView_columns view)
      exact .inr ⟨row', (Catalog.mem_forgetView.mp member).1, rfl, rfl, fun live => live⟩
  | dropTable relid pruned =>
      obtain ⟨rfl, rfl⟩ := Prod.mk.inj (Option.some.inj writes)
      refine furnished.of_kept tallied tallied' (fun row' member => ?_) (s.catalog.dropTable_columns relid)
      exact .inr ⟨row', (Catalog.mem_dropTable.mp member).1, rfl, rfl, fun live => live⟩
  | dropShadow relid pruned =>
      obtain ⟨rfl, rfl⟩ := Prod.mk.inj (Option.some.inj writes)
      refine furnished.of_kept tallied tallied' (fun row' member => ?_) ?_
      · exact .inr ⟨row', member, rfl, rfl, fun live => live⟩
      · rw [Catalog.dropShadow_absent counts]
        exact .refl _

theorem Server.Furnished.built {s : Server} (furnished : s.Furnished) (tallied : s.Tallied) (orderly : s.Orderly) {sight : Sight} {point : Nat}
    {slot : Option Nat} {group : List Pending} {groups : List (List Pending)} (next : s.groups = group :: groups)
    (counts : s.Counts (.built sight point slot group)) (furnishes : s.Furnishes pf (.built sight point slot group))
    (tallied' : Server.Tallied { s with catalog := s.catalog.populate sight point slot group, groups := groups }) :
    Server.Furnished { s with catalog := s.catalog.populate sight point slot group, groups := groups } := by
  have outcome := s.catalog.populate_cases sight point slot group
  generalize s.catalog.populate sight point slot group = c' at outcome tallied'
  cases outcome with
  | failed message =>
      refine furnished.of_kept tallied tallied' (fun row' member => ?_) ?_
      · obtain ⟨row, before, step⟩ := mem_of_forall₂_right (s.catalog.recordFailure_views group message) member
        by_cases inside : row.id ∈ group.map Pending.id
        · rw [step.2 inside]
          exact .inr ⟨row, before, rfl, rfl, fun live => absurd live Status.noConfusion⟩
        · rw [step.1 inside]
          exact .inr ⟨row, before, rfl, rfl, fun live => live⟩
      · show ColumnsFrom _ (s.catalog.recordFailure group message).shadows
        rw [(s.catalog.recordFailure_frame group message).2]
        exact .refl _
  | built main ok =>
      have calm := buildGroup_faultless ok
      have adds := counts calm main
      have loaded : ∀ view ∈ group, ∀ row ∈ s.catalog.views, row.id = view.id → row.pending = view := by
        intro view member
        refine (orderly.loaded view ?_).2.2
        rw [next, List.flatten_cons]
        exact List.mem_append_left _ member
      have underway : Underway sight s.catalog group :=
        ⟨tallied.catalog, orderly.head next, loaded, adds.resolves, adds.there, furnishes calm main⟩
      obtain ⟨supplied, tidy⟩ := furnished.supplied.built furnished.tidy underway ok
      have rows := buildGroup_views (orderly.head next) ok
      refine ⟨supplied, tidy, fun row' member => ?_, fun row' member live => ?_⟩
      · obtain ⟨row, before, step⟩ := mem_of_forall₂_right rows member
        have once := furnished.once row before
        by_cases inside : row.id ∈ group.map Pending.id
        · rcases step.inside inside with ⟨view, among, same, spec, valid, rfl⟩ | ⟨message, rfl⟩
          · obtain rfl := loaded view among row before same.symm
            have perm := Sight.spec_perm (adds.resolves _ among) valid
            unfold ViewRow.rebuilt ViewRow.built
            cases row.pending.rebuild with
            | true => exact perm.nodup_iff.mpr once
            | false => exact once
          · exact once
        · rw [step.outside inside]
          exact once
      · obtain ⟨row, before, step⟩ := mem_of_forall₂_right rows member
        by_cases inside : row.id ∈ group.map Pending.id
        · rcases step.inside inside with ⟨view, among, same, spec, valid, rfl⟩ | ⟨message, rfl⟩
          · rfl
          · exact absurd live Status.noConfusion
        · rw [step.outside inside] at live ⊢
          exact furnished.populated row before live

theorem Server.Furnished.round {s : Server} (furnished : s.Furnished) (orderly : s.Orderly) {faults : Faults} {cache : Nat → Option Relation}
    {txs : List SourceTransaction} {result : RoundResult} (furnishes : s.Furnishes pf (.applied faults cache txs))
    (ran : applyRound pf settings faults cache s.catalog txs = .ok result) : Server.Furnished { s with catalog := result.catalog } := by
  obtain ⟨cache', rels, collected, _⟩ := applyRound_live ran
  have stands := applyRound_stands orderly.ids ran
  refine ⟨furnished.supplied.round furnished.tidy furnished.once furnishes ran, fun shadow member => ?_, fun row' member => ?_,
    fun row' member live => ?_⟩
  · obtain ⟨_, _, _, tidy, _⟩ := mem_of_forall₂_right (applyRound_columns furnished.tidy ran collected) member
    exact tidy
  · obtain ⟨row, before, kept⟩ := stands.row member
    rw [kept.spec]
    exact furnished.once row before
  · obtain ⟨row, before, kept⟩ := stands.row member
    rcases kept.status with same | ⟨_, stale⟩
    · exact kept.populated.trans (furnished.populated row before (same.symm.trans live))
    · exact absurd (stale.symm.trans live) Status.noConfusion

theorem Server.Step.furnished {s s' : Server} {e : Event} (furnished : s.Furnished) (tallied : s.Tallied) (orderly : s.Orderly)
    (step : s.Step pf settings e s') (counts : s.Counts e) (furnishes : s.Furnishes pf e) : s'.Furnished := by
  have tallied' := step.tallied tallied orderly counts
  cases step with
  | renamed | createBegan | refreshBegan | updated | viewDropBegan | tableDropBegan | shadowDropBegan | aborted | loaded | restarted =>
      exact ⟨furnished.supplied, furnished.tidy, furnished.once, furnished.populated⟩
  | committed began fresh writes => exact Call.commit_furnished furnished tallied writes counts tallied'
  | built next => exact furnished.built tallied orderly next counts furnishes tallied'
  | applied done ran => exact furnished.round orderly furnishes ran
  | idled =>
      refine furnished.of_stands tallied (s.catalog.idleAdvance_stands _) fun shadow' member => ?_
      obtain ⟨shadow, before, rfl⟩ := List.mem_map.mp member
      refine ⟨shadow, before, ?_⟩
      unfold advanceShadow
      split <;> exact ⟨rfl, rfl, rfl⟩
  | lagged => exact furnished.of_stands tallied s.catalog.markLagged_stands (.refl _)

theorem Server.Starts.furnished {s : Server} (starts : s.Starts) : s.Furnished := by
  refine ⟨?_, ?_, ?_, ?_⟩
  · intro row member
    exact absurd (starts.views ▸ member) List.not_mem_nil
  · rw [starts.shadows]
    exact fun shadow member => absurd member List.not_mem_nil
  · rw [starts.views]
    exact fun row member => absurd member List.not_mem_nil
  · rw [starts.views]
    exact fun row member => absurd member List.not_mem_nil

theorem Server.Reachable.furnished {s : Server} (reached : s.Reachable pf settings fun s e => s.Counts e ∧ s.Furnishes pf e) : s.Furnished := by
  induction reached with
  | start starts => exact starts.furnished
  | step before step meets ih =>
      have counted := before.weaken fun _ _ meets => meets.1
      exact step.furnished ih counted.tallied before.orderly meets.1 meets.2

/-- In every run whose builds find the columns and whose rounds take none from under a live join
view, each column such a view uses is active in the shadow of its table with the type the view
recorded, and so among those that are written and read back. -/
theorem Server.Reachable.columns_maintained {s : Server} (reached : s.Reachable pf settings fun s e => s.Counts e ∧ s.Furnishes pf e) :
    ∀ row ∈ s.catalog.views, row.status = .live → row.spec.isJoin = true → ∀ b ∈ row.spec.relations,
      ∃ shadow ∈ s.catalog.shadows, shadow.relid = b.oid ∧ ∀ p ∈ b.usedColumns.zip b.usedColumnTypes, p ∈ shadow.pairs ∧
        ∀ (rel : Relation) i, rel.columnIndex p.1 = some i → i ∈ shadowColumnIndexes shadow rel := by
  intro row member live join b reads
  obtain ⟨shadow, there, here, active⟩ := reached.furnished.supplied row member live join b reads
  exact ⟨shadow, there, here, fun p used => ⟨active p used, fun rel i column => ShadowRow.writes (active p used) column⟩⟩

/-- A first build of a view of the two tables finds the columns that the views of them use. -/
theorem joinSight_supplies {c : Catalog} {view : Pending} (first : view.rebuild = false) (own : view.spec = shopSpec)
    (rows : ∀ row ∈ c.views, row.spec = shopSpec) (offers : ∀ b ∈ shopSpec.relations, ∀ p ∈ b.usedColumns.zip b.usedColumnTypes,
      (joinSight 0).Offers c.shadows false b.oid p) : c.Supplies (joinSight 0) [view] := by
  refine ⟨fun relid => ?_, fun relid v found p wants => ?_, List.pairwise_singleton _ _⟩
  · unfold joinSight
    dsimp only
    split <;> decide
  · obtain rfl := List.mem_singleton.mp (List.mem_of_find?_eq_some found)
    obtain ⟨b, reads, rfl, used⟩ : shopSpec.Reads relid p := by
      rcases wants with ⟨row, member, _, _, _, reads⟩ | ⟨other, member, spec, valid, _, reads⟩
      · exact rows row member ▸ reads
      · obtain rfl := List.mem_singleton.mp member
        rw [Sight.spec, first, if_neg Bool.false_ne_true, own] at valid
        exact Except.ok.inj valid ▸ reads
    rw [first]
    exact offers b reads p used

theorem joinPair_maintained : (joinPair.views.map fun row => (row.id, row.status, row.spec.isJoin)) = [(1, .live, true), (2, .live, true)] ∧
    ∀ row ∈ joinPair.views, row.status = .live → row.spec.isJoin = true → ∀ b ∈ row.spec.relations,
      ∃ shadow ∈ joinPair.shadows, shadow.relid = b.oid ∧ ∀ p ∈ b.usedColumns.zip b.usedColumnTypes, p ∈ shadow.pairs ∧
        ∀ (rel : Relation) i, rel.columnIndex p.1 = some i → i ∈ shadowColumnIndexes shadow rel := by
  have created : joinCreated.Supplies (joinSight 0) [(joinRow 1 "public.a").pending] := by
    refine joinSight_supplies rfl rfl (List.forall_mem_singleton.mpr rfl) fun b reads p used => .inr ⟨?_, fun _ s member => absurd member List.not_mem_nil⟩
    have provided : ∀ b ∈ shopSpec.relations, ∀ p ∈ b.usedColumns.zip b.usedColumnTypes, p ∈ ((joinSight 0).table b.oid).columns := by decide
    exact provided b reads p used
  have extended : (joinBuilt.insertView (joinRow 2 "public.b")).Supplies (joinSight 0) [(joinRow 2 "public.b").pending] := by
    refine joinSight_supplies rfl rfl (List.forall_mem_cons.mpr ⟨rfl, List.forall_mem_singleton.mpr rfl⟩) fun b reads p used => .inl ⟨rfl, ?_⟩
    have held : ∀ b ∈ shopSpec.relations, ∀ p ∈ b.usedColumns.zip b.usedColumnTypes,
        ∃ s ∈ joinBuilt.shadows, s.relid = b.oid ∧ s.failed = false ∧ p ∈ s.pairs := by decide
    exact held b reads p used
  exact ⟨rfl, @Server.Reachable.columns_maintained .basic shopSettings _ (joinPair_reachable
    ⟨fun _ _ => ⟨trivial, trivial⟩, fun _ _ _ _ _ => ⟨trivial, trivial⟩, fun _ => ⟨trivial, trivial⟩⟩
    ⟨Server.counts_first rfl ⟨_, List.mem_cons_self, rfl⟩, fun _ _ => created⟩
    ⟨Server.counts_first rfl ⟨_, List.mem_cons_of_mem _ List.mem_cons_self, rfl⟩, fun _ _ => extended⟩)⟩

/-- The view again, with `ref` as a `uuid`. -/
def retypedSpec : ViewSpec := { shopSpec with relations :=
  [⟨1, 1, "public.orders", ["id"], ["id", "ref"], ["text", "uuid"], ["ref"]⟩, ⟨2, 2, "public.customers", ["id"], ["id"], ["text"], ["id"]⟩] }

/-- The tables after `ref` became a `uuid`. -/
def retypedSight : Sight where
  table := fun relid => if relid = 1 then ⟨[("id", "text"), ("ref", "uuid"), ("doc", "jsonb")], []⟩ else ⟨[("id", "text")], []⟩
  validate := fun _ => .ok retypedSpec
  fault := fun _ => none

def retypedSession : Session := { joinSession "public.b" with validate := fun _ => .ok retypedSpec }

def retypedRow : ViewRow := .initial 2 "public.b" "select" retypedSpec

/-- A second view over the shadows of the first, whose `ref` is a `text`. -/
def joinRetyped : Catalog := (joinBuilt.insertView retypedRow).populate retypedSight 20 none [retypedRow.pending]

theorem joinRetyped_reachable : (joinServer joinRetyped [1, 2] [] [] [2, 1]).Reachable pf settings fun _ _ => True := by
  have live : (joinServer joinBuilt [1, 2] [] [] [1]).Reachable pf settings fun _ _ => True :=
    joinBuilt_reachable .all trivial
  have begun : (joinServer joinBuilt [1, 2] [.create "public.b" "select" retypedSpec []] [] [1]).Reachable pf settings fun _ _ => True :=
    .step live (@Server.Step.createBegan pf settings (joinServer joinBuilt [1, 2] [] [] [1]) retypedSession "b" "select" _ rfl
      fun _ _ other member => absurd member List.not_mem_nil) trivial
  have created : (joinServer (joinBuilt.insertView retypedRow) [1, 2] [] [] [2, 1]).Reachable pf settings fun _ _ => True :=
    .step begun (.committed (.refl _) (by decide) rfl : Server.Step pf settings _ (.committed (.create "public.b" "select" retypedSpec []) 2) _)
      trivial
  have loaded : (joinServer (joinBuilt.insertView retypedRow) [1, 2] [] [[retypedRow.pending]] [2, 1]).Reachable pf settings fun _ _ => True := by
    refine .step created ?_ (e := .loaded) trivial
    have groups : group (joinBuilt.insertView retypedRow).loadPending = [[retypedRow.pending]] := by
      rw [Catalog.loadPending_single rfl]
      rfl
    rw [← groups]
    exact .loaded rfl
  exact .step loaded (@Server.Step.built pf settings _ retypedSight 20 none _ _ rfl) trivial

theorem joinRetyped_orders : ∃ s rel needed keys,
    (∀ shadow ∈ joinRetyped.shadows, shadow.relid = 1 → shadow = extendShadow rel needed keys (retypedSight.table 1) s) ∧
      s.columns.length = s.columnTypes.length ∧ s.columns.zip s.columnTypes ++ s.added rel needed (retypedSight.table 1) =
        [("id", "text"), ("ref", "text"), ("doc", "jsonb")] := by
  obtain ⟨s, rel, needed, keys, customers, shadows, other, paired, pairs⟩ : ∃ s rel needed keys customers,
      joinRetyped.shadows = [extendShadow rel needed keys (retypedSight.table 1) s, customers] ∧ customers.relid = 2 ∧
        s.columns.length = s.columnTypes.length ∧ s.columns.zip s.columnTypes ++ s.added rel needed (retypedSight.table 1) =
          [("id", "text"), ("ref", "text"), ("doc", "jsonb")] := ⟨_, _, _, _, _, rfl, rfl, rfl, rfl⟩
  refine ⟨s, rel, needed, keys, fun shadow member here => ?_, paired, pairs⟩
  rw [shadows, List.mem_cons, List.mem_singleton] at member
  refine member.resolve_right fun second => ?_
  rw [second, other] at here
  exact absurd here (by decide)

/-- The shadow of the orders still has `ref` as a `text`, and the view is live. -/
theorem joinRetyped_missing : ¬ ∀ {pf : Platform} {settings : Settings} {s : Server}, s.Reachable pf settings (fun _ _ => True) →
    ∀ row ∈ s.catalog.views, row.status = .live → row.spec.isJoin = true → ∀ b ∈ row.spec.relations,
      ∃ shadow ∈ s.catalog.shadows, shadow.relid = b.oid ∧ ∀ p ∈ b.usedColumns.zip b.usedColumnTypes, p ∈ shadow.pairs ∧
        ∀ (rel : Relation) i, rel.columnIndex p.1 = some i → i ∈ shadowColumnIndexes shadow rel := by
  intro always
  obtain ⟨row, member, live, join, b, reads, oid, used⟩ : ∃ row ∈ joinRetyped.views, row.status = .live ∧ row.spec.isJoin = true ∧
      ∃ b ∈ row.spec.relations, b.oid = 1 ∧ ("ref", "uuid") ∈ b.usedColumns.zip b.usedColumnTypes :=
    ⟨_, List.mem_cons_of_mem _ List.mem_cons_self, rfl, rfl, _, List.mem_cons_self, rfl, List.mem_cons_of_mem _ List.mem_cons_self⟩
  obtain ⟨shadow, there, here, active⟩ := @always .basic shopSettings _ joinRetyped_reachable row member live join b reads
  obtain ⟨s, rel, needed, keys, orders, paired, pairs⟩ := joinRetyped_orders
  have kept := (extendShadow_perm needed keys paired).mem_iff.mp (orders shadow there (here.trans oid) ▸ (active _ used).1)
  rw [pairs] at kept
  exact absurd kept (by decide)

end Nabla
