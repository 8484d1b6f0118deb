import Nabla.Aggregate

/-! One group contribution added to the storage table of an aggregate view and taken off
again. -/
namespace Nabla
open Bags

/-- A `sum()` over any `numeric` values, with the number of non-NULL values in it. -/
structure Tallied (s : Datum) (m : ℚ) : Prop where
  numeric : s.HasKind .numeric
  counter : 0 ≤ m
  null : s = .null ↔ m = 0

theorem mergeSum_eq (v e : Datum) (m j : ℚ) : mergeSum v e (.num (.fin m)) (.num (.fin j)) =
    if m + j = 0 then .null else if e = .null then v else if v = .null then e else v.add e := by
  simp only [mergeSum, Datum.add, Numeric.add, Datum.num.injEq, Numeric.fin.injEq]

theorem signed_eq_null {d : Datum} (numeric : d.HasKind .numeric) (sign : Sign) : d.signed sign = .null ↔ d = .null := by
  cases d with
  | null => exact Iff.rfl
  | num n => exact ⟨fun same => (by cases same), fun same => (by cases same)⟩
  | bool b => cases numeric
  | text s => cases numeric
  | jsonb j => cases numeric

theorem signed_numeric {d : Datum} (numeric : d.HasKind .numeric) (sign : Sign) : (d.signed sign).HasKind .numeric := by
  cases d with
  | null => trivial
  | num n => rfl
  | bool b => cases numeric
  | text s => cases numeric
  | jsonb j => cases numeric

theorem add_numeric (a b : Datum) : (a.add b).HasKind .numeric := by
  cases a <;> cases b <;> trivial

theorem add_eq_null {a b : Datum} (left : a.HasKind .numeric) (right : b.HasKind .numeric) :
    a.add b = .null ↔ a = .null ∨ b = .null := by
  cases a <;> cases b <;> first | cases left; done | cases right; done | simp [Datum.add]

theorem Tallied.merge {s x : Datum} {m k : ℚ} (stored : Tallied s m) (given : Tallied x k) {sign : Sign}
    (enough : 0 ≤ m + signedNum sign k) :
    Tallied (mergeSum s (x.signed sign) (.num (.fin m)) (.num (.fin (signedNum sign k)))) (m + signedNum sign k) := by
  have signedNull := signed_eq_null given.numeric sign
  have signedZero : signedNum sign k = 0 ↔ k = 0 := by
    cases sign with
    | plus => exact Iff.rfl
    | minus => exact neg_eq_zero
  rw [mergeSum_eq]
  by_cases empty : m + signedNum sign k = 0
  · rw [if_pos empty]
    exact ⟨trivial, enough, ⟨fun _ => empty, fun _ => rfl⟩⟩
  rw [if_neg empty]
  by_cases nothing : x.signed sign = .null
  · rw [if_pos nothing]
    have zero := signedZero.mpr (given.null.mp (signedNull.mp nothing))
    rw [zero, add_zero] at empty ⊢
    exact ⟨stored.numeric, stored.counter, stored.null⟩
  rw [if_neg nothing]
  by_cases fresh : s = .null
  · rw [if_pos fresh]
    exact ⟨signed_numeric given.numeric sign, enough, ⟨fun null => absurd null nothing, fun zero => absurd zero empty⟩⟩
  · rw [if_neg fresh]
    refine ⟨add_numeric _ _, enough, fun null => ?_, fun zero => absurd zero empty⟩
    rcases (add_eq_null stored.numeric (signed_numeric given.numeric sign)).mp null with left | right
    · exact absurd left fresh
    · exact absurd right nothing

theorem Numeric.add_neg_eq (n y : Numeric) : (n.add y).add y.neg = n ↔ (∃ q, y = .fin q) ∨ n = .nan := by
  cases n <;> cases y <;> simp [Numeric.add, Numeric.neg]

/-- Taking a sum off again gives the stored sum back unless a non-finite value was added to
a sum that is not NaN already. -/
theorem Tallied.undoes_iff {s x : Datum} {m k : ℚ} (stored : Tallied s m) (given : Tallied x k) :
    mergeSum (mergeSum s (x.signed .plus) (.num (.fin m)) (.num (.fin k))) (x.signed .minus) (.num (.fin (m + k))) (.num (.fin (-k))) = s ↔
      x.Finite ∨ m = 0 ∨ s = .num .nan := by
  have back : m + k + -k = m := by ring
  rw [mergeSum_eq, mergeSum_eq, back]
  by_cases empty : m = 0
  · rw [if_pos empty]
    exact ⟨fun _ => .inr (.inl empty), fun _ => (stored.null.mpr empty).symm⟩
  have total : m + k ≠ 0 := by
    have := stored.counter
    have := given.counter
    intro zero
    exact empty (by linarith)
  have present : s ≠ .null := fun null => empty (stored.null.mp null)
  obtain ⟨n, rfl⟩ : ∃ n, s = .num n := by
    cases s with
    | null => exact absurd rfl present
    | num n => exact ⟨n, rfl⟩
    | bool b => exact absurd stored.numeric Kind.noConfusion
    | text t => exact absurd stored.numeric Kind.noConfusion
    | jsonb j => exact absurd stored.numeric Kind.noConfusion
  rw [if_neg empty, if_neg total]
  cases x with
  | null => simp [Datum.signed, Datum.Finite]
  | num y =>
      have finite : (Datum.num y).Finite ↔ ∃ q, y = .fin q := by
        cases y <;> simp [Datum.Finite]
      have undo := Numeric.add_neg_eq n y
      simp only [Datum.signed, Datum.add, reduceCtorEq, if_false, Datum.num.injEq, undo, finite, empty, false_or]
  | bool b => exact absurd given.numeric Kind.noConfusion
  | text t => exact absurd given.numeric Kind.noConfusion
  | jsonb j => exact absurd given.numeric Kind.noConfusion

structure GroupValues where
  keys : List Datum
  rows : ℚ
  counts : OutputColumn → ℚ
  sums : SumSpec → Datum
  nonNull : SumSpec → ℚ

def GroupValues.record (spec : ViewSpec) (count : String) (g : GroupValues) : Record :=
  spec.layout count g.keys (.num (.fin g.rows)) (fun c => .num (.fin (g.counts c))) fun su => (g.sums su, .num (.fin (g.nonNull su)))

/-- Some row is counted, and every sum stands beside its counter. -/
structure GroupValues.Fits (spec : ViewSpec) (g : GroupValues) : Prop where
  width : g.keys.length = spec.columns.length
  some : 0 < g.rows
  tallied : ∀ su ∈ spec.sums, Tallied (g.sums su) (g.nonNull su)

def GroupValues.merge (sign : Sign) (h g : GroupValues) : GroupValues where
  keys := h.keys
  rows := h.rows + signedNum sign g.rows
  counts := fun c => h.counts c + signedNum sign (g.counts c)
  sums := fun su => mergeSum (h.sums su) ((g.sums su).signed sign) (.num (.fin (h.nonNull su))) (.num (.fin (signedNum sign (g.nonNull su))))
  nonNull := fun su => h.nonNull su + signedNum sign (g.nonNull su)

structure Groups (spec : ViewSpec) (gs : List GroupValues) : Prop where
  fits : ∀ g ∈ gs, g.Fits spec
  distinct : Keyed GroupValues.keys gs

section Contribution

variable {spec : ViewSpec} {count : String} (view : spec.IsAggregate count)
include view

theorem ViewSpec.IsAggregate.record_keys {g : GroupValues} (width : g.keys.length = spec.columns.length) :
    spec.rowKeys (g.record spec count) = g.keys := view.rowKeys_layout width _ _ _

theorem ViewSpec.IsAggregate.record_rows {g : GroupValues} (width : g.keys.length = spec.columns.length) :
    (g.record spec count).get count = .num (.fin g.rows) := view.layout_count width _ _ _

theorem ViewSpec.IsAggregate.record_sum {g : GroupValues} (width : g.keys.length = spec.columns.length) {su : SumSpec}
    (member : su ∈ spec.sums) : (g.record spec count).get su.aliasName = g.sums su ∧
      (g.record spec count).get su.counter = .num (.fin (g.nonNull su)) := view.layout_sum width _ _ _ member

theorem ViewSpec.IsAggregate.countExhausted_record {g : GroupValues} (width : g.keys.length = spec.columns.length) :
    countExhausted count (g.record spec count) = decide (g.rows ≤ 0) := by
  rw [countExhausted, view.record_rows width]

theorem ViewSpec.IsAggregate.signedRow_record {g : GroupValues} (fits : g.Fits spec) (sign : Sign) :
    signedRow spec count sign (g.record spec count) = spec.layout count g.keys (.num (.fin (signedNum sign g.rows)))
      (fun c => .num (.fin (signedNum sign (g.counts c)))) fun su => ((g.sums su).signed sign, .num (.fin (signedNum sign (g.nonNull su)))) := by
  rw [GroupValues.record, view.signedRow_layout fits.width]
  simp only [signed_fin]

theorem ViewSpec.IsAggregate.signedRow_added {g : GroupValues} (fits : g.Fits spec) :
    signedRow spec count .plus (g.record spec count) = g.record spec count := by
  rw [view.signedRow_record fits, GroupValues.record, ViewSpec.layout, ViewSpec.layout]
  congr 1
  apply List.flatMap_congr
  intro su member
  have same : (g.sums su).signed .plus = g.sums su := by
    have numeric := (fits.tallied su member).numeric
    cases value : g.sums su with
    | null => rfl
    | num n => rfl
    | _ => rw [value] at numeric; cases numeric
  rw [same]
  rfl

theorem ViewSpec.IsAggregate.mergeRow_record {h g : GroupValues} (fits : h.Fits spec) (fits' : g.Fits spec) (same : h.keys = g.keys)
    (sign : Sign) : mergeRow spec count (h.record spec count) (signedRow spec count sign (g.record spec count)) =
      (h.merge sign g).record spec count := by
  rw [view.signedRow_record fits', ← same, GroupValues.record, view.mergeRow_layout fits.width]
  simp only [Datum.add, Numeric.add]
  rfl

theorem ViewSpec.IsAggregate.sameGroup_record {h g : GroupValues} (fits : h.Fits spec) (fits' : g.Fits spec) :
    sameGroup spec (h.record spec count) (g.record spec count) = decide (h.keys = g.keys) := by
  rw [sameGroup_eq, view.record_keys fits.width, view.record_keys fits'.width]

variable {gs : List GroupValues} (groups : Groups spec gs)
include groups

variable {g : GroupValues} (fits : g.Fits spec)
include fits

theorem ViewSpec.IsAggregate.previous_record :
    ((gs.map (GroupValues.record spec count)).filter fun v => sameGroup spec v (g.record spec count)) =
      (Bags.group GroupValues.keys g.keys gs).map (GroupValues.record spec count) := by
  rw [List.filter_map, Bags.group]
  congr 1
  apply List.filter_congr
  intro h member
  exact view.sameGroup_record (groups.fits h member) fits

variable {json : Json} (read : populateRecord spec.tableColumns json = some (g.record spec count))
include read

theorem ViewSpec.IsAggregate.aggregateRow_added (absent : g.keys ∉ gs.map GroupValues.keys) :
    ∃ deltas, aggregateRow spec .plus json (gs.map (GroupValues.record spec count)) =
      .ok ((gs ++ [g]).map (GroupValues.record spec count), deltas) := by
  have nothing : Bags.group GroupValues.keys g.keys gs = [] :=
    group_eq_nil.mpr fun h member same => absent (List.mem_map.mpr ⟨h, member, same⟩)
  simp only [aggregateRow, view.countAlias, read, view.previous_record groups fits, nothing, List.map_nil,
    view.signedRow_added fits, view.record_rows fits.width]
  rw [if_pos fits.some]
  exact ⟨_, by rw [List.map_append, List.map_singleton]⟩

def mergedAt (sign : Sign) (g : GroupValues) (gs : List GroupValues) : List GroupValues :=
  gs.map fun h => if h.keys = g.keys then h.merge sign g else h

theorem ViewSpec.IsAggregate.aggregateRow_merged {h : GroupValues} (member : h ∈ gs) (same : h.keys = g.keys) (sign : Sign) :
    ∃ deltas, aggregateRow spec sign json (gs.map (GroupValues.record spec count)) =
      .ok ((if 0 < (h.merge sign g).rows then mergedAt sign g gs else gs.filter fun h => !decide (h.keys = g.keys)).map
        (GroupValues.record spec count), deltas) := by
  have single : Bags.group GroupValues.keys g.keys gs = [h] := same ▸ groups.distinct.group_of_mem member
  have width : (h.merge sign g).keys.length = spec.columns.length := (groups.fits h member).width
  have upserted : ((gs.map (GroupValues.record spec count)).map fun w =>
      if sameGroup spec w (g.record spec count) = true then (h.merge sign g).record spec count else w) =
        (mergedAt sign g gs).map (GroupValues.record spec count) := by
    rw [mergedAt, List.map_map, List.map_map]
    apply List.map_congr_left
    intro h' inGroups
    simp only [Function.comp_apply, view.sameGroup_record (groups.fits h' inGroups) fits, decide_eq_true_eq]
    by_cases here : h'.keys = g.keys
    · obtain rfl := groups.distinct.eq_of_mem inGroups member (here.trans same.symm)
      rw [if_pos here, if_pos here]
    · rw [if_neg here, if_neg here]
  simp only [aggregateRow, view.countAlias, read, view.previous_record groups fits, single, List.map_cons, List.map_nil,
    view.mergeRow_record (groups.fits h member) fits same sign, upserted, view.record_rows width]
  by_cases left : 0 < (h.merge sign g).rows
  · rw [if_pos left, if_pos left]
    exact ⟨_, rfl⟩
  · rw [if_neg left, if_neg left]
    have kept : ∀ h' ∈ gs, (!countExhausted count ((if h'.keys = g.keys then h'.merge sign g else h').record spec count)) =
        !decide (h'.keys = g.keys) := by
      intro h' inGroups
      by_cases here : h'.keys = g.keys
      · obtain rfl := groups.distinct.eq_of_mem inGroups member (here.trans same.symm)
        rw [if_pos here, view.countExhausted_record width, decide_eq_true (not_lt.mp left), decide_eq_true here]
      · have fits' := groups.fits h' inGroups
        rw [if_neg here, view.countExhausted_record fits'.width, decide_eq_false (not_le.mpr fits'.some), decide_eq_false here]
    have removed : ((mergedAt sign g gs).map (GroupValues.record spec count)).filter (fun w => !countExhausted count w) =
        (gs.filter fun h => !decide (h.keys = g.keys)).map (GroupValues.record spec count) := by
      rw [mergedAt, List.map_map, List.filter_map, ← List.filter_congr kept]
      apply List.map_congr_left
      intro h' within
      have other : ¬ h'.keys = g.keys := by
        have inner := List.mem_filter.mp within
        have passes : (!decide (h'.keys = g.keys)) = true := (kept h' inner.1).symm.trans inner.2
        rwa [Bool.not_eq_true', decide_eq_false_iff_not] at passes
      rw [Function.comp_apply, if_neg other]
    rw [removed]
    exact ⟨_, rfl⟩

end Contribution

theorem Groups.add {spec : ViewSpec} {gs : List GroupValues} {g : GroupValues} (groups : Groups spec gs) (fits : g.Fits spec)
    (absent : g.keys ∉ gs.map GroupValues.keys) : Groups spec (gs ++ [g]) where
  fits := by
    intro h member
    rcases List.mem_append.mp member with before | last
    · exact groups.fits h before
    · exact List.mem_singleton.mp last ▸ fits
  distinct := groups.distinct.concat absent

theorem Groups.filter {spec : ViewSpec} {gs : List GroupValues} (groups : Groups spec gs) (p : GroupValues → Bool) : Groups spec (gs.filter p) :=
  ⟨fun h member => groups.fits h (List.mem_of_mem_filter member), groups.distinct.filter p⟩

theorem mergedAt_keys (sign : Sign) (g : GroupValues) (gs : List GroupValues) :
    (mergedAt sign g gs).map GroupValues.keys = gs.map GroupValues.keys := by
  rw [mergedAt, List.map_map]
  apply List.map_congr_left
  intro h _
  by_cases here : h.keys = g.keys
  · rw [Function.comp_apply, if_pos here]
    rfl
  · rw [Function.comp_apply, if_neg here]

theorem Groups.merge {spec : ViewSpec} {gs : List GroupValues} {g : GroupValues} {sign : Sign} (groups : Groups spec gs)
    (fits : g.Fits spec) (some : ∀ h ∈ gs, h.keys = g.keys → 0 < (h.merge sign g).rows)
    (enough : ∀ h ∈ gs, h.keys = g.keys → ∀ su ∈ spec.sums, 0 ≤ h.nonNull su + signedNum sign (g.nonNull su)) :
    Groups spec (mergedAt sign g gs) where
  fits := by
    intro h' member
    obtain ⟨h, inGroups, rfl⟩ := List.mem_map.mp member
    have before := groups.fits h inGroups
    by_cases here : h.keys = g.keys
    · rw [if_pos here]
      exact ⟨before.width, some h inGroups here, fun su inSums =>
        (before.tallied su inSums).merge (fits.tallied su inSums) (enough h inGroups here su inSums)⟩
    · rw [if_neg here]
      exact before
  distinct := by
    rw [Keyed, mergedAt_keys]
    exact groups.distinct

def GroupValues.ofRows (keys : List Datum) (ρs : List Env) : GroupValues where
  keys := keys
  rows := ρs.length
  counts := fun c => ((ρs.map c.expr.eval).filter (· != .null)).length
  sums := fun su => sqlSum (ρs.map su.expr.eval)
  nonNull := fun su => ((ρs.map su.expr.eval).filter (· != .null)).length

theorem tallied_sqlSum {ds : List Datum} (numeric : ∀ d ∈ ds, d.HasKind .numeric) :
    Tallied (sqlSum ds) ((ds.filter (· != .null)).length : ℚ) := by
  have none : ds.filterMap Datum.numeric? = [] ↔ ds.filter (· != .null) = [] := by
    rw [List.filterMap_eq_nil_iff, List.filter_eq_nil_iff]
    apply forall₂_congr
    intro d member
    have typed := numeric d member
    cases d with
    | null => simp [Datum.numeric?]
    | num n => simp [Datum.numeric?]
    | _ => cases typed
  refine ⟨?_, Nat.cast_nonneg _, ?_⟩
  · rw [sqlSum_eq]
    split
    · trivial
    · rfl
  · rw [Nat.cast_eq_zero, List.length_eq_zero_iff, ← none, sqlSum_eq]
    by_cases empty : ds.filterMap Datum.numeric? = []
    · rw [if_pos empty]
      exact ⟨fun _ => empty, fun _ => rfl⟩
    · rw [if_neg empty]
      exact ⟨fun null => (by cases null), fun nil => absurd nil empty⟩

/-- The storage tables of an aggregate view: what its query returns, then one contribution
after another, none taken off that is not there. -/
inductive ViewSpec.AggregateRun (spec : ViewSpec) (count : String) : List Record → Prop where
  | populated {tables : List (List BaseRow)} (typed : ∀ ρ ∈ spec.joined tables, ∀ su ∈ spec.sums, (su.expr.eval ρ).HasKind .numeric) :
      spec.AggregateRun count (spec.evalQuery tables)
  | contributed {table table' : List Record} {sign : Sign} {json : Json} {g : GroupValues} {deltas : List Delta}
      (run : spec.AggregateRun count table) (fits : g.Fits spec)
      (read : populateRecord spec.tableColumns json = some (g.record spec count))
      (there : sign = .minus → ∃ v ∈ table, spec.rowKeys v = g.keys ∧ ∀ su ∈ spec.sums, ∀ m, v.get su.counter = .num (.fin m) → g.nonNull su ≤ m)
      (done : aggregateRow spec sign json table = .ok (table', deltas)) : spec.AggregateRun count table'

section Run

variable {spec : ViewSpec} {count : String} (view : spec.IsAggregate count)
include view

theorem ViewSpec.IsAggregate.populated_groups {ρs : List Env} (typed : ∀ ρ ∈ ρs, ∀ su ∈ spec.sums, (su.expr.eval ρ).HasKind .numeric) :
    ∃ gs, Groups spec gs ∧ spec.groupRows ρs = gs.map (GroupValues.record spec count) := by
  refine ⟨(ρs.map spec.groupKeys).dedup.map fun keys => GroupValues.ofRows keys (ρs.filter fun ρ => spec.groupKeys ρ = keys), ⟨?_, ?_⟩, ?_⟩
  · intro g member
    obtain ⟨keys, inKeys, rfl⟩ := List.mem_map.mp member
    obtain ⟨ρ, inRows, rfl⟩ := List.mem_map.mp (List.mem_dedup.mp inKeys)
    refine ⟨spec.groupKeys_length ρ, ?_, fun su inSums => tallied_sqlSum ?_⟩
    · exact Nat.cast_pos.mpr (List.length_pos_of_mem (List.mem_filter.mpr ⟨inRows, decide_eq_true rfl⟩))
    · intro d within
      obtain ⟨σ, inGroup, rfl⟩ := List.mem_map.mp within
      exact typed σ (List.mem_of_mem_filter inGroup) su inSums
  · rw [Keyed, List.map_map]
    exact (List.map_id _).symm ▸ List.nodup_dedup _
  · rw [ViewSpec.groupRows, List.map_map]
    apply List.map_congr_left
    intro keys _
    rw [view.groupRow_eq]
    rfl

theorem ViewSpec.IsAggregate.run_groups {table : List Record} (run : spec.AggregateRun count table) :
    ∃ gs, Groups spec gs ∧ table = gs.map (GroupValues.record spec count) := by
  induction run with
  | @populated tables typed =>
      have output : spec.evalQuery tables = spec.groupRows (spec.joined tables) := by
        simp only [ViewSpec.evalQuery, ViewSpec.output, view.shape]
      rw [output]
      exact view.populated_groups typed
  | @contributed table table' sign json g deltas _ fits read there done ih =>
      obtain ⟨gs, groups, rfl⟩ := ih
      by_cases present : g.keys ∈ gs.map GroupValues.keys
      · obtain ⟨h, member, same⟩ := List.mem_map.mp present
        obtain ⟨deltas', result⟩ := view.aggregateRow_merged groups fits read member same sign
        obtain ⟨rfl, -⟩ := Prod.mk.inj (Except.ok.inj (done.symm.trans result))
        refine ⟨_, ?_, rfl⟩
        split
        · rename_i left
          apply groups.merge fits
          · intro h' inGroups here
            exact groups.distinct.eq_of_mem inGroups member (here.trans same.symm) ▸ left
          · intro h' inGroups here su inSums
            have stored := ((groups.fits h' inGroups).tallied su inSums).counter
            have given := (fits.tallied su inSums).counter
            cases sign with
            | plus => exact add_nonneg stored given
            | minus =>
                obtain ⟨v, inTable, keys, enough⟩ := there rfl
                obtain ⟨h'', inGroups', rfl⟩ := List.mem_map.mp inTable
                have width := (groups.fits h'' inGroups').width
                rw [view.record_keys width] at keys
                obtain rfl := groups.distinct.eq_of_mem inGroups inGroups' (here.trans keys.symm)
                have less := enough su inSums _ (view.record_sum width inSums).2
                show 0 ≤ h'.nonNull su + -g.nonNull su
                linarith
        · exact groups.filter _
      · cases sign with
        | plus =>
            obtain ⟨deltas', result⟩ := view.aggregateRow_added groups fits read present
            obtain ⟨rfl, -⟩ := Prod.mk.inj (Except.ok.inj (done.symm.trans result))
            exact ⟨_, groups.add fits present, rfl⟩
        | minus =>
            obtain ⟨v, inTable, keys, -⟩ := there rfl
            obtain ⟨h, inGroups, rfl⟩ := List.mem_map.mp inTable
            rw [view.record_keys (groups.fits h inGroups).width] at keys
            exact absurd (List.mem_map.mpr ⟨h, inGroups, keys⟩) present

theorem ViewSpec.IsAggregate.undone_record {h g : GroupValues} (fits : h.Fits spec) (fits' : g.Fits spec) :
    ((h.merge .plus g).merge .minus g).record spec count = h.record spec count ↔
      ∀ su ∈ spec.sums, (g.sums su).Finite ∨ h.nonNull su = 0 ∨ h.sums su = .num .nan := by
  have undone (su : SumSpec) (member : su ∈ spec.sums) : ((h.merge .plus g).merge .minus g).sums su = h.sums su ↔
      (g.sums su).Finite ∨ h.nonNull su = 0 ∨ h.sums su = .num .nan := (fits.tallied su member).undoes_iff (fits'.tallied su member)
  have back (p q : ℚ) : p + q + -q = p := add_neg_cancel_right p q
  constructor
  · intro equal su member
    have left := (view.record_sum (g := (h.merge .plus g).merge .minus g) fits.width member).1
    rw [equal, (view.record_sum fits.width member).1] at left
    exact (undone su member).mp left.symm
  · intro each
    rw [GroupValues.record, GroupValues.record, ViewSpec.layout, ViewSpec.layout]
    congr 1
    · simp only [GroupValues.merge, signedNum, back]
    · apply List.flatMap_congr
      intro su member
      rw [(undone su member).mpr (each su member)]
      simp only [GroupValues.merge, signedNum, back]

theorem ViewSpec.IsAggregate.undone_groups {gs : List GroupValues} (groups : Groups spec gs) {g : GroupValues} (fits : g.Fits spec)
    {json : Json} (read : populateRecord spec.tableColumns json = some (g.record spec count)) :
    ∃ added taken deltas deltas', aggregateRow spec .plus json (gs.map (GroupValues.record spec count)) = .ok (added, deltas) ∧
      aggregateRow spec .minus json added = .ok (taken, deltas') ∧
      (taken = gs.map (GroupValues.record spec count) ↔
        ∀ v ∈ gs.map (GroupValues.record spec count), spec.rowKeys v = g.keys → ∀ su ∈ spec.sums,
          (g.sums su).Finite ∨ v.get su.counter = .num (.fin 0) ∨ v.get su.aliasName = .num .nan) := by
  by_cases present : g.keys ∈ gs.map GroupValues.keys
  · -- the group is stored
    obtain ⟨h, member, same⟩ := List.mem_map.mp present
    have fitsH := groups.fits h member
    have grows : 0 < (h.merge .plus g).rows := add_pos fitsH.some fits.some
    have groups' : Groups spec (mergedAt .plus g gs) := by
      apply groups.merge fits
      · intro h' inGroups _
        exact add_pos (groups.fits h' inGroups).some fits.some
      · intro h' inGroups _ su inSums
        exact add_nonneg ((groups.fits h' inGroups).tallied su inSums).counter (fits.tallied su inSums).counter
    obtain ⟨deltas, first⟩ := view.aggregateRow_merged groups fits read member same .plus
    rw [if_pos grows] at first
    have inMerged : h.merge .plus g ∈ mergedAt .plus g gs := List.mem_map.mpr ⟨h, member, if_pos same⟩
    obtain ⟨deltas', second⟩ := view.aggregateRow_merged groups' fits read inMerged same .minus
    have stays : 0 < ((h.merge .plus g).merge .minus g).rows := by
      show 0 < h.rows + g.rows + -g.rows
      rw [add_neg_cancel_right]
      exact fitsH.some
    rw [if_pos stays] at second
    refine ⟨_, _, deltas, deltas', first, second, ?_⟩
    have twice : mergedAt .minus g (mergedAt .plus g gs) =
        gs.map fun h' => if h'.keys = g.keys then (h'.merge .plus g).merge .minus g else h' := by
      rw [mergedAt, mergedAt, List.map_map]
      apply List.map_congr_left
      intro h' _
      by_cases here : h'.keys = g.keys
      · have here' : (h'.merge .plus g).keys = g.keys := here
        rw [Function.comp_apply, if_pos here, if_pos here', if_pos here]
      · rw [Function.comp_apply, if_neg here, if_neg here, if_neg here]
    have stored (h' : GroupValues) (inGroups : h' ∈ gs) (su : SumSpec) (inSums : su ∈ spec.sums) :
        ((g.sums su).Finite ∨ (h'.record spec count).get su.counter = .num (.fin 0) ∨ (h'.record spec count).get su.aliasName = .num .nan) ↔
          (g.sums su).Finite ∨ h'.nonNull su = 0 ∨ h'.sums su = .num .nan := by
      have values := view.record_sum (groups.fits h' inGroups).width inSums
      rw [values.1, values.2, Datum.num.injEq, Numeric.fin.injEq]
    rw [twice, List.map_map, List.map_inj_left, List.forall_mem_map]
    apply forall₂_congr
    intro h' inGroups
    rw [view.record_keys (groups.fits h' inGroups).width, Function.comp_apply]
    by_cases here : h'.keys = g.keys
    · rw [if_pos here, view.undone_record (groups.fits h' inGroups) fits]
      have each := forall₂_congr fun su inSums => stored h' inGroups su inSums
      exact ⟨fun undone _ => each.mpr undone, fun undone => each.mp (undone here)⟩
    · rw [if_neg here]
      exact ⟨fun _ there => absurd there here, fun _ => rfl⟩
  · -- the contribution makes the group, and its last row takes it away
    obtain ⟨deltas, first⟩ := view.aggregateRow_added groups fits read present
    have last : g ∈ gs ++ [g] := List.mem_append_right gs (List.mem_singleton_self g)
    obtain ⟨deltas', second⟩ := view.aggregateRow_merged (groups.add fits present) fits read last rfl .minus
    have gone : ¬ 0 < (g.merge .minus g).rows := by
      show ¬ 0 < g.rows + -g.rows
      rw [add_neg_cancel]
      exact lt_irrefl 0
    have absent : ∀ h ∈ gs, ¬ h.keys = g.keys := fun h member same => present (List.mem_map.mpr ⟨h, member, same⟩)
    have left : ((gs ++ [g]).filter fun h => !decide (h.keys = g.keys)) = gs := by
      rw [List.filter_append, List.filter_eq_self.mpr fun h member => (by rw [decide_eq_false (absent h member)]; rfl),
        List.filter_eq_nil_iff.mpr fun h member => (by rw [List.mem_singleton.mp member, decide_eq_true rfl]; exact Bool.false_ne_true),
        List.append_nil]
    rw [if_neg gone, left] at second
    refine ⟨_, _, deltas, deltas', first, second, fun _ v inTable keys => ?_, fun _ => rfl⟩
    obtain ⟨h, member, rfl⟩ := List.mem_map.mp inTable
    rw [view.record_keys (groups.fits h member).width] at keys
    exact absurd keys (absent h member)

/-- A contribution added to a reachable table and taken off again leaves the table as it was
exactly when, for each sum, what it adds is finite or NULL, or the stored sum has nothing in
it or is NaN already. -/
theorem ViewSpec.IsAggregate.undone_iff {table : List Record} (run : spec.AggregateRun count table) {g : GroupValues} (fits : g.Fits spec)
    {json : Json} (read : populateRecord spec.tableColumns json = some (g.record spec count)) :
    ∃ added taken deltas deltas', aggregateRow spec .plus json table = .ok (added, deltas) ∧
      aggregateRow spec .minus json added = .ok (taken, deltas') ∧
      (taken = table ↔ ∀ v ∈ table, spec.rowKeys v = g.keys → ∀ su ∈ spec.sums,
        (g.sums su).Finite ∨ v.get su.counter = .num (.fin 0) ∨ v.get su.aliasName = .num .nan) := by
  obtain ⟨gs, groups, rfl⟩ := view.run_groups run
  exact view.undone_groups groups fits read

end Run

def oneRow (x : Datum) : GroupValues where
  keys := [.num (.fin 1)]
  rows := 1
  counts := fun _ => 0
  sums := fun _ => x
  nonNull := fun _ => 1

theorem oneRow_fits {n : Numeric} : (oneRow (.num n)).Fits totalsSpec where
  width := rfl
  some := one_pos
  tallied := by
    intro su _
    refine ⟨rfl, zero_le_one, fun null => (by cases null), fun zero => ?_⟩
    exact absurd zero one_ne_zero

/-- `t` with one row. -/
def oneTable : List Record := [(oneRow (.num (.fin 5))).record totalsSpec "n"]

theorem oneTable_run : totalsSpec.AggregateRun "n" oneTable := by
  have query : totalsSpec.evalQuery [[fun name => totalsRow (.num (.fin 5)) 0 name]] = oneTable := rfl
  rw [← query]
  apply ViewSpec.AggregateRun.populated
  intro ρ member su inSums
  obtain rfl := List.mem_singleton.mp inSums
  obtain rfl := List.mem_singleton.mp member
  rfl

theorem oneRow_read (n : Numeric) : populateRecord totalsSpec.tableColumns ((oneRow (.num n)).record totalsSpec "n").toJsonb =
    some ((oneRow (.num n)).record totalsSpec "n") := by
  cases n <;> rfl

/-- A second row of the group with 7 arrives and leaves. -/
theorem seven_undone : ∃ added taken deltas deltas',
    aggregateRow totalsSpec .plus ((oneRow (.num (.fin 7))).record totalsSpec "n").toJsonb oneTable = .ok (added, deltas) ∧
      aggregateRow totalsSpec .minus ((oneRow (.num (.fin 7))).record totalsSpec "n").toJsonb added = .ok (taken, deltas') ∧ taken = oneTable := by
  have view : totalsSpec.IsAggregate "n" := ⟨rfl, rfl, by decide⟩
  obtain ⟨added, taken, deltas, deltas', first, second, undone⟩ := view.undone_iff oneTable_run oneRow_fits (oneRow_read (.fin 7))
  exact ⟨added, taken, deltas, deltas', first, second, undone.mpr fun _ _ _ _ _ => .inl trivial⟩

/-- A second row of the group with NaN arrives and leaves: the total stays NaN. -/
theorem nan_stays : ∃ added taken deltas deltas',
    aggregateRow totalsSpec .plus ((oneRow (.num .nan)).record totalsSpec "n").toJsonb oneTable = .ok (added, deltas) ∧
      aggregateRow totalsSpec .minus ((oneRow (.num .nan)).record totalsSpec "n").toJsonb added = .ok (taken, deltas') ∧ taken ≠ oneTable := by
  have view : totalsSpec.IsAggregate "n" := ⟨rfl, rfl, by decide⟩
  have groups : Groups totalsSpec [oneRow (.num (.fin 5))] :=
    ⟨fun g member => List.mem_singleton.mp member ▸ oneRow_fits, List.nodup_singleton _⟩
  obtain ⟨added, taken, deltas, deltas', first, second, undone⟩ := view.undone_groups groups oneRow_fits (oneRow_read .nan)
  refine ⟨added, taken, deltas, deltas', first, second, fun same => ?_⟩
  rcases undone.mp same _ List.mem_cons_self rfl _ List.mem_cons_self with finite | empty | already
  · exact finite
  · have one : Datum.num (.fin 1) = .num (.fin 0) := empty
    norm_num at one
  · cases already

end Nabla
