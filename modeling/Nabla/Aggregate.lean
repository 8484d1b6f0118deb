import Nabla.Apply
import Nabla.Lib.Keyed
import Mathlib.Algebra.BigOperators.Group.List.Basic
import Mathlib.Algebra.Order.Ring.Rat
import Mathlib.Data.List.Forall2
import Mathlib.Tactic.Ring
import Mathlib.Tactic.Linarith

/-! The storage table of an aggregate view against GROUP BY over the current rows:
one contribution of one group keeps the table equal to the aggregate of the rows
with that contribution added or removed. -/
namespace Nabla
open Bags

theorem Numeric.add_comm (a b : Numeric) : a.add b = b.add a := by
  cases a <;> cases b <;> simp only [Numeric.add, Rat.add_comm]

theorem Numeric.add_assoc (a b c : Numeric) : (a.add b).add c = a.add (b.add c) := by
  cases a <;> cases b <;> cases c <;> simp only [Numeric.add, Rat.add_assoc]

theorem Numeric.zero_add (a : Numeric) : (Numeric.fin 0).add a = a := by
  cases a <;> simp only [Numeric.add, Rat.zero_add]

instance : RightCommutative Numeric.add where
  right_comm := fun a b c => by rw [Numeric.add_assoc, Numeric.add_comm b, ← Numeric.add_assoc]

theorem sqlSum_eq (ds : List Datum) : sqlSum ds =
    if ds.filterMap Datum.numeric? = [] then .null
    else .num ((ds.filterMap Datum.numeric?).foldl Numeric.add (.fin 0)) := by
  unfold sqlSum
  cases ds.filterMap Datum.numeric? with
  | nil => rfl
  | cons n ns => simp only [List.foldl_cons, Numeric.zero_add, reduceCtorEq, if_false]

theorem sqlSum_perm {ds es : List Datum} (same : ds.Perm es) : sqlSum ds = sqlSum es := by
  have numbers := same.filterMap Datum.numeric?
  rw [sqlSum_eq, sqlSum_eq, numbers.foldl_eq]
  simp only [← List.length_eq_zero_iff, numbers.length_eq]

theorem sqlCount_perm {ds es : List Datum} (same : ds.Perm es) : sqlCount ds = sqlCount es := by
  simp only [sqlCount, (same.filter _).length_eq]

def Datum.Finite : Datum → Prop
  | .null => True
  | .num (.fin _) => True
  | _ => False

def Datum.exact? : Datum → Option ℚ
  | .num (.fin q) => some q
  | _ => none

/-- The non-NULL arguments of an exact `sum()`. -/
def exacts (ds : List Datum) : List ℚ := ds.filterMap Datum.exact?

def exactSum (qs : List ℚ) : Datum := if qs = [] then .null else .num (.fin qs.sum)

theorem foldl_fin (qs : List ℚ) (a : ℚ) :
    (qs.map Numeric.fin).foldl Numeric.add (.fin a) = .fin (a + qs.sum) := by
  induction qs generalizing a with
  | nil => simp only [List.map_nil, List.foldl_nil, List.sum_nil, Rat.add_zero]
  | cons q qs ih =>
      simp only [List.map_cons, List.foldl_cons, Numeric.add, ih, List.sum_cons, Rat.add_assoc]

theorem numbers_eq_exacts {ds : List Datum} (finite : ∀ d ∈ ds, d.Finite) :
    ds.filterMap Datum.numeric? = (exacts ds).map Numeric.fin := by
  induction ds with
  | nil => rfl
  | cons d ds ih =>
      have rest := ih fun e member => finite e (List.mem_cons_of_mem _ member)
      have head := finite d List.mem_cons_self
      unfold exacts at rest ⊢
      match d, head with
      | .null, _ => simpa only [List.filterMap_cons, Datum.numeric?, Datum.exact?] using rest
      | .num (.fin q), _ =>
          simpa only [List.filterMap_cons, Datum.numeric?, Datum.exact?, List.map_cons, List.cons.injEq,
            true_and] using rest

theorem sqlSum_exact {ds : List Datum} (finite : ∀ d ∈ ds, d.Finite) : sqlSum ds = exactSum (exacts ds) := by
  rw [sqlSum_eq, numbers_eq_exacts finite, foldl_fin, Rat.zero_add]
  simp only [exactSum, List.map_eq_nil_iff]

theorem sqlCount_exact {ds : List Datum} (finite : ∀ d ∈ ds, d.Finite) :
    sqlCount ds = .num (.fin (exacts ds).length) := by
  have counted : (ds.filter (· != .null)).length = (exacts ds).length := by
    induction ds with
    | nil => rfl
    | cons d ds ih =>
        have rest := ih fun e member => finite e (List.mem_cons_of_mem _ member)
        have head := finite d List.mem_cons_self
        unfold exacts at rest ⊢
        match d, head with
        | .null, _ => simpa [List.filterMap_cons, Datum.exact?] using rest
        | .num (.fin q), _ => simpa [List.filterMap_cons, Datum.exact?] using rest
  rw [sqlCount, counted]

/-- What a contribution does to a bag: `K` joins `M`, or leaves it. -/
def Moves {α : Type} (sign : Sign) (K M M' : List α) : Prop :=
  match sign with
  | .plus => M'.Perm (K ++ M)
  | .minus => M.Perm (K ++ M')

theorem Moves.map {α β : Type} {sign : Sign} {K M M' : List α} (moves : Moves sign K M M') (f : α → β) :
    Moves sign (K.map f) (M.map f) (M'.map f) := by
  cases sign with
  | plus => simpa only [Moves, List.map_append] using List.Perm.map f moves
  | minus => simpa only [Moves, List.map_append] using List.Perm.map f moves

theorem Moves.filterMap {α β : Type} {sign : Sign} {K M M' : List α} (moves : Moves sign K M M')
    (f : α → Option β) : Moves sign (K.filterMap f) (M.filterMap f) (M'.filterMap f) := by
  cases sign with
  | plus => simpa only [Moves, List.filterMap_append] using List.Perm.filterMap f moves
  | minus => simpa only [Moves, List.filterMap_append] using List.Perm.filterMap f moves

theorem Moves.filter {α : Type} {sign : Sign} {K M M' : List α} (moves : Moves sign K M M')
    (p : α → Bool) : Moves sign (K.filter p) (M.filter p) (M'.filter p) := by
  cases sign with
  | plus => simpa only [Moves, List.filter_append] using List.Perm.filter p moves
  | minus => simpa only [Moves, List.filter_append] using List.Perm.filter p moves

theorem Moves.mem {α : Type} {sign : Sign} {K M M' : List α} (moves : Moves sign K M M') {x : α}
    (member : x ∈ M') : x ∈ K ∨ x ∈ M := by
  cases sign with
  | plus => exact List.mem_append.mp (List.Perm.mem_iff moves |>.mp member)
  | minus => exact Or.inr (List.Perm.mem_iff moves |>.mpr (List.mem_append_right _ member))

theorem Moves.agreeOff {α κ : Type} [DecidableEq κ] {key : α → κ} {k : κ} {sign : Sign} {K M M' : List α}
    (moves : Moves sign K M M') (all : ∀ x ∈ K, key x = k) : AgreeOff key k M M' := by
  cases sign with
  | plus => exact agreeOff_append moves all
  | minus => exact (agreeOff_append moves all).symm

def signedNum (sign : Sign) (q : ℚ) : ℚ :=
  match sign with
  | .plus => q
  | .minus => -q

theorem signed_fin (sign : Sign) (q : ℚ) :
    (Datum.num (.fin q)).signed sign = .num (.fin (signedNum sign q)) := by
  cases sign <;> rfl

theorem Moves.length {α : Type} {sign : Sign} {K M M' : List α} (moves : Moves sign K M M') :
    (M.length : ℚ) + signedNum sign K.length = M'.length := by
  cases sign with
  | plus => rw [List.Perm.length_eq moves, List.length_append, Nat.cast_add, signedNum, Rat.add_comm]
  | minus =>
      rw [List.Perm.length_eq moves, List.length_append, Nat.cast_add, signedNum]
      ring

theorem Moves.sum {sign : Sign} {K M M' : List ℚ} (moves : Moves sign K M M') :
    M.sum + signedNum sign K.sum = M'.sum := by
  cases sign with
  | plus => rw [List.Perm.sum_eq moves, List.sum_append, signedNum, Rat.add_comm]
  | minus =>
      rw [List.Perm.sum_eq moves, List.sum_append, signedNum]
      ring

theorem Moves.of_nil {α : Type} {sign : Sign} {M M' : List α} (moves : Moves sign [] M M') : M.Perm M' := by
  cases sign with
  | plus => exact List.Perm.symm moves
  | minus => exact moves

theorem Moves.onto_nil {α : Type} {sign : Sign} {K M' : List α} (moves : Moves sign K [] M')
    (some : K ≠ []) : sign = .plus ∧ M'.Perm K := by
  cases sign with
  | plus => exact ⟨rfl, by simpa only [Moves, List.append_nil] using moves⟩
  | minus => exact absurd (List.append_eq_nil_iff.mp (List.Perm.nil_eq moves).symm).1 some

theorem exactSum_perm {p q : List ℚ} (same : p.Perm q) : exactSum p = exactSum q := by
  simp only [exactSum, same.sum_eq, ← List.length_eq_zero_iff, same.length_eq]

theorem mergeSum_exact {sign : Sign} {q p r : List ℚ} (moves : Moves sign q p r) :
    mergeSum (exactSum p) ((exactSum q).signed sign) (.num (.fin p.length))
        ((Datum.num (.fin q.length)).signed sign) = exactSum r := by
  simp only [mergeSum, signed_fin, Datum.add, Numeric.add, moves.length, Datum.num.injEq, Numeric.fin.injEq,
    Nat.cast_eq_zero, List.length_eq_zero_iff]
  by_cases noRest : r = []
  · simp only [noRest, if_true, exactSum]
  · by_cases noChange : q = []
    · subst noChange
      rw [if_neg noRest, exactSum_perm moves.of_nil]
      rfl
    · by_cases noLeft : p = []
      · subst noLeft
        obtain ⟨rfl, same⟩ := moves.onto_nil noChange
        simp only [noRest, noChange, if_false, exactSum, signed_fin, signedNum, reduceCtorEq, if_true,
          same.sum_eq]
      · simp only [noRest, noChange, noLeft, if_false, exactSum, signed_fin, reduceCtorEq,
          moves.sum]

theorem sqlCount_moves {sign : Sign} {es ds fs : List Datum} (moves : Moves sign es ds fs) :
    (sqlCount ds).add ((sqlCount es).signed sign) = sqlCount fs := by
  have lengths := (moves.filter (· != .null)).length
  simp only [sqlCount, signed_fin, Datum.add, Numeric.add, lengths]

/-- What an analyzed aggregate view promises: `count(*)` is stored, and no two
columns of the storage table share a name. -/
structure ViewSpec.IsAggregate (spec : ViewSpec) (count : String) : Prop where
  shape : spec.shape = .aggregate
  countAlias : spec.countAlias = some count
  distinct : (spec.tableColumns.map Prod.fst).Nodup

/-- A row an aggregate view takes: its group keys have their type and are not the
JSON null, its `sum()` arguments are NULL or exact. -/
structure ViewSpec.Groupable (spec : ViewSpec) (ρ : Env) : Prop where
  keyKind : ∀ o ∈ spec.columns, (o.expr.eval ρ).HasKind o.expr.kind
  keyKept : ∀ o ∈ spec.columns, o.expr.eval ρ ≠ .jsonNull
  exact : ∀ su ∈ spec.sums, (su.expr.eval ρ).Finite

theorem Record.map_get_zip {r : Record} (distinct : (r.map Prod.fst).Nodup) {names : List String}
    {values : List Datum} (length : names.length = values.length) (within : names.zip values ⊆ r) :
    names.map r.get = values := by
  induction names generalizing values with
  | nil => exact (List.length_eq_zero_iff.mp length.symm).symm
  | cons name names ih =>
      cases values with
      | nil => contradiction
      | cons value values =>
          rw [List.length_cons, List.length_cons, Nat.succ_inj] at length
          rw [List.zip_cons_cons] at within
          have head := Record.get_of_mem distinct (within List.mem_cons_self)
          have tail := ih length fun p member => within (List.mem_cons_of_mem _ member)
          rw [List.map_cons, head, tail]

def ViewSpec.rowKeys (spec : ViewSpec) (r : Record) : List Datum :=
  spec.columns.map fun c => r.get c.aliasName

theorem sameGroup_eq (spec : ViewSpec) (v src : Record) :
    sameGroup spec v src = decide (spec.rowKeys v = spec.rowKeys src) := by
  rw [Bool.eq_iff_iff, decide_eq_true_eq]
  simp only [sameGroup, ViewSpec.rowKeys, List.all_eq_true, beq_iff_eq, List.map_inj_left]

section GroupRow

variable {spec : ViewSpec} {count : String} (view : spec.IsAggregate count)
include view

theorem ViewSpec.IsAggregate.tableColumns_eq : spec.tableColumns =
    spec.columns.map (fun o => (o.aliasName, o.expr.kind)) ++
      (count, .numeric) :: spec.counts.map (fun c => (c.aliasName, .numeric)) ++
      spec.sums.flatMap (fun su => [(su.aliasName, .numeric), (su.counter, .numeric)]) := by
  simp only [ViewSpec.tableColumns, view.shape, view.countAlias, Option.getD_some]

def ViewSpec.layout (spec : ViewSpec) (count : String) (keys : List Datum) (n : Datum)
    (counts : OutputColumn → Datum) (sums : SumSpec → Datum × Datum) : Record :=
  (spec.columns.map OutputColumn.aliasName).zip keys ++
    (count, n) :: spec.counts.map (fun c => (c.aliasName, counts c)) ++
    spec.sums.flatMap (fun su => [(su.aliasName, (sums su).1), (su.counter, (sums su).2)])

theorem ViewSpec.IsAggregate.groupRow_eq (keys : List Datum) (ρs : List Env) : spec.groupRow keys ρs =
    spec.layout count keys (.num (.fin ρs.length)) (fun c => sqlCount (ρs.map c.expr.eval))
      (fun su => (sqlSum (ρs.map su.expr.eval), sqlCount (ρs.map su.expr.eval))) := by
  simp only [ViewSpec.groupRow, ViewSpec.layout, view.countAlias, Option.getD_some]

variable {keys : List Datum} (length : keys.length = spec.columns.length) (n : Datum)
  (counts : OutputColumn → Datum) (sums : SumSpec → Datum × Datum)
include length

theorem ViewSpec.IsAggregate.layout_distinct :
    ((spec.layout count keys n counts sums).map Prod.fst).Nodup := by
  have front : ((spec.columns.map OutputColumn.aliasName).zip keys).map Prod.fst =
      spec.columns.map OutputColumn.aliasName := by
    apply List.map_fst_zip
    rw [List.length_map, length]
  have names : (spec.layout count keys n counts sums).map Prod.fst = spec.tableColumns.map Prod.fst := by
    simp only [ViewSpec.layout, view.tableColumns_eq, List.map_append, front, List.map_cons, List.map_map,
      List.map_flatMap, List.map_nil, Function.comp_def]
  rw [names]
  exact view.distinct

theorem ViewSpec.IsAggregate.rowKeys_layout : spec.rowKeys (spec.layout count keys n counts sums) = keys := by
  have within : (spec.columns.map OutputColumn.aliasName).zip keys ⊆
      spec.layout count keys n counts sums := by
    intro p member
    exact List.mem_append_left _ (List.mem_append_left _ member)
  have read := Record.map_get_zip (view.layout_distinct length n counts sums)
    ((List.length_map _).trans length.symm) within
  rwa [List.map_map] at read

theorem ViewSpec.IsAggregate.layout_keys : spec.columns.map (fun c =>
      (c.aliasName, (spec.layout count keys n counts sums).get c.aliasName)) =
    (spec.columns.map OutputColumn.aliasName).zip keys := by
  have read := view.rowKeys_layout length n counts sums
  conv => rhs; rw [← read]
  rw [ViewSpec.rowKeys, List.zip_map']

theorem ViewSpec.IsAggregate.layout_count : (spec.layout count keys n counts sums).get count = n := by
  apply Record.get_of_mem (view.layout_distinct length n counts sums)
  simp only [ViewSpec.layout, List.mem_append, List.mem_cons, true_or, or_true]

theorem ViewSpec.IsAggregate.layout_counts {c : OutputColumn} (member : c ∈ spec.counts) :
    (spec.layout count keys n counts sums).get c.aliasName = counts c := by
  apply Record.get_of_mem (view.layout_distinct length n counts sums)
  apply List.mem_append_left
  apply List.mem_append_right
  exact List.mem_cons_of_mem _ (List.mem_map_of_mem (f := fun c => (c.aliasName, counts c)) member)

theorem ViewSpec.IsAggregate.layout_sum {su : SumSpec} (member : su ∈ spec.sums) :
    (spec.layout count keys n counts sums).get su.aliasName = (sums su).1 ∧
      (spec.layout count keys n counts sums).get su.counter = (sums su).2 := by
  constructor
  all_goals
    apply Record.get_of_mem (view.layout_distinct length n counts sums)
    apply List.mem_append_right
    refine List.mem_flatMap.mpr ⟨su, member, ?_⟩
    simp only [List.mem_cons, true_or, or_true]

theorem ViewSpec.IsAggregate.signedRow_layout (sign : Sign) :
    signedRow spec count sign (spec.layout count keys n counts sums) =
      spec.layout count keys (n.signed sign) (fun c => (counts c).signed sign)
        (fun su => ((sums su).1.signed sign, (sums su).2.signed sign)) := by
  have countColumns : spec.counts.map (fun c => (c.aliasName,
        ((spec.layout count keys n counts sums).get c.aliasName).signed sign)) =
      spec.counts.map fun c => (c.aliasName, (counts c).signed sign) := by
    apply List.map_congr_left
    intro c member
    rw [view.layout_counts length n counts sums member]
  have sumColumns : spec.sums.flatMap (fun su =>
        [(su.aliasName, ((spec.layout count keys n counts sums).get su.aliasName).signed sign),
          (su.counter, ((spec.layout count keys n counts sums).get su.counter).signed sign)]) =
      spec.sums.flatMap fun su =>
        [(su.aliasName, (sums su).1.signed sign), (su.counter, (sums su).2.signed sign)] := by
    apply List.flatMap_congr
    intro su member
    rw [(view.layout_sum length n counts sums member).1, (view.layout_sum length n counts sums member).2]
  simp only [signedRow, view.layout_keys length, view.layout_count length, countColumns, sumColumns]
  rfl

theorem ViewSpec.IsAggregate.mergeRow_layout (n' : Datum) (counts' : OutputColumn → Datum)
    (sums' : SumSpec → Datum × Datum) :
    mergeRow spec count (spec.layout count keys n counts sums) (spec.layout count keys n' counts' sums') =
      spec.layout count keys (n.add n') (fun c => (counts c).add (counts' c))
        (fun su => (mergeSum (sums su).1 (sums' su).1 (sums su).2 (sums' su).2,
          (sums su).2.add (sums' su).2)) := by
  have countColumns : spec.counts.map (fun c => (c.aliasName,
        ((spec.layout count keys n counts sums).get c.aliasName).add
          ((spec.layout count keys n' counts' sums').get c.aliasName))) =
      spec.counts.map fun c => (c.aliasName, (counts c).add (counts' c)) := by
    apply List.map_congr_left
    intro c member
    rw [view.layout_counts length n counts sums member, view.layout_counts length n' counts' sums' member]
  have sumColumns : spec.sums.flatMap (fun su =>
        [(su.aliasName, mergeSum ((spec.layout count keys n counts sums).get su.aliasName)
            ((spec.layout count keys n' counts' sums').get su.aliasName)
            ((spec.layout count keys n counts sums).get su.counter)
            ((spec.layout count keys n' counts' sums').get su.counter)),
          (su.counter, ((spec.layout count keys n counts sums).get su.counter).add
            ((spec.layout count keys n' counts' sums').get su.counter))]) =
      spec.sums.flatMap fun su =>
        [(su.aliasName, mergeSum (sums su).1 (sums' su).1 (sums su).2 (sums' su).2),
          (su.counter, (sums su).2.add (sums' su).2)] := by
    apply List.flatMap_congr
    intro su member
    rw [(view.layout_sum length n counts sums member).1, (view.layout_sum length n counts sums member).2,
      (view.layout_sum length n' counts' sums' member).1, (view.layout_sum length n' counts' sums' member).2]
  simp only [mergeRow, view.layout_keys length, view.layout_count length, countColumns, sumColumns]
  rfl

omit view length in
theorem ViewSpec.groupKeys_length (spec : ViewSpec) (ρ : Env) :
    (spec.groupKeys ρ).length = spec.columns.length := List.length_map _

omit length in
theorem ViewSpec.IsAggregate.aggregation :
    Aggregation spec.groupKeys spec.rowKeys spec.groupRow where
  perm := by
    intro keys ρs σs same
    have values : ∀ e : Env → Datum, sqlCount (ρs.map e) = sqlCount (σs.map e) := fun e =>
      sqlCount_perm (same.map e)
    have sums : ∀ e : Env → Datum, sqlSum (ρs.map e) = sqlSum (σs.map e) := fun e =>
      sqlSum_perm (same.map e)
    simp only [ViewSpec.groupRow, values, sums, same.length_eq]
  rowKey_agg := by
    intro ρ ρs
    rw [view.groupRow_eq]
    exact view.rowKeys_layout (spec.groupKeys_length ρ) _ _ _

omit length in
theorem ViewSpec.IsAggregate.groupRow_carried {ρ : Env} (groupable : spec.Groupable ρ) (ρs : List Env) :
    (spec.groupRow (spec.groupKeys ρ) ρs).Carried spec.tableColumns := by
  have count_carried : ∀ (name : String) (ds : List Datum),
      name = name ∧ (sqlCount ds).HasKind .numeric ∧ sqlCount ds ≠ .jsonNull := by
    intro name ds
    refine ⟨rfl, rfl, ?_⟩
    simp only [sqlCount, Datum.jsonNull, ne_eq, reduceCtorEq, not_false_eq_true]
  have sum_carried : ∀ (name : String) (ds : List Datum),
      name = name ∧ (sqlSum ds).HasKind .numeric ∧ sqlSum ds ≠ .jsonNull := by
    intro name ds
    rw [sqlSum_eq]
    split
    · exact ⟨rfl, trivial, by simp only [Datum.jsonNull, ne_eq, reduceCtorEq, not_false_eq_true]⟩
    · exact ⟨rfl, rfl, by simp only [Datum.jsonNull, ne_eq, reduceCtorEq, not_false_eq_true]⟩
  have sums_carried : ∀ sums : List SumSpec, List.Forall₂
      (fun c p => c.1 = p.1 ∧ p.2.HasKind c.2 ∧ p.2 ≠ .jsonNull)
      (sums.flatMap fun su => [(su.aliasName, Kind.numeric), (su.counter, Kind.numeric)])
      (sums.flatMap fun su => [(su.aliasName, sqlSum (ρs.map su.expr.eval)),
        (su.counter, sqlCount (ρs.map su.expr.eval))]) := by
    intro sums
    induction sums with
    | nil => exact .nil
    | cons su sums ih => exact .cons (sum_carried _ _) (.cons (count_carried _ _) ih)
  have head_carried : Datum.num (.fin ρs.length) ≠ .jsonNull := by
    simp only [Datum.jsonNull, ne_eq, reduceCtorEq, not_false_eq_true]
  rw [Record.Carried, view.tableColumns_eq, view.groupRow_eq]
  refine List.rel_append (List.rel_append ?_ (.cons ⟨rfl, rfl, head_carried⟩ ?_)) (sums_carried _)
  · rw [ViewSpec.groupKeys, List.zip_map', List.forall₂_map_left_iff, List.forall₂_map_right_iff]
    exact List.forall₂_same.mpr fun o member =>
      ⟨rfl, groupable.keyKind o member, groupable.keyKept o member⟩
  · rw [List.forall₂_map_left_iff, List.forall₂_map_right_iff]
    exact List.forall₂_same.mpr fun c _ => count_carried _ _

omit length in
theorem ViewSpec.IsAggregate.populate_groupRow {ρ : Env} (groupable : spec.Groupable ρ) (ρs : List Env) :
    populateRecord spec.tableColumns (spec.groupRow (spec.groupKeys ρ) ρs).toJsonb =
      some (spec.groupRow (spec.groupKeys ρ) ρs) :=
  populateRecord_toJsonb
    (view.groupRow_eq _ ρs ▸ view.layout_distinct (spec.groupKeys_length ρ) _ _ _)
    (view.groupRow_carried groupable ρs)

end GroupRow

section Contribution

variable {spec : ViewSpec} {count : String} (view : spec.IsAggregate count)
include view

theorem ViewSpec.IsAggregate.mergeRow_groupRow {keys : List Datum} (length : keys.length = spec.columns.length)
    {sign : Sign} {K A A' : List Env} (moves : Moves sign K A A')
    (exactK : ∀ ρ ∈ K, ∀ su ∈ spec.sums, (su.expr.eval ρ).Finite)
    (exactA : ∀ ρ ∈ A, ∀ su ∈ spec.sums, (su.expr.eval ρ).Finite) :
    mergeRow spec count (spec.groupRow keys A) (signedRow spec count sign (spec.groupRow keys K)) =
      spec.groupRow keys A' := by
  have exactA' : ∀ ρ ∈ A', ∀ su ∈ spec.sums, (su.expr.eval ρ).Finite := by
    intro ρ member
    rcases moves.mem member with inK | inA
    · exact exactK ρ inK
    · exact exactA ρ inA
  have counted : ∀ e : Env → Datum,
      (sqlCount (A.map e)).add ((sqlCount (K.map e)).signed sign) = sqlCount (A'.map e) := fun e =>
    sqlCount_moves (moves.map e)
  have finite : ∀ {B : List Env}, (∀ ρ ∈ B, ∀ su ∈ spec.sums, (su.expr.eval ρ).Finite) →
      ∀ su ∈ spec.sums, ∀ d ∈ B.map su.expr.eval, d.Finite := by
    intro B exact su member d within
    obtain ⟨ρ, inB, rfl⟩ := List.mem_map.mp within
    exact exact ρ inB su member
  have summed : ∀ su ∈ spec.sums,
      mergeSum (sqlSum (A.map su.expr.eval)) ((sqlSum (K.map su.expr.eval)).signed sign)
          (sqlCount (A.map su.expr.eval)) ((sqlCount (K.map su.expr.eval)).signed sign) =
        sqlSum (A'.map su.expr.eval) := by
    intro su member
    rw [sqlSum_exact (finite exactA su member), sqlSum_exact (finite exactK su member),
      sqlSum_exact (finite exactA' su member), sqlCount_exact (finite exactA su member),
      sqlCount_exact (finite exactK su member)]
    exact mergeSum_exact ((moves.map su.expr.eval).filterMap Datum.exact?)
  have size : (Datum.num (.fin A.length)).add ((Datum.num (.fin K.length)).signed sign) =
      .num (.fin A'.length) := by
    simp only [signed_fin, Datum.add, Numeric.add, moves.length]
  rw [view.groupRow_eq, view.groupRow_eq, view.groupRow_eq, view.signedRow_layout length,
    view.mergeRow_layout length, size]
  simp only [ViewSpec.layout, counted]
  congr 1
  apply List.flatMap_congr
  intro su member
  rw [summed su member]

theorem ViewSpec.IsAggregate.signedRow_plus {keys : List Datum} (length : keys.length = spec.columns.length)
    (K : List Env) : signedRow spec count .plus (spec.groupRow keys K) = spec.groupRow keys K := by
  have summed : ∀ ds : List Datum, (sqlSum ds).signed .plus = sqlSum ds := by
    intro ds
    rw [sqlSum_eq]
    split
    · rfl
    · rfl
  have counted : ∀ ds : List Datum, (sqlCount ds).signed .plus = sqlCount ds := fun _ => rfl
  rw [view.groupRow_eq, view.signedRow_layout length]
  simp only [summed, counted]
  rfl

/-- The rows of a stored group are positive in number, so the cleanup after an upsert
removes at most the row just merged. -/
theorem ViewSpec.IsAggregate.countExhausted_groupRow {keys : List Datum}
    (length : keys.length = spec.columns.length) (A : List Env) :
    countExhausted count (spec.groupRow keys A) = decide (A = []) := by
  have size : (A.length : ℚ) ≤ 0 ↔ A = [] := by
    rw [← List.length_eq_zero_iff, ← Nat.cast_zero, Nat.cast_le, Nat.le_zero]
  rw [countExhausted, view.groupRow_eq, view.layout_count length]
  simp only [size]

theorem ViewSpec.IsAggregate.cleanup {M : List Env} {storage : List Record}
    (grouped : Grouped spec.groupKeys spec.rowKeys spec.groupRow M storage) {keys : List Datum} {newRow : Record}
    (exhausted : countExhausted count newRow = true) :
    ((storage.map fun w => if spec.rowKeys w = keys then newRow else w).filter
        fun w => !countExhausted count w) = storage.filter fun w => !decide (spec.rowKeys w = keys) := by
  have kept : ∀ w ∈ storage, countExhausted count w = false := by
    intro w within
    obtain ⟨ρ, member, rfl⟩ := (grouped.mem_iff w).mp within
    rw [view.countExhausted_groupRow (spec.groupKeys_length ρ), decide_eq_false_iff_not]
    exact List.ne_nil_of_mem (mem_group.mpr ⟨member, rfl⟩)
  clear grouped
  induction storage with
  | nil => rfl
  | cons w storage ih =>
      have rest := ih fun v within => kept v (List.mem_cons_of_mem _ within)
      have head := kept w List.mem_cons_self
      by_cases same : spec.rowKeys w = keys
      · simp only [List.map_cons, same, if_true, List.filter_cons, exhausted, Bool.not_true, Bool.false_eq_true,
          if_false, decide_true, rest]
      · simp only [List.map_cons, same, if_false, List.filter_cons, head, Bool.not_false, if_true, decide_false,
          rest]

/-- `aggregate_row` on the contribution of one group: the table stays the aggregate
of the rows. -/
theorem ViewSpec.IsAggregate.aggregateRow_group {sign : Sign} {K M M' : List Env} {storage : List Record}
    (grouped : Grouped spec.groupKeys spec.rowKeys spec.groupRow M storage) {ρ : Env} (present : ρ ∈ K)
    (all : ∀ σ ∈ K, spec.groupKeys σ = spec.groupKeys ρ) (moves : Moves sign K M M')
    (groupableK : ∀ σ ∈ K, spec.Groupable σ) (groupableM : ∀ σ ∈ M, spec.Groupable σ) :
    ∃ storage' deltas,
      aggregateRow spec sign (spec.groupRow (spec.groupKeys ρ) K).toJsonb storage = .ok (storage', deltas) ∧
      Grouped spec.groupKeys spec.rowKeys spec.groupRow M' storage' := by
  have length := spec.groupKeys_length ρ
  have law := view.aggregation
  have agree := moves.agreeOff all
  have inner : Moves sign K (group spec.groupKeys (spec.groupKeys ρ) M)
      (group spec.groupKeys (spec.groupKeys ρ) M') := by
    have restricted := moves.filter fun σ => decide (spec.groupKeys σ = spec.groupKeys ρ)
    rwa [show K.filter (fun σ => decide (spec.groupKeys σ = spec.groupKeys ρ)) = K from group_eq_self all]
      at restricted
  have srcKeys : spec.rowKeys (spec.groupRow (spec.groupKeys ρ) K) = spec.groupKeys ρ := law.rowKey_agg ρ K
  have populated := view.populate_groupRow (groupableK ρ present) K
  simp only [aggregateRow, view.countAlias, populated, sameGroup_eq, srcKeys]
  by_cases stored : ∃ σ ∈ M, spec.groupKeys σ = spec.groupKeys ρ
  · obtain ⟨σ, member, sameKey⟩ := stored
    have previous := grouped.filter_of_mem law member
    rw [sameKey] at previous
    have merged := view.mergeRow_groupRow length inner
      (fun τ inK => (groupableK τ inK).exact)
      (fun τ inM => (groupableM τ (mem_group.mp inM).1).exact)
    have newCount : (spec.groupRow (spec.groupKeys ρ) (group spec.groupKeys (spec.groupKeys ρ) M')).get count =
        .num (.fin (group spec.groupKeys (spec.groupKeys ρ) M').length) := by
      rw [view.groupRow_eq]
      exact view.layout_count length _ _ _
    simp only [previous, merged, newCount, decide_eq_true_eq]
    by_cases last : group spec.groupKeys (spec.groupKeys ρ) M' = []
    · have exhausted := view.countExhausted_groupRow length (group spec.groupKeys (spec.groupKeys ρ) M')
      rw [decide_eq_true last] at exhausted
      rw [if_neg (by rw [last, List.length_nil, Nat.cast_zero]; exact lt_irrefl _),
        view.cleanup grouped exhausted]
      exact ⟨_, _, rfl, grouped.remove law agree (group_eq_nil.mp last)⟩
    · obtain ⟨τ, inner⟩ := List.exists_mem_of_ne_nil _ last
      rw [if_pos (Nat.cast_pos.mpr (List.length_pos_of_ne_nil last))]
      exact ⟨_, _, rfl, grouped.replace law member sameKey agree (mem_group.mp inner).1 (mem_group.mp inner).2⟩
  · have absent : ∀ σ ∈ M, spec.groupKeys σ ≠ spec.groupKeys ρ := by
      intro σ member same
      exact stored ⟨σ, member, same⟩
    rw [group_eq_nil.mpr absent] at inner
    obtain ⟨rfl, added⟩ := inner.onto_nil (List.ne_nil_of_mem present)
    have newCount : (spec.groupRow (spec.groupKeys ρ) K).get count = .num (.fin K.length) := by
      rw [view.groupRow_eq]
      exact view.layout_count length _ _ _
    have within := mem_group.mp (added.mem_iff.mpr present)
    simp only [grouped.filter_of_absent law absent, view.signedRow_plus length, newCount]
    rw [if_pos (Nat.cast_pos.mpr (List.length_pos_of_mem present)), ← law.perm _ _ _ added]
    exact ⟨_, _, rfl, grouped.insert law absent agree within.1 within.2⟩

end Contribution

theorem Moves.split {α : Type} {sign : Sign} {K K₁ K₂ M M' : List α} (moves : Moves sign K M M')
    (parts : K.Perm (K₁ ++ K₂)) : ∃ N, Moves sign K₁ M N ∧ Moves sign K₂ N M' := by
  cases sign with
  | plus =>
      refine ⟨K₁ ++ M, List.Perm.refl _, ?_⟩
      have joined := List.Perm.trans moves (parts.append_right M)
      rw [List.append_assoc] at joined
      exact joined.trans (List.perm_append_comm_assoc K₁ K₂ M)
  | minus =>
      refine ⟨K₂ ++ M', ?_, List.Perm.refl _⟩
      have joined := List.Perm.trans moves (parts.append_right M')
      rwa [List.append_assoc] at joined

theorem execute_append (pf : Platform) (spec : ViewSpec) (storage : List Record) (ops more : List Op) :
    execute pf spec storage (ops ++ more) =
      match execute pf spec storage ops with
      | .error e => .error e
      | .ok (storage', deltas) =>
        (execute pf spec storage' more).map fun r => (r.1, deltas ++ r.2) := by
  induction ops generalizing storage with
  | nil =>
      simp only [List.nil_append, execute]
      cases execute pf spec storage more <;> rfl
  | cons op ops ih =>
      simp only [List.cons_append, execute]
      cases executeOp pf spec storage op with
      | error e => rfl
      | ok r =>
          obtain ⟨storage', deltas⟩ := r
          simp only [ih]
          cases execute pf spec storage' ops with
          | error e => rfl
          | ok q =>
              obtain ⟨storage'', moreDeltas⟩ := q
              simp only [Except.map]
              cases execute pf spec storage'' more with
              | error e => rfl
              | ok t => simp only [List.append_assoc]

/-- The planned rows of the contribution of a bag (`delta_rows`). -/
def ViewSpec.contributionOps (spec : ViewSpec) (sign : Sign) (K : List Env) : List Op :=
  (spec.groupRows K).map fun r => .row sign r.toJsonb

/-- Operations that each move the rows of one group, taking the bag `M₀` to `M`. -/
inductive GroupMoves (spec : ViewSpec) (M₀ : List Env) : List Op → List Env → Prop where
  | start {M : List Env} (same : M₀.Perm M) : GroupMoves spec M₀ [] M
  | move {ops : List Op} {sign : Sign} {K M M' : List Env} {ρ : Env} (before : GroupMoves spec M₀ ops M)
      (present : ρ ∈ K) (all : ∀ σ ∈ K, spec.groupKeys σ = spec.groupKeys ρ)
      (groupable : ∀ σ ∈ K, spec.Groupable σ) (moves : Moves sign K M M') :
      GroupMoves spec M₀ (ops ++ [.row sign (spec.groupRow (spec.groupKeys ρ) K).toJsonb]) M'

theorem Moves.perm {α : Type} {sign : Sign} {K M M' N : List α} (moves : Moves sign K M M')
    (same : M'.Perm N) : Moves sign K M N := by
  cases sign with
  | plus => exact same.symm.trans moves
  | minus => exact List.Perm.trans moves (same.append_left K)

theorem GroupMoves.perm {spec : ViewSpec} {M₀ : List Env} {ops : List Op} {M M' : List Env}
    (moved : GroupMoves spec M₀ ops M) (same : M.Perm M') : GroupMoves spec M₀ ops M' := by
  cases moved with
  | start before => exact .start (before.trans same)
  | move before present all groupable moves => exact before.move present all groupable (moves.perm same)

/-- Every prefix of such operations is one. -/
theorem GroupMoves.take {spec : ViewSpec} {M₀ : List Env} {ops : List Op} {M : List Env}
    (moved : GroupMoves spec M₀ ops M) (n : Nat) : ∃ N, GroupMoves spec M₀ (ops.take n) N := by
  induction moved with
  | @start M same => exact ⟨M, by rw [List.take_nil]; exact .start same⟩
  | @move ops sign K M M' ρ before present all groupable moves ih =>
      by_cases within : n ≤ ops.length
      · rw [List.take_append_of_le_length within]
        exact ih
      · rw [List.take_of_length_le]
        · exact ⟨M', before.move present all groupable moves⟩
        · rw [List.length_append, List.length_singleton]
          omega

theorem filter_or_perm {α : Type} {p q r : α → Bool} (either : ∀ x, p x = (q x || r x))
    (exclusive : ∀ x, q x = true → r x = true → False) (xs : List α) :
    (xs.filter p).Perm (xs.filter q ++ xs.filter r) := by
  induction xs with
  | nil => exact List.Perm.refl _
  | cons x xs ih =>
      simp only [List.filter_cons, either x]
      cases left : q x with
      | true =>
          cases right : r x with
          | true => exact (exclusive x left right).elim
          | false => simpa only [Bool.true_or, if_true, Bool.false_eq_true, if_false, List.cons_append] using ih.cons x
      | false =>
          cases right : r x with
          | true =>
              simp only [Bool.false_or, if_true, Bool.false_eq_true, if_false]
              exact (ih.cons x).trans List.perm_middle.symm
          | false => simpa only [Bool.false_or, Bool.false_eq_true, if_false] using ih

section Histories

variable {spec : ViewSpec} {count : String} (view : spec.IsAggregate count)
include view

theorem ViewSpec.IsAggregate.execute_moves (pf : Platform) {M₀ M : List Env} {ops : List Op}
    {storage : List Record} (grouped : Grouped spec.groupKeys spec.rowKeys spec.groupRow M₀ storage)
    (groupable : ∀ ρ ∈ M₀, spec.Groupable ρ) (moved : GroupMoves spec M₀ ops M) :
    (∀ ρ ∈ M, spec.Groupable ρ) ∧ ∃ storage' deltas, execute pf spec storage ops = .ok (storage', deltas) ∧
      Grouped spec.groupKeys spec.rowKeys spec.groupRow M storage' := by
  induction moved with
  | start same =>
      exact ⟨fun ρ member => groupable ρ (same.mem_iff.mpr member), storage, [], rfl,
        grouped.perm_bag view.aggregation same⟩
  | @move ops sign K M M' ρ before present all groupableK moves ih =>
      obtain ⟨groupableM, storage', deltas, executed, grouped'⟩ := ih
      constructor
      · intro σ member
        rcases moves.mem member with inK | inM
        · exact groupableK σ inK
        · exact groupableM σ inM
      · obtain ⟨storage'', more, merged, grouped''⟩ :=
          view.aggregateRow_group grouped' present all moves groupableK groupableM
        refine ⟨storage'', deltas ++ (more ++ []), ?_, grouped''⟩
        rw [execute_append, executed]
        simp only [execute, executeOp, view.shape, merged, Except.map]

omit view in
/-- A contribution moves its groups one after the other. -/
theorem GroupMoves.contribution {M₀ M M' : List Env} {ops : List Op} {sign : Sign} {K : List Env}
    (before : GroupMoves spec M₀ ops M) (groupable : ∀ σ ∈ K, spec.Groupable σ) (moves : Moves sign K M M') :
    GroupMoves spec M₀ (ops ++ spec.contributionOps sign K) M' := by
  -- the induction is on the keys still to be moved, with the bag of their rows
  have keyed : ∀ (keys : List (List Datum)) (ops : List Op) (N : List Env), keys.Nodup →
      (∀ k ∈ keys, k ∈ K.map spec.groupKeys) →
      Moves sign (K.filter fun σ => decide (spec.groupKeys σ ∈ keys)) N M' → GroupMoves spec M₀ ops N →
      GroupMoves spec M₀ (ops ++ keys.map fun k =>
        .row sign (spec.groupRow k (group spec.groupKeys k K)).toJsonb) M' := by
    intro keys
    induction keys with
    | nil =>
        intro ops N _ _ moves before
        have none : K.filter (fun σ => decide (spec.groupKeys σ ∈ ([] : List (List Datum)))) = [] := by
          apply List.filter_eq_nil_iff.mpr
          intro σ _
          simp only [List.not_mem_nil, decide_false, Bool.false_eq_true, not_false_eq_true]
        rw [none] at moves
        rw [List.map_nil, List.append_nil]
        exact before.perm moves.of_nil
    | cons k keys ih =>
        intro ops N distinct within moves before
        obtain ⟨absent, distinctRest⟩ := List.nodup_cons.mp distinct
        obtain ⟨ρ, member, rfl⟩ := List.mem_map.mp (within k List.mem_cons_self)
        have parts : (K.filter fun σ => decide (spec.groupKeys σ ∈ spec.groupKeys ρ :: keys)).Perm
            (group spec.groupKeys (spec.groupKeys ρ) K ++
              K.filter fun σ => decide (spec.groupKeys σ ∈ keys)) := by
          apply filter_or_perm
          · intro σ
            simp only [List.mem_cons, Bool.decide_or]
          · rintro σ same listed
            rw [decide_eq_true_eq] at same listed
            exact absent (same ▸ listed)
        obtain ⟨N', first, rest⟩ := moves.split parts
        have next := before.move (mem_group.mpr ⟨member, rfl⟩) (fun σ inGroup => (mem_group.mp inGroup).2)
          (fun σ inGroup => groupable σ (mem_group.mp inGroup).1) first
        have done := ih _ N' distinctRest (fun k' listed => within k' (List.mem_cons_of_mem _ listed)) rest next
        rwa [List.append_assoc] at done
  have everything : K.filter (fun σ => decide (spec.groupKeys σ ∈ (K.map spec.groupKeys).dedup)) = K := by
    apply List.filter_eq_self.mpr
    intro σ member
    exact decide_eq_true (List.mem_dedup.mpr (List.mem_map_of_mem member))
  have moved := keyed (K.map spec.groupKeys).dedup ops M (List.nodup_dedup _)
    (fun k listed => List.mem_dedup.mp listed) (by rwa [everything]) before
  rwa [ViewSpec.contributionOps, ViewSpec.groupRows, List.map_map]

end Histories

/-- Contributions, added or removed, and the rows they leave; only rows that are
present are removed. -/
inductive Contributed : List (Sign × List Env) → List Env → Prop where
  | start : Contributed [] []
  | contribute {history : List (Sign × List Env)} {sign : Sign} {K M M' : List Env}
      (before : Contributed history M) (moves : Moves sign K M M') :
      Contributed (history ++ [(sign, K)]) M'

def ViewSpec.historyOps (spec : ViewSpec) (history : List (Sign × List Env)) : List Op :=
  history.flatMap fun c => spec.contributionOps c.1 c.2

/-- The rows of `M` a stored row stands for. -/
def ViewSpec.rowsOf (spec : ViewSpec) (M : List Env) (row : Record) : List Env :=
  group spec.groupKeys (spec.rowKeys row) M

/-- `table` is the aggregate of the rows `M`. -/
structure ViewSpec.Aggregates (spec : ViewSpec) (count : String) (M : List Env) (table : List Record) :
    Prop where
  distinct : (table.map spec.rowKeys).Nodup
  row_iff : ∀ keys, (∃ row ∈ table, spec.rowKeys row = keys) ↔ ∃ ρ ∈ M, spec.groupKeys ρ = keys
  count_eq : ∀ row ∈ table, row.get count = .num (.fin (spec.rowsOf M row).length)
  counts_eq : ∀ row ∈ table, ∀ c ∈ spec.counts, row.get c.aliasName =
    .num (.fin (((spec.rowsOf M row).map c.expr.eval).filter (· != .null)).length)
  counter_eq : ∀ row ∈ table, ∀ su ∈ spec.sums, row.get su.counter =
    .num (.fin (((spec.rowsOf M row).map su.expr.eval).filter (· != .null)).length)
  sum_null : ∀ row ∈ table, ∀ su ∈ spec.sums, row.get su.aliasName = .null ↔
    row.get su.counter = .num (.fin 0)
  sum_eq : ∀ row ∈ table, ∀ su ∈ spec.sums, row.get su.aliasName ≠ .null →
    row.get su.aliasName = .num (.fin (exacts ((spec.rowsOf M row).map su.expr.eval)).sum)

section Totals

variable {spec : ViewSpec} {count : String} (view : spec.IsAggregate count)
include view

theorem ViewSpec.IsAggregate.aggregates {M : List Env} {table : List Record}
    (grouped : Grouped spec.groupKeys spec.rowKeys spec.groupRow M table)
    (groupable : ∀ ρ ∈ M, spec.Groupable ρ) : spec.Aggregates count M table := by
  have law := view.aggregation
  have stored : ∀ row ∈ table, ∃ ρ ∈ M, spec.rowKeys row = spec.groupKeys ρ ∧
      row = spec.layout count (spec.groupKeys ρ) (.num (.fin (spec.rowsOf M row).length))
        (fun c => sqlCount ((spec.rowsOf M row).map c.expr.eval))
        (fun su => (sqlSum ((spec.rowsOf M row).map su.expr.eval),
          sqlCount ((spec.rowsOf M row).map su.expr.eval))) := by
    intro row within
    obtain ⟨ρ, member, rfl⟩ := (grouped.mem_iff row).mp within
    have keys := law.rowKey_agg ρ (group spec.groupKeys (spec.groupKeys ρ) M)
    refine ⟨ρ, member, keys, ?_⟩
    rw [ViewSpec.rowsOf, keys, ← view.groupRow_eq]
  have finite : ∀ row, ∀ su ∈ spec.sums, ∀ d ∈ (spec.rowsOf M row).map su.expr.eval, d.Finite := by
    intro row su member d within
    obtain ⟨ρ, inRows, rfl⟩ := List.mem_map.mp within
    exact (groupable ρ (mem_group.mp inRows).1).exact su member
  have sums : ∀ row ∈ table, ∀ su ∈ spec.sums,
      row.get su.aliasName = exactSum (exacts ((spec.rowsOf M row).map su.expr.eval)) ∧
      row.get su.counter = .num (.fin (exacts ((spec.rowsOf M row).map su.expr.eval)).length) := by
    intro row within su member
    obtain ⟨ρ, _, _, eq⟩ := stored row within
    rw [← sqlSum_exact (finite row su member), ← sqlCount_exact (finite row su member)]
    have read := view.layout_sum (spec.groupKeys_length ρ) (.num (.fin (spec.rowsOf M row).length))
      (fun c => sqlCount ((spec.rowsOf M row).map c.expr.eval))
      (fun su => (sqlSum ((spec.rowsOf M row).map su.expr.eval),
        sqlCount ((spec.rowsOf M row).map su.expr.eval))) member
    rwa [← eq] at read
  refine ⟨grouped.keyed, ?_, ?_, ?_, ?_, ?_, ?_⟩
  · intro keys
    constructor
    · rintro ⟨row, within, rfl⟩
      obtain ⟨ρ, member, same, _⟩ := stored row within
      exact ⟨ρ, member, same.symm⟩
    · rintro ⟨ρ, member, rfl⟩
      exact ⟨_, (grouped.mem_iff _).mpr ⟨ρ, member, rfl⟩, law.rowKey_agg ρ _⟩
  · intro row within
    obtain ⟨ρ, _, _, eq⟩ := stored row within
    have read := view.layout_count (spec.groupKeys_length ρ) (.num (.fin (spec.rowsOf M row).length))
      (fun c => sqlCount ((spec.rowsOf M row).map c.expr.eval))
      (fun su => (sqlSum ((spec.rowsOf M row).map su.expr.eval),
        sqlCount ((spec.rowsOf M row).map su.expr.eval)))
    rwa [← eq] at read
  · intro row within c member
    obtain ⟨ρ, _, _, eq⟩ := stored row within
    have read := view.layout_counts (spec.groupKeys_length ρ) (.num (.fin (spec.rowsOf M row).length))
      (fun c => sqlCount ((spec.rowsOf M row).map c.expr.eval))
      (fun su => (sqlSum ((spec.rowsOf M row).map su.expr.eval),
        sqlCount ((spec.rowsOf M row).map su.expr.eval))) member
    rwa [← eq] at read
  · intro row within su member
    rw [(sums row within su member).2, ← sqlCount_exact (finite row su member)]
    rfl
  · intro row within su member
    rw [(sums row within su member).1, (sums row within su member).2, exactSum]
    simp only [Datum.num.injEq, Numeric.fin.injEq, Nat.cast_eq_zero, List.length_eq_zero_iff]
    split
    · rename_i none
      simp only [none]
    · rename_i some
      simp only [some, reduceCtorEq]
  · intro row within su member notNull
    rw [(sums row within su member).1, exactSum] at notNull ⊢
    split
    · rename_i none
      rw [if_pos none] at notNull
      exact absurd rfl notNull
    · rfl

omit view in
theorem Contributed.moves {history : List (Sign × List Env)} {M : List Env}
    (contributed : Contributed history M) (groupable : ∀ c ∈ history, ∀ ρ ∈ c.2, spec.Groupable ρ) :
    GroupMoves spec [] (spec.historyOps history) M := by
  induction contributed with
  | start => exact .start (List.Perm.refl _)
  | @contribute history sign K M M' before moves ih =>
      have earlier := ih fun c member => groupable c (List.mem_append_left _ member)
      have moved := earlier.contribution
        (groupable (sign, K) (List.mem_append_right _ List.mem_cons_self)) moves
      rwa [ViewSpec.historyOps, List.flatMap_append, List.flatMap_singleton]

theorem ViewSpec.IsAggregate.count_pos {M : List Env} {table : List Record}
    (grouped : Grouped spec.groupKeys spec.rowKeys spec.groupRow M table) {row : Record} (within : row ∈ table) :
    ∃ q : ℚ, row.get count = .num (.fin q) ∧ 0 < q := by
  obtain ⟨ρ, member, rfl⟩ := (grouped.mem_iff row).mp within
  refine ⟨(group spec.groupKeys (spec.groupKeys ρ) M).length, ?_, ?_⟩
  · rw [view.groupRow_eq]
    exact view.layout_count (spec.groupKeys_length ρ) _ _ _
  · exact Nat.cast_pos.mpr (List.length_pos_of_mem (mem_group.mpr ⟨member, rfl⟩))

omit view in
theorem Datum.signed_ne (sign : Sign) (d : Datum) : d.signed sign ≠ .jsonNull := by
  cases d <;> exact Datum.noConfusion

omit view in
theorem Datum.add_ne (a b : Datum) : a.add b ≠ .jsonNull := by
  unfold Datum.add
  split <;> exact Datum.noConfusion

omit view in
theorem signedRow_kept {sign : Sign} {src : Record} (kept : ∀ p ∈ src, p.2 ≠ .jsonNull) : ∀ p ∈ signedRow spec count sign src, p.2 ≠ .jsonNull := by
  intro p member
  simp only [signedRow, List.mem_append, List.mem_cons, List.mem_map, List.mem_flatMap, List.not_mem_nil, or_false] at member
  rcases member with (⟨c, _, rfl⟩ | rfl | ⟨c, _, rfl⟩) | ⟨su, _, rfl | rfl⟩
  · exact Record.get_ne kept _
  all_goals exact Datum.signed_ne sign _

omit view in
theorem mergeRow_kept {v excluded : Record} (kept : ∀ p ∈ v, p.2 ≠ .jsonNull) (kept' : ∀ p ∈ excluded, p.2 ≠ .jsonNull) :
    ∀ p ∈ mergeRow spec count v excluded, p.2 ≠ .jsonNull := by
  intro p member
  simp only [mergeRow, List.mem_append, List.mem_cons, List.mem_map, List.mem_flatMap, List.not_mem_nil, or_false] at member
  rcases member with (⟨c, _, rfl⟩ | rfl | ⟨c, _, rfl⟩) | ⟨su, _, rfl | rfl⟩
  · exact Record.get_ne kept _
  · exact Datum.add_ne _ _
  · exact Datum.add_ne _ _
  · dsimp only
    unfold mergeSum
    split_ifs
    · exact Datum.noConfusion
    · exact Record.get_ne kept _
    · exact Record.get_ne kept' _
    · exact Datum.add_ne _ _
  · exact Datum.add_ne _ _

omit view in
/-- Whatever the new count is, `aggregate_row` leaves rows of the table it has written to. -/
theorem written_subset {row : Record} {count : String} {upserted storage' : List Record} {removed deltas : List Delta}
    (done : (match row.get count with
      | .num (.fin newCount) =>
        if 0 < newCount then .ok (upserted, removed ++ [⟨.I, row.toJsonb⟩])
        else .ok (upserted.filter fun w => !countExhausted count w, removed)
      | .null => .ok (upserted, [])
      | _ => .error "bad count") = Except.ok (ε := String) (storage', deltas)) : storage' ⊆ upserted := by
  split at done
  · split at done
    · obtain ⟨rfl, _⟩ := Prod.mk.inj (Except.ok.inj done)
      exact List.Subset.refl _
    · obtain ⟨rfl, _⟩ := Prod.mk.inj (Except.ok.inj done)
      exact List.filter_sublist.subset
  · obtain ⟨rfl, _⟩ := Prod.mk.inj (Except.ok.inj done)
    exact List.Subset.refl _
  · cases done

omit view in
theorem aggregateRow_kept {sign : Sign} {j : Json} {storage storage' : List Record} {deltas : List Delta}
    (kept : ∀ row ∈ storage, ∀ p ∈ row, p.2 ≠ .jsonNull) (applied : aggregateRow spec sign j storage = .ok (storage', deltas)) :
    ∀ row ∈ storage', ∀ p ∈ row, p.2 ≠ .jsonNull := by
  unfold aggregateRow at applied
  cases known : spec.countAlias with
  | none => simp only [known, reduceCtorEq] at applied
  | some count =>
      cases read : populateRecord spec.tableColumns j with
      | none => simp only [known, read, reduceCtorEq] at applied
      | some src =>
          have signed := @signedRow_kept spec count sign src (populateRecord_some read).2
          cases previous : storage.filter (sameGroup spec · src) with
          | nil =>
              simp only [known, read, previous] at applied
              have rows : ∀ row ∈ storage ++ [signedRow spec count sign src], ∀ p ∈ row, p.2 ≠ .jsonNull := by
                intro row member
                rcases List.mem_append.mp member with before | last
                · exact kept row before
                · exact List.mem_singleton.mp last ▸ signed
              exact fun row member => rows row (written_subset applied member)
          | cons v others =>
              simp only [known, read, previous] at applied
              have before : v ∈ storage := List.mem_of_mem_filter (previous ▸ List.mem_cons_self)
              have merged := @mergeRow_kept spec count v _ (kept v before) signed
              have rows : ∀ row ∈ storage.map fun w => if sameGroup spec w src then mergeRow spec count v (signedRow spec count sign src) else w,
                  ∀ p ∈ row, p.2 ≠ .jsonNull := by
                intro row member
                obtain ⟨w, present, rfl⟩ := List.mem_map.mp member
                split
                · exact merged
                · exact kept w present
              exact fun row member => rows row (written_subset applied member)

theorem ViewSpec.IsAggregate.execute_kept {pf : Platform} {ops : List Op} {storage table : List Record} {deltas : List Delta}
    (kept : ∀ row ∈ storage, ∀ p ∈ row, p.2 ≠ .jsonNull) (executed : execute pf spec storage ops = .ok (table, deltas)) :
    ∀ row ∈ table, ∀ p ∈ row, p.2 ≠ .jsonNull := by
  induction ops generalizing storage deltas with
  | nil =>
      obtain ⟨rfl, _⟩ := Prod.mk.inj (Except.ok.inj executed)
      exact kept
  | cons op ops ih =>
      rw [execute] at executed
      cases one : executeOp pf spec storage op with
      | error message => simp only [one, reduceCtorEq] at executed
      | ok first =>
          obtain ⟨storage', head⟩ := first
          simp only [one] at executed
          cases rest : execute pf spec storage' ops with
          | error message => simp only [rest, Except.map, reduceCtorEq] at executed
          | ok last =>
              simp only [rest, Except.map, Except.ok.injEq, Prod.mk.injEq] at executed
              obtain ⟨rfl, _⟩ := executed
              refine ih ?_ rest
              cases op with
              | deleteByKey conds values =>
                  rw [executeOp] at one
                  cases keys : keyDatums pf conds values with
                  | error message => simp only [keys, Except.map, reduceCtorEq] at one
                  | ok key =>
                      simp only [keys, Except.map, Except.ok.injEq, Prod.mk.injEq] at one
                      obtain ⟨rfl, _⟩ := one
                      exact fun row member => kept row (List.mem_of_mem_filter member)
              | row sign j =>
                  simp only [executeOp, view.shape] at one
                  exact aggregateRow_kept kept one

omit view in
/-- A row that was contributed was present after some part of the history. -/
theorem Contributed.present {history : List (Sign × List Env)} {M : List Env} (contributed : Contributed history M) {c : Sign × List Env}
    (member : c ∈ history) {ρ : Env} (inside : ρ ∈ c.2) : ∃ earlier later N, history = earlier ++ later ∧ Contributed earlier N ∧ ρ ∈ N := by
  induction contributed with
  | start => exact absurd member List.not_mem_nil
  | @contribute history sign K M M' before moves ih =>
      rcases List.mem_append.mp member with old | new
      · obtain ⟨earlier, later, N, rfl, contributed, present⟩ := ih old
        exact ⟨earlier, later ++ [(sign, K)], N, List.append_assoc _ _ _, contributed, present⟩
      · obtain rfl := List.mem_singleton.mp new
        cases sign with
        | plus => exact ⟨_, [], M', (List.append_nil _).symm, before.contribute moves, (List.Perm.mem_iff moves).mpr (List.mem_append_left _ inside)⟩
        | minus => exact ⟨history, _, M, rfl, before, (List.Perm.mem_iff moves).mpr (List.mem_append_left _ inside)⟩

/-- The table `aggregate_row` maintains over a history is the aggregate of the current rows
after every contribution, and no operation leaves a row whose count is not positive. -/
structure ViewSpec.Maintained (spec : ViewSpec) (pf : Platform) (count : String) (history : List (Sign × List Env)) : Prop where
  aggregate : ∀ earlier later, history = earlier ++ later → ∀ N, Contributed earlier N →
    ∃ table deltas, execute pf spec [] (spec.historyOps earlier) = .ok (table, deltas) ∧ spec.Aggregates count N table
  positive : ∀ n, ∃ table deltas, execute pf spec [] ((spec.historyOps history).take n) = .ok (table, deltas) ∧
    ∀ row ∈ table, ∃ q : ℚ, row.get count = .num (.fin q) ∧ 0 < q

/-- Over a history of typed rows with exact arguments the table is maintained exactly when
no group key is the JSON null. -/
theorem ViewSpec.IsAggregate.maintained_iff (pf : Platform) {history : List (Sign × List Env)} {M : List Env}
    (contributed : Contributed history M) (typed : ∀ c ∈ history, ∀ ρ ∈ c.2, ∀ o ∈ spec.columns, (o.expr.eval ρ).HasKind o.expr.kind)
    (exact : ∀ c ∈ history, ∀ ρ ∈ c.2, ∀ su ∈ spec.sums, (su.expr.eval ρ).Finite) :
    spec.Maintained pf count history ↔ ∀ c ∈ history, ∀ ρ ∈ c.2, ∀ o ∈ spec.columns, o.expr.eval ρ ≠ .jsonNull := by
  constructor
  · intro maintained c member ρ inside o output null
    obtain ⟨earlier, later, N, split, before, present⟩ := contributed.present member inside
    obtain ⟨table, deltas, executed, aggregates⟩ := maintained.aggregate earlier later split N before
    obtain ⟨row, stored, keys⟩ := (aggregates.row_iff (spec.groupKeys ρ)).mpr ⟨ρ, present, rfl⟩
    have kept := view.execute_kept (fun row member => absurd member List.not_mem_nil) executed row stored
    exact Record.get_ne kept o.aliasName ((List.map_inj_left.mp keys o output).trans null)
  · intro kept
    have groupable : ∀ c ∈ history, ∀ ρ ∈ c.2, spec.Groupable ρ := fun c member ρ inside =>
      ⟨typed c member ρ inside, kept c member ρ inside, exact c member ρ inside⟩
    have empty : ∀ ρ ∈ ([] : List Env), spec.Groupable ρ := fun ρ member => absurd member List.not_mem_nil
    constructor
    · rintro earlier later rfl N before
      have moved := before.moves fun c member => groupable c (List.mem_append_left _ member)
      obtain ⟨groupableN, table, deltas, executed, grouped⟩ := view.execute_moves pf Grouped.nil empty moved
      exact ⟨table, deltas, executed, view.aggregates grouped groupableN⟩
    · intro n
      obtain ⟨N, partway⟩ := (contributed.moves groupable).take n
      obtain ⟨_, table, deltas, executed, grouped⟩ := view.execute_moves pf Grouped.nil empty partway
      exact ⟨table, deltas, executed, fun row within => view.count_pos grouped within⟩

end Totals

/-- `SELECT a, count(*), sum(x) FROM t GROUP BY a`. -/
def totalsSpec : ViewSpec where
  shape := .aggregate
  predicate := none
  columns := [⟨.column 0 "a" .numeric, "a"⟩]
  pkColumns := ["id"]
  pkViewColumns := []
  countAlias := some "n"
  counts := []
  sums := [⟨.column 0 "x" .numeric, "total", "nabla_total_nn"⟩]
  relations := [⟨1, 1, "public.t", ["id"], ["id", "a", "x"], ["bigint", "bigint", "bigint"], []⟩]
  selectList := []
  hiddenColumns := ["nabla_total_nn"]

/-- One row of `t`: `a` is 1. -/
def totalsRow (x : Datum) : Env := fun _ name => if name = "a" then .num (.fin 1) else x

/-- Two rows of one group arrive, and the only one with an argument leaves. -/
theorem totalsSpec_maintained : totalsSpec.Maintained .basic "n"
    [(.plus, [totalsRow (.num (.fin 5)), totalsRow .null]), (.minus, [totalsRow (.num (.fin 5))])] := by
  have arrived : Contributed ([] ++ [(Sign.plus, [totalsRow (.num (.fin 5)), totalsRow .null])])
      [totalsRow (.num (.fin 5)), totalsRow .null] := Contributed.start.contribute (List.Perm.refl _)
  have left : Contributed (([] ++ [(Sign.plus, [totalsRow (.num (.fin 5)), totalsRow .null])]) ++
      [(Sign.minus, [totalsRow (.num (.fin 5))])]) [totalsRow .null] := arrived.contribute (List.Perm.refl _)
  have view : totalsSpec.IsAggregate "n" := ⟨rfl, rfl, by decide⟩
  have rows : ∀ c ∈ [(Sign.plus, [totalsRow (.num (.fin 5)), totalsRow .null]), (.minus, [totalsRow (.num (.fin 5))])],
      ∀ ρ ∈ c.2, ∃ x : Datum, x.Finite ∧ ρ = totalsRow x := by
    simp only [List.forall_mem_cons, List.not_mem_nil, false_imp_iff, implies_true, and_true]
    exact ⟨⟨⟨.num (.fin 5), trivial, rfl⟩, ⟨.null, trivial, rfl⟩⟩, ⟨.num (.fin 5), trivial, rfl⟩⟩
  refine (view.maintained_iff .basic left (fun c member ρ inside o output => ?_) fun c member ρ inside su output => ?_).mpr
    fun c member ρ inside o output => ?_
  all_goals
    obtain ⟨x, finite, rfl⟩ := rows c member ρ inside
    obtain rfl := List.mem_singleton.mp output
  · rfl
  · exact finite
  · exact Datum.noConfusion

/-- `SELECT a, count(*) FROM t GROUP BY a` with `a` a `jsonb`. -/
def documentsSpec : ViewSpec := { totalsSpec with
  columns := [⟨.column 0 "a" .jsonb, "a"⟩]
  sums := []
  relations := [⟨1, 1, "public.t", ["id"], ["id", "a"], ["bigint", "jsonb"], []⟩]
  hiddenColumns := [] }

def documentsRow (a : Datum) : Env := fun _ _ => a

/-- A group of SQL NULL and one of the JSON null become one row. -/
theorem documentsSpec_merged : ¬ ∀ (pf : Platform) {spec : ViewSpec} {count : String}, spec.IsAggregate count →
    ∀ {history : List (Sign × List Env)} {M : List Env}, Contributed history M →
    (∀ c ∈ history, ∀ ρ ∈ c.2, ∀ o ∈ spec.columns, (o.expr.eval ρ).HasKind o.expr.kind) →
    (∀ c ∈ history, ∀ ρ ∈ c.2, ∀ su ∈ spec.sums, (su.expr.eval ρ).Finite) → spec.Maintained pf count history := by
  intro always
  have arrived : Contributed ([] ++ [(Sign.plus, [documentsRow .null, documentsRow .jsonNull])]) [documentsRow .null, documentsRow .jsonNull] :=
    Contributed.start.contribute (List.Perm.refl _)
  have maintained := @always .basic documentsSpec "n" ⟨rfl, rfl, by decide⟩ _ _ arrived (fun c member ρ inside o output => ?_)
    fun c member ρ inside su none => absurd none List.not_mem_nil
  · obtain ⟨table, deltas, executed, aggregates⟩ := maintained.aggregate _ [] (List.append_nil _).symm _ arrived
    obtain ⟨row, stored, keys⟩ := (aggregates.row_iff [.jsonNull]).mpr
      ⟨documentsRow .jsonNull, List.mem_cons_of_mem _ List.mem_cons_self, rfl⟩
    have one : (execute .basic documentsSpec [] (documentsSpec.historyOps ([] ++ [(Sign.plus, [documentsRow .null, documentsRow .jsonNull])]))).map
        Prod.fst = .ok [[("a", .null), ("n", .num (.fin 2))]] := by
      decide +kernel
    rw [executed] at one
    obtain rfl : table = _ := Except.ok.inj one
    obtain rfl := List.mem_singleton.mp stored
    exact absurd keys (by decide)
  · obtain rfl := List.mem_singleton.mp member
    obtain rfl := List.mem_singleton.mp output
    rcases List.mem_cons.mp inside with rfl | last
    · trivial
    · obtain rfl := List.mem_singleton.mp last
      rfl

end Nabla
