import Nabla.Worker
import Nabla.Source
import Nabla.Aggregate
import Nabla.Lib.Sections

/-! The rows a view's query ranges over, as a bag that follows the base tables: one
row change moves exactly the combinations of that row with the other tables. -/
namespace Nabla
open Bags

def narrowRow (columns : List String) (row : BaseRow) : BaseRow :=
  fun name => if name ∈ columns then row name else .null

theorem narrowRow_of_mem {columns : List String} {name : String} (member : name ∈ columns) (row : BaseRow) :
    narrowRow columns row name = row name := if_pos member

theorem narrowRow_congr {columns : List String} {r s : BaseRow} (same : ∀ name ∈ columns, r name = s name) :
    narrowRow columns r = narrowRow columns s := by
  funext name
  by_cases member : name ∈ columns
  · rw [narrowRow_of_mem member, narrowRow_of_mem member, same name member]
  · rw [narrowRow, narrowRow, if_neg member, if_neg member]

theorem eq_of_narrowRow_eq {columns : List String} {r s : BaseRow} (same : narrowRow columns r = narrowRow columns s)
    {name : String} (member : name ∈ columns) : r name = s name := by
  rw [← narrowRow_of_mem member r, same, narrowRow_of_mem member]

theorem narrowRow_narrowRow {few many : List String} (within : few ⊆ many) (row : BaseRow) :
    narrowRow few (narrowRow many row) = narrowRow few row :=
  narrowRow_congr fun _ member => narrowRow_of_mem (within member) row

def ViewSpec.exprs (spec : ViewSpec) : List SqlExpr :=
  spec.predicate.toList ++ spec.selectList.map OutputColumn.expr ++ spec.columns.map OutputColumn.expr ++
    spec.counts.map OutputColumn.expr ++ spec.sums.map SumSpec.expr

/-- Every column an expression references is recorded as used. -/
def ViewSpec.Closed (spec : ViewSpec) : Prop :=
  ∀ e ∈ spec.exprs, ∀ v ∈ e.vars, ∃ b, spec.relations[v.1]? = some b ∧ v.2.1 ∈ b.usedColumns

def ViewSpec.narrow (spec : ViewSpec) (ρ : Env) : Env := fun i =>
  match spec.relations[i]? with
  | some b => narrowRow b.usedColumns (ρ i)
  | none => ρ i

def ViewSpec.narrowTables (spec : ViewSpec) (tables : List (List BaseRow)) : List (List BaseRow) :=
  List.zipWith List.map (spec.relations.map fun b => narrowRow b.usedColumns) tables

section Closed

variable {spec : ViewSpec} (closed : spec.Closed)
include closed

theorem ViewSpec.Closed.eval_narrow {e : SqlExpr} (member : e ∈ spec.exprs) (ρ : Env) :
    e.eval (spec.narrow ρ) = e.eval ρ := by
  apply e.eval_congr
  intro v within
  obtain ⟨b, at_v, used⟩ := closed e member v within
  simp only [ViewSpec.narrow, at_v, narrowRow_of_mem used]

theorem ViewSpec.Closed.passes_narrow (ρ : Env) : spec.passes (spec.narrow ρ) = spec.passes ρ := by
  unfold ViewSpec.passes
  cases found : spec.predicate with
  | none => rfl
  | some p =>
      have member : p ∈ spec.exprs := by
        simp only [ViewSpec.exprs, found, Option.toList_some, List.mem_append, List.mem_singleton, true_or]
      simp only [closed.eval_narrow member]

theorem ViewSpec.Closed.selectRow_narrow (ρ : Env) : spec.selectRow (spec.narrow ρ) = spec.selectRow ρ := by
  apply List.map_congr_left
  intro o member
  rw [closed.eval_narrow]
  simp only [ViewSpec.exprs, List.mem_append, List.mem_map]
  exact Or.inl (Or.inl (Or.inl (Or.inr ⟨o, member, rfl⟩)))

theorem ViewSpec.Closed.groupKeys_narrow (ρ : Env) : spec.groupKeys (spec.narrow ρ) = spec.groupKeys ρ := by
  apply List.map_congr_left
  intro o member
  rw [closed.eval_narrow]
  simp only [ViewSpec.exprs, List.mem_append, List.mem_map]
  exact Or.inl (Or.inl (Or.inr ⟨o, member, rfl⟩))

theorem ViewSpec.Closed.groupRow_narrow (keys : List Datum) (ρs : List Env) :
    spec.groupRow keys (ρs.map spec.narrow) = spec.groupRow keys ρs := by
  have counts : ∀ c ∈ spec.counts, (ρs.map spec.narrow).map c.expr.eval = ρs.map c.expr.eval := by
    intro c member
    rw [List.map_map]
    apply List.map_congr_left
    intro ρ _
    apply closed.eval_narrow
    simp only [ViewSpec.exprs, List.mem_append, List.mem_map]
    exact Or.inl (Or.inr ⟨c, member, rfl⟩)
  have sums : ∀ su ∈ spec.sums, (ρs.map spec.narrow).map su.expr.eval = ρs.map su.expr.eval := by
    intro su member
    rw [List.map_map]
    apply List.map_congr_left
    intro ρ _
    apply closed.eval_narrow
    simp only [ViewSpec.exprs, List.mem_append, List.mem_map]
    exact Or.inr ⟨su, member, rfl⟩
  have countColumns : spec.counts.map (fun c =>
        (c.aliasName, sqlCount ((ρs.map spec.narrow).map c.expr.eval))) =
      spec.counts.map fun c => (c.aliasName, sqlCount (ρs.map c.expr.eval)) := by
    apply List.map_congr_left
    intro c member
    rw [counts c member]
  have sumColumns : spec.sums.flatMap (fun su =>
        [(su.aliasName, sqlSum ((ρs.map spec.narrow).map su.expr.eval)),
          (su.counter, sqlCount ((ρs.map spec.narrow).map su.expr.eval))]) =
      spec.sums.flatMap fun su =>
        [(su.aliasName, sqlSum (ρs.map su.expr.eval)), (su.counter, sqlCount (ρs.map su.expr.eval))] := by
    apply List.flatMap_congr
    intro su member
    rw [sums su member]
  simp only [ViewSpec.groupRow, List.length_map, countColumns, sumColumns]

theorem ViewSpec.Closed.output_narrow (ρs : List Env) : spec.output (ρs.map spec.narrow) = spec.output ρs := by
  unfold ViewSpec.output
  cases spec.shape with
  | projection =>
      simp only [List.map_map]
      exact List.map_congr_left fun ρ _ => closed.selectRow_narrow ρ
  | aggregate =>
      have keys : (ρs.map spec.narrow).map spec.groupKeys = ρs.map spec.groupKeys := by
        rw [List.map_map]
        exact List.map_congr_left fun ρ _ => closed.groupKeys_narrow ρ
      simp only [ViewSpec.groupRows, keys]
      apply List.map_congr_left
      intro k _
      rw [List.filter_map]
      simp only [Function.comp_def, closed.groupKeys_narrow]
      exact closed.groupRow_narrow _ _

theorem ViewSpec.Closed.joined_narrow {tables : List (List BaseRow)}
    (length : tables.length = spec.relations.length) :
    spec.joined (spec.narrowTables tables) = (spec.joined tables).map spec.narrow := by
  have envs : ∀ s ∈ tables.sections,
      envOf (List.zipWith (fun f x => f x) (spec.relations.map fun b => narrowRow b.usedColumns) s) =
        spec.narrow (envOf s) := by
    intro s member
    have size := List.mem_sections_length member
    funext i
    simp only [envOf, ViewSpec.narrow, List.getD_eq_getElem?_getD, List.getElem?_zipWith, List.getElem?_map]
    cases relation : spec.relations[i]? with
    | none =>
        rw [List.getElem?_eq_none_iff] at relation
        rw [List.getElem?_eq_none_iff.mpr (by omega)]
        rfl
    | some b =>
        have below := (List.getElem?_eq_some_iff.mp relation).1
        rw [List.getElem?_eq_getElem (by omega)]
        rfl
  have mapped : (spec.narrowTables tables).sections.map envOf =
      (tables.sections.map envOf).map spec.narrow := by
    rw [ViewSpec.narrowTables, sections_zipWith_map _ _ (by rw [List.length_map, length]), List.map_map,
      List.map_map]
    exact List.map_congr_left envs
  rw [ViewSpec.joined, mapped, List.filter_map]
  simp only [Function.comp_def, closed.passes_narrow]
  rfl

theorem ViewSpec.Closed.evalQuery_narrow {tables : List (List BaseRow)}
    (length : tables.length = spec.relations.length) :
    spec.evalQuery (spec.narrowTables tables) = spec.evalQuery tables := by
  rw [ViewSpec.evalQuery, closed.joined_narrow length, closed.output_narrow]
  rfl

end Closed

def ViewSpec.tablesOf (spec : ViewSpec) (tables : Nat → List BaseRow) : List (List BaseRow) :=
  spec.relations.map fun b => tables b.oid

def ViewSpec.contents (spec : ViewSpec) (tables : List (List BaseRow)) : List Env :=
  spec.joined (spec.narrowTables tables)

theorem narrowTables_set (spec : ViewSpec) {i : Nat} {b : BaseRelation} (at_i : spec.relations[i]? = some b)
    (tables : List (List BaseRow)) (rows : List BaseRow) :
    spec.narrowTables (tables.set i rows) =
      (spec.narrowTables tables).set i (rows.map (narrowRow b.usedColumns)) := by
  apply List.ext_getElem?
  intro j
  simp only [ViewSpec.narrowTables, List.getElem?_zipWith, List.getElem?_map, List.getElem?_set, List.length_zipWith,
    List.length_map]
  by_cases same : i = j
  · subst same
    have below := (List.getElem?_eq_some_iff.mp at_i).1
    by_cases short : i < tables.length
    · simp only [at_i, short, if_true, Option.map_some, lt_inf_iff, below, and_self]
    · simp only [at_i, short, if_true, if_false, Option.map_some, lt_inf_iff, and_false]
  · simp only [same, if_false]

theorem ViewSpec.contents_split (spec : ViewSpec) {i : Nat} {b : BaseRelation}
    (at_i : spec.relations[i]? = some b) {tables : List (List BaseRow)}
    (length : tables.length = spec.relations.length) {whole left right : List BaseRow}
    (split : whole.Perm (left ++ right)) :
    (spec.contents (tables.set i whole)).Perm
      (spec.contents (tables.set i left) ++ spec.contents (tables.set i right)) := by
  have below := (List.getElem?_eq_some_iff.mp at_i).1
  have size : (spec.narrowTables tables).length = spec.relations.length := by
    rw [ViewSpec.narrowTables, List.length_zipWith, List.length_map, length, Nat.min_self]
  have at_set : ((spec.narrowTables tables).set i (whole.map (narrowRow b.usedColumns)))[i]? =
      some (whole.map (narrowRow b.usedColumns)) := List.getElem?_set_self (by omega)
  have apart := sections_split at_set ((split.map (narrowRow b.usedColumns)).trans (by rw [List.map_append]))
  rw [List.set_set, List.set_set] at apart
  simp only [ViewSpec.contents, narrowTables_set spec at_i]
  have moved := (apart.map envOf).filter spec.passes
  rwa [List.map_append, List.filter_append] at moved

/-- The bag of combinations follows the tables up to their order and unused columns. -/
theorem ViewSpec.contents_perm (spec : ViewSpec) {tables tables' : List (List BaseRow)}
    (same : List.Forall₂ List.Perm (spec.narrowTables tables) (spec.narrowTables tables')) :
    (spec.contents tables).Perm (spec.contents tables') :=
  ((sections_perm same).map envOf).filter spec.passes

theorem ViewSpec.relationIndex_some {spec : ViewSpec} {relid i : Nat} (found : spec.relationIndex relid = some i) :
    ∃ b, spec.relations[i]? = some b ∧ b.oid = relid := by
  obtain ⟨below, holds, _⟩ := List.findIdx?_eq_some_iff_getElem.mp found
  exact ⟨spec.relations[i], List.getElem?_eq_getElem below, of_decide_eq_true holds⟩

theorem ViewSpec.relationIndex_none {spec : ViewSpec} {relid : Nat} (missing : spec.relationIndex relid = none)
    {b : BaseRelation} (member : b ∈ spec.relations) : b.oid ≠ relid := by
  have absent := List.findIdx?_eq_none_iff.mp missing b member
  simpa only [decide_eq_false_iff_not] using absent

theorem ViewSpec.tablesOf_set {spec : ViewSpec} (oids : (spec.relations.map BaseRelation.oid).Nodup) {i : Nat}
    {b : BaseRelation} (at_i : spec.relations[i]? = some b) {tables tables' : Nat → List BaseRow}
    (others : ∀ r, r ≠ b.oid → tables' r = tables r) :
    spec.tablesOf tables' = (spec.tablesOf tables).set i (tables' b.oid) := by
  obtain ⟨below, eq⟩ := List.getElem?_eq_some_iff.mp at_i
  apply List.ext_getElem
  · simp only [ViewSpec.tablesOf, List.length_map, List.length_set]
  · intro j short _
    simp only [ViewSpec.tablesOf, List.length_map] at short
    simp only [ViewSpec.tablesOf, List.getElem_map, List.getElem_set]
    by_cases same : i = j
    · subst same
      rw [if_pos rfl, eq]
    · rw [if_neg same, others]
      intro equal
      apply same
      apply (List.getElem?_inj (by rwa [List.length_map]) oids).mp
      rw [List.getElem?_map, List.getElem?_map, List.getElem?_eq_getElem below, List.getElem?_eq_getElem short,
        Option.map_some, Option.map_some, eq, equal]

end Nabla
