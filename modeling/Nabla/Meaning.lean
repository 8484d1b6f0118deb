import Nabla.Shapes

/-! What `validate` accepts means what it meant: the query of the spec returns what the
definition returns, at every moment and for every contents of the tables. -/
namespace Nabla
open Bags

variable {Moment : Type} {cat : SystemCatalog} {q : Query Moment} {kindOf : String → Kind}

/-- The names of the tables of a join, as the deparser and the FROM list write them: each its own,
with no names for its columns. -/
structure Query.NamesApart (q : Query Moment) : Prop where
  named : ∀ entry ∈ q.entries, entry.rte.eref.isSome
  distinct : q.isJoin = true → (q.entries.map fun entry => entry.rte.eref).Nodup
  bare : q.isJoin = true → ∀ entry ∈ q.entries, entry.rte.colnames = []

theorem idxOf_map_of_nodup {α β : Type} [DecidableEq β] {xs : List α} {f : α → β} (distinct : (xs.map f).Nodup) {i : Nat} {x : α} (here : xs[i]? = some x) :
    (xs.map f).idxOf (f x) = i := by
  obtain ⟨within, rfl⟩ := List.getElem?_eq_some_iff.mp here
  have inside : i < (xs.map f).length := by rwa [List.length_map]
  have at_i : (xs.map f)[i] = f xs[i] := List.getElem_map f
  rw [← at_i]
  exact distinct.idxOf_getElem i inside

theorem map_eq_of_forall₂ {α β γ : Type} {f : α → γ} {g : β → γ} {xs : List α} {ys : List β} (each : List.Forall₂ (fun x y => g y = f x) xs ys) :
    ys.map g = xs.map f := by
  induction each with
  | nil => rfl
  | cons own _ ih => rw [List.map_cons, List.map_cons, own, ih]

theorem Query.relid_of_mem {entry : RelEntry} (member : entry ∈ q.entries) : q.relid entry.rtIndex = entry.rte.relid := by
  rw [Query.relid, (mem_relationEntries member).2.1]

theorem Query.allowed_nodup (q : Query Moment) : q.allowed.Nodup := relationEntries_nodup 1 q.rtable

section Acceptance

variable (a : Acceptance cat q)

theorem Acceptance.mem_entries {rel : ListedRelation} (member : rel ∈ a.rels) : rel.entry ∈ q.entries := a.entries ▸ List.mem_map_of_mem member

theorem Acceptance.entries_length : q.entries.length = a.rels.length := by
  rw [← a.entries, List.length_map]
  rfl

theorem Acceptance.single_rels (single : q.isJoin = false) : a.rels = [a.first] := by
  have one : q.entries.length ≤ 1 := by simpa [Query.isJoin] using single
  have long : a.rels.length = a.others.length + 1 := rfl
  have short : a.others.length = 0 := by
    rw [a.entries_length] at one
    omega
  rw [Acceptance.rels, List.length_eq_zero_iff.mp short]

theorem Acceptance.aliases_eq (names : q.NamesApart) : a.aliases = q.entries.map fun entry => entry.rte.eref.getD "t" := by
  rw [← a.entries, List.map_map]
  apply List.map_congr_left
  intro rel member
  obtain ⟨name, is⟩ := Option.isSome_iff_exists.mp (names.named _ (a.mem_entries member))
  rw [(a.ordinary rel member).aliasName, Function.comp_apply, is, Option.getD_some, Option.getD_some]

theorem Acceptance.aliases_nodup (names : q.NamesApart) (join : q.isJoin = true) : a.aliases.Nodup := by
  have once : q.entries.Nodup := List.Nodup.of_map _ q.allowed_nodup
  have apart := names.distinct join
  rw [a.aliases_eq names]
  rw [List.nodup_map_iff_inj_on once] at apart ⊢
  intro e inE e' inE' same
  obtain ⟨name, is⟩ := Option.isSome_iff_exists.mp (names.named e inE)
  obtain ⟨name', is'⟩ := Option.isSome_iff_exists.mp (names.named e' inE')
  apply apart e inE e' inE'
  rw [is, is', Option.getD_some, Option.getD_some] at same
  rw [is, is', same]

/-- The text of a column is found at the position of its table, under its own name. -/
theorem Acceptance.place (names : q.NamesApart) {varno : Nat} (member : varno ∈ q.allowed) (attno : Int) :
    a.deparser.place varno attno = (q.allowed.idxOf varno, q.column cat varno attno) := by
  obtain ⟨entry, inside, rfl⟩ := List.mem_map.mp member
  obtain ⟨i, here⟩ := List.mem_iff_getElem?.mp inside
  have position : q.allowed.idxOf entry.rtIndex = i := idxOf_map_of_nodup q.allowed_nodup here
  have facts : q.column cat entry.rtIndex attno = (cat.relation entry.rte.relid).attname attno := by
    rw [Query.column, Query.facts, Query.relid_of_mem inside]
  rw [position, facts, Acceptance.deparser]
  cases join : q.isJoin with
  | true =>
      have distinct := a.aliases_nodup names join
      rw [a.aliases_eq names] at distinct
      rw [if_pos rfl, Deparser.place, (mem_relationEntries inside).2.1, a.aliases_eq names]
      simp only [RangeTblEntry.printed, names.bare join entry inside, List.getElem?_nil, Option.getD_none, Prod.mk.injEq, and_true]
      exact idxOf_map_of_nodup (f := fun entry : RelEntry => entry.rte.eref.getD "t") distinct here
  | false =>
      have first : q.entries = [a.first.entry] := by
        rw [← a.entries, show a.first :: a.others = [a.first] from a.single_rels join]
        rfl
      rw [first] at here inside
      have is := List.mem_singleton.mp inside
      have zero : i = 0 := by
        cases i with
        | zero => rfl
        | succ i => cases here
      have own := (a.ordinary a.first List.mem_cons_self).facts
      rw [if_neg Bool.false_ne_true, Deparser.place, zero, is, own]

def Acceptance.placed (ρ : Env) : RowReader := fun varno attno => ρ (a.deparser.place varno attno).1 (a.deparser.place varno attno).2

theorem Acceptance.placed_byPosition (names : q.NamesApart) {varno : Nat} (member : varno ∈ q.allowed) (attno : Int) (f : Nat → Option BaseRow) :
    a.placed (byPosition q.allowed f) varno attno = q.reader cat (rowsOfAssignment f) varno attno := by
  rw [Acceptance.placed, a.place names member, Query.reader, byPosition, List.getElem?_idxOf member, Option.bind_some, rowsOfAssignment]

/-- What the analysis of PostgreSQL gives: each table is in the FROM clause once, an ON clause
reads the tables of its join, a Var is a column of its table with the type of it, an item of
GROUP BY is one target without an aggregate, and `count(*)` has no argument. -/
structure Query.Analyzed (kindOf : String → Kind) (cat : SystemCatalog) (q : Query Moment) : Prop where
  once : ∀ m, (q.jointree.toTree (q.expr cat m)).leaves.Perm q.allowed
  inScope : ∀ m, (q.jointree.toTree (q.expr cat m)).Scoped
  columns : ∀ node : Node Moment, (∃ quals, q.jointree.collectQuals = .ok quals ∧ node ∈ quals) ∨ node ∈ q.targetList.map TargetEntry.expr →
    ∀ v ∈ node.vars, v.1 ∈ q.allowed → 0 < v.2.1 → ∃ c ∈ (q.facts cat v.1).attributes, c.attnum = v.2.1 ∧ kindOf c.formatType = v.2.2
  grouped : ∀ ref ∈ q.groupClause, ref ≠ 0 ∧ ∃ t ∈ q.targetList, t.ressortgroupref = ref
  refs : ∀ t ∈ q.targetList, ∀ t' ∈ q.targetList, t.ressortgroupref ≠ 0 → t.ressortgroupref = t'.ressortgroupref → t = t'
  plainKeys : ∀ t ∈ q.targetList, t.grouped q.groupClause = true → t.expr.containAggClause = false
  star : ∀ t ∈ q.targetList, ∀ agg how args, t.expr = .aggref agg how [] args [] → how.aggstar = true → args = []

/-- A number or a truth value on its own. -/
def Node.isLiteral : Node Moment → Bool
  | .const .numeric value => value.1 ≠ .null
  | .const .bool value => value.1 ≠ .null
  | _ => false

/-- The texts of the spec read as the definition does: its FROM list has no TABLESAMPLE, and a
literal in its GROUP BY is the position of a column, or an error. `validate` asks for neither. -/
structure Query.Transcribed (q : Query Moment) : Prop where
  whole : ∀ rte ∈ q.rtable, rte.tablesample = false
  expressions : ∀ t ∈ q.targetList, t.grouped q.groupClause = true → t.expr.isLiteral = false

/-- The FROM list of the spec has the tables of the definition. -/
theorem Acceptance.tablesOf {spec : ViewSpec} (relations : spec.relations = a.relations) (tables : Nat → List BaseRow) :
    q.allowed.map (fun rti => tables (q.relid rti)) = spec.tablesOf tables := by
  have oids : a.relations.map BaseRelation.oid = q.entries.map fun entry => entry.rte.relid := by
    have each : List.Forall₂ (fun rel used => BaseRelation.oid used = rel.entry.rte.relid) a.rels a.relations := a.used.imp fun _ _ used => used.oid
    rw [map_eq_of_forall₂ each, ← a.entries, List.map_map]
    rfl
  rw [ViewSpec.tablesOf, relations, Query.allowed, List.map_map]
  have left : q.entries.map ((fun rti => tables (q.relid rti)) ∘ RelEntry.rtIndex) = (q.entries.map fun entry => entry.rte.relid).map tables := by
    rw [List.map_map]
    apply List.map_congr_left
    intro entry member
    rw [Function.comp_apply, Query.relid_of_mem member, Function.comp_apply]
  rw [left, ← oids, List.map_map]
  rfl

variable {a}

theorem Acceptance.qual_eval (names : q.NamesApart) (m : Moment) {qual : Node Moment} (member : qual ∈ a.quals) (f : Nat → Option BaseRow) :
    (a.deparser.expr m qual).eval (byPosition q.allowed f) = (q.expr cat m qual).eval (rowsOfAssignment f) := by
  apply Node.eval_congr
  intro v read
  exact a.placed_byPosition names ((a.conditions qual member).2 v read) v.2.1 f

theorem Acceptance.fromRows (analyzed : q.Analyzed kindOf cat) (names : q.NamesApart) (m : Moment) {spec : ViewSpec}
    (predicate : spec.predicate = predicateOf (a.quals.map (a.deparser.expr m))) (relations : spec.relations = a.relations) (tables : Nat → List BaseRow) :
    ∃ rows, q.fromRows cat m tables = some rows ∧ (rows.map (byPosition q.allowed)).Perm (spec.joined (spec.tablesOf tables)) := by
  have walked := FromNode.collectQuals_toTree (q.expr cat m) q.jointree a.walked
  have distinct := (analyzed.once m).nodup_iff.mpr q.allowed_nodup
  refine ⟨_, JoinTree.rows_eq _ _ (analyzed.inScope m) distinct walked, ?_⟩
  have reordered := ((assignments_perm (fun rti => tables (q.relid rti)) (analyzed.once m) distinct).filter (satisfied (a.quals.map (q.expr cat m)))).map
    (byPosition q.allowed)
  have flat : ((assignments (fun rti => tables (q.relid rti)) q.allowed).filter (satisfied (a.quals.map (q.expr cat m)))).map (byPosition q.allowed) =
      spec.joined (spec.tablesOf tables) := by
    rw [ViewSpec.joined, ← a.tablesOf relations, ← assignments_byPosition _ q.allowed_nodup, List.filter_map]
    congr 1
    apply List.filter_congr
    intro f _
    rw [Function.comp_apply, passes_predicateOf predicate, satisfied, List.all_map, List.all_map, Bool.eq_iff_iff, List.all_eq_true, List.all_eq_true]
    apply forall₂_congr
    intro qual member
    rw [Function.comp_apply, Function.comp_apply, SqlExpr.holds, Acceptance.qual_eval names m member]
  exact flat ▸ reordered

end Acceptance

end Nabla
