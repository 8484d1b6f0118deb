import Nabla.Meaning
import Nabla.Planning

/-! The result of an accepted definition: the visible columns of what the query of its spec
returns. -/
namespace Nabla
open Bags

def Record.columns (names : List String) (r : Record) : Record := names.map fun name => (name, r.get name)

/-- Two keys that tell the same items apart make the same groups: one item stands for each. -/
theorem dedup_representatives {α κ κ' : Type} [DecidableEq κ] [DecidableEq κ'] {k : α → κ} {k' : α → κ'} (xs : List α)
    (same : ∀ x ∈ xs, ∀ y ∈ xs, k x = k y ↔ k' x = k' y) :
    ∃ reps, reps ⊆ xs ∧ (xs.map k).dedup = reps.map k ∧ (xs.map k').dedup = reps.map k' := by
  induction xs with
  | nil => exact ⟨[], List.Subset.refl _, rfl, rfl⟩
  | cons x xs ih =>
      obtain ⟨reps, within, left, right⟩ := ih fun y inside z inside' => same y (List.mem_cons_of_mem _ inside) z (List.mem_cons_of_mem _ inside')
      have alike : k x ∈ xs.map k ↔ k' x ∈ xs.map k' := by
        simp only [List.mem_map]
        constructor
        · rintro ⟨y, inside, equal⟩
          exact ⟨y, inside, (same y (List.mem_cons_of_mem _ inside) x List.mem_cons_self).mp equal⟩
        · rintro ⟨y, inside, equal⟩
          exact ⟨y, inside, (same y (List.mem_cons_of_mem _ inside) x List.mem_cons_self).mpr equal⟩
      by_cases known : k x ∈ xs.map k
      · refine ⟨reps, List.Subset.trans within (List.subset_cons_self _ _), ?_, ?_⟩
        · rw [List.map_cons, List.dedup_cons_of_mem known, left]
        · rw [List.map_cons, List.dedup_cons_of_mem (alike.mp known), right]
      · refine ⟨x :: reps, List.cons_subset_cons x within, ?_, ?_⟩
        · rw [List.map_cons, List.dedup_cons_of_notMem known, left, List.map_cons]
        · rw [List.map_cons, List.dedup_cons_of_notMem (alike.not.mp known), right, List.map_cons]

variable {Moment : Type} {cat : SystemCatalog} {q : Query Moment} {kindOf : String → Kind} {m : Moment}

/-- What the analysis gives is what `validate` lets through. -/
theorem Acceptance.plain (a : Acceptance cat q) (transcribed : q.Transcribed) : q.plain = true := by
  have clauses := a.clauses
  simp only [Query.unsupported, List.forall_mem_cons] at clauses
  obtain ⟨select, setOperations, cteList, sublinks, windows, srfs, distinct, sort, limits, having_, sets, locks, -⟩ := clauses
  simp only [decide_eq_false_iff_not, not_not, Bool.or_eq_false_iff] at select setOperations cteList sublinks windows srfs distinct sort limits having_ sets locks
  rw [Query.plain, Bool.and_eq_true, Bool.and_eq_true]
  refine ⟨⟨by rw [select]; rfl, ?_⟩, ?_⟩
  · simp [setOperations, cteList, sublinks, windows, srfs, distinct, sort, limits, having_, sets, locks]
  · rw [List.all_eq_true]
    intro rte member
    rw [transcribed.whole rte member, Bool.not_false, Bool.and_true]
    rcases a.kinds rte member with is | is <;> rw [is] <;> rfl

section Acceptance

variable {a : Acceptance cat q} (names : q.NamesApart)
include names

/-- Readings of the FROM rows agree with readings of the combinations on the visible columns. -/
theorem Acceptance.agree (fs : List (Nat → Option BaseRow)) {node : Node Moment} (within : ∀ v ∈ node.vars, v.1 ∈ q.allowed) {read read' : RowReader}
    (row : ∀ v ∈ node.vars, read v.1 v.2.1 = read' v.1 v.2.1) :
    node.eval m (fs.map fun f => q.reader cat (rowsOfAssignment f)) read = node.eval m (fs.map fun f => a.placed (byPosition q.allowed f)) read' := by
  apply Node.eval_agree
  intro v member
  exact ⟨row v member, fun f _ => (a.placed_byPosition names (within v member) v.2.1 f).symm⟩

theorem Acceptance.agree_row {node : Node Moment} (within : ∀ v ∈ node.vars, v.1 ∈ q.allowed) (f : Nat → Option BaseRow) :
    node.eval m [] (q.reader cat (rowsOfAssignment f)) = node.eval m [] (a.placed (byPosition q.allowed f)) :=
  Acceptance.agree (a := a) names [] within fun v member => (a.placed_byPosition names (within v member) v.2.1 f).symm

omit names in
theorem Acceptance.keyTarget (a : Acceptance cat q) {t : TargetEntry Moment} {ref : Nat} (listed : ref ∈ q.groupClause) (found : t ∈ q.targetList) (nonzero : ref ≠ 0)
    (is : t.ressortgroupref = ref) : t ∈ q.visible ∧ t.grouped q.groupClause = true := by
  have grouped : t.grouped q.groupClause = true := by
    rw [TargetEntry.grouped, is, Bool.and_eq_true, List.contains_iff_mem]
    exact ⟨decide_eq_true nonzero, listed⟩
  refine ⟨List.mem_filter.mpr ⟨found, ?_⟩, grouped⟩
  cases junk : t.resjunk with
  | true =>
      have free := a.junk t found junk
      rw [grouped] at free
      cases free
  | false => rfl

theorem Acceptance.groupKey_agree (analyzed : q.Analyzed kindOf cat) (f : Nat → Option BaseRow) :
    q.groupKey m (q.reader cat (rowsOfAssignment f)) = q.groupKey m (a.placed (byPosition q.allowed f)) := by
  apply List.map_congr_left
  intro ref listed
  cases found : q.targetList.find? (·.ressortgroupref = ref) with
  | none => rfl
  | some t =>
      have is := of_decide_eq_true (List.find?_some (p := fun t : TargetEntry Moment => decide (t.ressortgroupref = ref)) found)
      have visible := (a.keyTarget listed (List.mem_of_find?_eq_some found) (analyzed.grouped ref listed).1 is).1
      exact Acceptance.agree_row (a := a) names (a.targets t visible).2 f

theorem Acceptance.selectRow_agree (fs : List (Nat → Option BaseRow)) {read read' : RowReader}
    (row : ∀ varno ∈ q.allowed, ∀ attno, read varno attno = read' varno attno) :
    q.selectRow m (fs.map fun f => q.reader cat (rowsOfAssignment f)) read = q.selectRow m (fs.map fun f => a.placed (byPosition q.allowed f)) read' := by
  apply List.map_congr_left
  intro t member
  have within := (a.targets t member).2
  rw [Acceptance.agree (a := a) names fs within fun v read => row v.1 (within v read) v.2.1]

theorem Acceptance.output_agree (analyzed : q.Analyzed kindOf cat) (fs : List (Nat → Option BaseRow)) :
    q.output m (fs.map fun f => q.reader cat (rowsOfAssignment f)) = q.output m ((fs.map (byPosition q.allowed)).map a.placed) := by
  have heads (gs : List (Nat → Option BaseRow)) : ∀ varno ∈ q.allowed, ∀ attno,
      ((gs.map fun f => q.reader cat (rowsOfAssignment f)).headD nothing) varno attno =
        ((gs.map fun f => a.placed (byPosition q.allowed f)).headD nothing) varno attno := by
    intro varno member attno
    cases gs with
    | nil => rfl
    | cons g gs => exact (a.placed_byPosition names member attno g).symm
  have mapped : (fs.map (byPosition q.allowed)).map a.placed = fs.map fun f => a.placed (byPosition q.allowed f) := List.map_map
  rw [mapped, Query.output, Query.output]
  split_ifs
  · rw [Acceptance.selectRow_agree (a := a) names fs (heads fs)]
  · rw [List.map_map, List.map_map]
    apply List.map_congr_left
    intro f _
    exact Acceptance.selectRow_agree (a := a) names [] fun varno member attno => (a.placed_byPosition names member attno f).symm
  · have keys : (fs.map fun f => q.reader cat (rowsOfAssignment f)).map (q.groupKey m) =
        (fs.map fun f => a.placed (byPosition q.allowed f)).map (q.groupKey m) := by
      rw [List.map_map, List.map_map]
      exact List.map_congr_left fun f _ => Acceptance.groupKey_agree names analyzed f
    simp only [Query.groups, keys, List.map_map]
    apply List.map_congr_left
    intro key _
    have members : fs.filter ((fun read => decide (q.groupKey m read = key)) ∘ fun f => q.reader cat (rowsOfAssignment f)) =
        fs.filter ((fun read => decide (q.groupKey m read = key)) ∘ fun f => a.placed (byPosition q.allowed f)) := by
      apply List.filter_congr
      intro f _
      rw [Function.comp_apply, Function.comp_apply, Acceptance.groupKey_agree (a := a) names analyzed f]
    rw [Function.comp_apply, Function.comp_apply, List.filter_map, List.filter_map, members]
    exact Acceptance.selectRow_agree (a := a) names _ (heads _)

end Acceptance

/-- Facts about a table that belong together: numbers and names of attributes are different, and
a primary key is made of attributes. -/
structure RelationFacts.WellFormed (facts : RelationFacts) : Prop where
  numbers : (facts.attributes.map Attribute.attnum).Nodup
  names : (facts.attributes.map Attribute.attname).Nodup
  key : ∀ k ∈ facts.primaryKey, ∃ c ∈ facts.attributes, c.attnum = k.1 ∧ c.attname = k.2
  keyOnce : facts.pkColumns.Nodup

def SystemCatalog.WellFormed (cat : SystemCatalog) : Prop := ∀ relid, (cat.relation relid).WellFormed

theorem shownColumns_names (deparser : Deparser) (m : Moment) (visible : List (TargetEntry Moment)) :
    (shownColumns deparser m visible).map OutputColumn.aliasName = visible.map TargetEntry.name := by
  rw [shownColumns, List.map_map]
  rfl

theorem hiddenNames_reserved {rels : List ListedRelation} : ∀ name ∈ hiddenNames rels, reservedName name = true := by
  intro name member
  obtain ⟨rel, -, inside⟩ := List.mem_flatMap.mp member
  obtain ⟨key, -, rfl⟩ := List.mem_map.mp inside
  exact hiddenKey_reserved _ _

theorem Acceptance.hiddenNames_nodup (a : Acceptance cat q) (formed : cat.WellFormed) : (hiddenNames a.rels).Nodup := by
  rw [hiddenNames, List.nodup_flatMap]
  constructor
  · intro rel member
    have key := (formed rel.entry.rte.relid).keyOnce
    rw [RelationFacts.pkColumns, ← (a.ordinary rel member).facts] at key
    have named : (rel.facts.primaryKey.map fun key => hiddenKey rel.rti key.2) = (rel.facts.primaryKey.map Prod.snd).map (hiddenKey rel.rti) := by
      rw [List.map_map]
      rfl
    rw [named]
    exact key.map fun _ _ same => (hiddenKey_injective same).2
  · have apart : (a.rels.map ListedRelation.rti).Nodup := by
      rw [show a.rels.map ListedRelation.rti = _ from a.positions]
      exact List.nodup_range'
    refine (List.pairwise_map.mp apart).imp ?_
    intro rel rel' other
    rw [Function.onFun_apply, List.disjoint_left]
    intro name left right
    obtain ⟨key, -, rfl⟩ := List.mem_map.mp left
    obtain ⟨key', -, same⟩ := List.mem_map.mp right
    exact other (hiddenKey_injective same).1.symm

/-- No two columns of a projection have one name. -/
theorem ProjectionShape.distinct {a : Acceptance cat q} (formed : cat.WellFormed) {v : Validated}
    (shape : ProjectionShape kindOf a.deparser m q.isJoin a.rels a.first q.groupClause q.visible (a.common m) v) :
    (v.spec.selectList.map OutputColumn.aliasName).Nodup := by
  rw [shape.spec]
  cases q.isJoin with
  | true =>
      rw [if_pos rfl, joinSpec, List.map_append, shownColumns_names, hiddenKeys_names]
      apply List.Nodup.append a.names (a.hiddenNames_nodup formed)
      intro name shown hidden
      obtain ⟨t, member, rfl⟩ := List.mem_map.mp shown
      have free := (a.targets t member).1
      rw [hiddenNames_reserved _ hidden] at free
      cases free
  | false =>
      rw [if_neg Bool.false_ne_true, tableSpec, shownColumns_names]
      exact a.names

theorem ProjectionShape.shape_eq {a : Acceptance cat q} {v : Validated}
    (shape : ProjectionShape kindOf a.deparser m q.isJoin a.rels a.first q.groupClause q.visible (a.common m) v) :
    v.spec.shape = .projection ∧ v.spec.predicate = predicateOf (a.quals.map (a.deparser.expr m)) ∧ v.spec.relations = a.relations ∧
      shownColumns a.deparser m q.visible ⊆ v.spec.selectList := by
  rw [shape.spec]
  cases q.isJoin with
  | true => exact ⟨rfl, rfl, rfl, List.subset_append_left _ _⟩
  | false => exact ⟨rfl, rfl, rfl, List.Subset.refl _⟩

/-- A visible column has the value of its target. -/
theorem ProjectionShape.selectRow {a : Acceptance cat q} (formed : cat.WellFormed) {v : Validated}
    (shape : ProjectionShape kindOf a.deparser m q.isJoin a.rels a.first q.groupClause q.visible (a.common m) v) (ρ : Env) :
    (v.spec.selectRow ρ).columns v.visibleColumns = q.selectRow m [] (a.placed ρ) := by
  rw [Record.columns, shape.visibleColumns, List.map_map, Query.selectRow]
  apply List.map_congr_left
  intro t member
  have selected : OutputColumn.mk (a.deparser.expr m t.expr) t.name ∈ v.spec.selectList := shape.shape_eq.2.2.2 (List.mem_map_of_mem member)
  have distinct : ((v.spec.selectRow ρ).map Prod.fst).Nodup := by
    rw [ViewSpec.selectRow, List.map_map]
    exact shape.distinct formed
  have found : (v.spec.selectRow ρ).get t.name = (a.deparser.expr m t.expr).eval ρ :=
    Record.get_of_mem distinct (List.mem_map_of_mem (f := fun o : OutputColumn => (o.aliasName, o.expr.eval ρ)) selected)
  rw [Function.comp_apply, found]
  rfl

/-- What an accepted projection returns is what its spec selects, without the hidden columns. -/
theorem ProjectionShape.result {a : Acceptance cat q} (formed : cat.WellFormed) (analyzed : q.Analyzed kindOf cat) (names : q.NamesApart)
    (transcribed : q.Transcribed) {v : Validated}
    (projects : q.hasAggs = false)
    (shape : ProjectionShape kindOf a.deparser m q.isJoin a.rels a.first q.groupClause q.visible (a.common m) v) (tables : Nat → List BaseRow) :
    ∃ rows, q.result cat m tables = some rows ∧
      rows.Perm ((v.spec.evalQuery (v.spec.tablesOf tables)).map (Record.columns v.visibleColumns)) := by
  obtain ⟨isProjection, predicate, relations, -⟩ := shape.shape_eq
  obtain ⟨fs, rows, reordered⟩ := Acceptance.fromRows analyzed names m predicate relations tables
  refine ⟨q.output m (fs.map fun f => q.reader cat (rowsOfAssignment f)), ?_, ?_⟩
  · rw [Query.result, a.plain transcribed, if_pos rfl, rows, Option.map_some]
  · have shown : (v.spec.evalQuery (v.spec.tablesOf tables)).map (Record.columns v.visibleColumns) =
        (v.spec.joined (v.spec.tablesOf tables)).map fun ρ => q.selectRow m [] (a.placed ρ) := by
      rw [ViewSpec.evalQuery, ViewSpec.output, isProjection]
      simp only [List.map_map]
      exact List.map_congr_left fun ρ _ => shape.selectRow formed ρ
    rw [Acceptance.output_agree (a := a) names analyzed fs, Query.output, if_pos shape.ungrouped, projects, if_neg Bool.false_ne_true, shown]
    rw [List.map_map]
    exact reordered.map fun ρ => q.selectRow m [] (a.placed ρ)

/-- The tables hold values of the types of their columns. -/
def SystemCatalog.Stores (kindOf : String → Kind) (cat : SystemCatalog) (tables : Nat → List BaseRow) : Prop :=
  ∀ relid, ∀ row ∈ tables relid, ∀ c ∈ (cat.relation relid).attributes, (row c.attname).HasKind (kindOf c.formatType)

/-- `sum()` is over a number. -/
def Query.SumsNumbers (q : Query Moment) : Prop :=
  ∀ t ∈ q.visible, ∀ agg how arg, t.expr = .aggref agg how [] [arg] [] → agg.builtin = true → agg.name = "sum" → arg.kind = .numeric

theorem RelationFacts.WellFormed.attribute {facts : RelationFacts} (formed : facts.WellFormed) {c : Attribute} (member : c ∈ facts.attributes) :
    facts.attribute c.attnum = some c := by
  cases found : facts.attribute c.attnum with
  | none => exact absurd (List.find?_eq_none.mp found c member) (by simp)
  | some c' =>
      have same := of_decide_eq_true (List.find?_some (p := fun c' : Attribute => decide (c'.attnum = c.attnum)) found)
      rw [(List.inj_on_of_nodup_map formed.numbers) (List.mem_of_find?_eq_some found) member same]

theorem RelationFacts.WellFormed.attname {facts : RelationFacts} (formed : facts.WellFormed) {c : Attribute} (member : c ∈ facts.attributes) :
    facts.attname c.attnum = c.attname := by
  rw [RelationFacts.attname, formed.attribute member]
  rfl

theorem forall₂_getElem? {α β : Type} {R : α → β → Prop} {xs : List α} {ys : List β} (related : List.Forall₂ R xs ys) {i : Nat} {x : α}
    (here : xs[i]? = some x) : ∃ y, ys[i]? = some y ∧ R x y := by
  induction related generalizing i with
  | nil => cases here
  | cons own _ ih =>
      cases i with
      | zero =>
          cases here
          exact ⟨_, rfl, own⟩
      | succ i => exact ih here

theorem Acceptance.allowed_eq (a : Acceptance cat q) : q.allowed = a.rels.map fun rel => rel.entry.rtIndex := by
  rw [Query.allowed, ← a.entries, List.map_map]
  rfl

theorem Acceptance.relation_at (a : Acceptance cat q) {varno : Nat} (member : varno ∈ q.allowed) :
    ∃ rel used, a.rels[q.allowed.idxOf varno]? = some rel ∧ a.relations[q.allowed.idxOf varno]? = some used ∧ rel.entry ∈ q.entries ∧
      rel.entry.rtIndex = varno ∧ rel.Ordinary cat q.isJoin ∧
      rel.Used q.isJoin (a.quals.flatMap Node.referencedVars ++ q.visible.flatMap fun t => t.expr.referencedVars) (a.quals.flatMap Node.joinKeyVars) used := by
  have listed := List.getElem?_idxOf member
  generalize q.allowed.idxOf varno = i at listed ⊢
  rw [a.allowed_eq, List.getElem?_map, Option.map_eq_some_iff] at listed
  obtain ⟨rel, here, is⟩ := listed
  obtain ⟨used, at_i, own⟩ := forall₂_getElem? a.used here
  have inside := List.mem_of_getElem? here
  exact ⟨rel, used, here, at_i, a.mem_entries inside, is, a.ordinary rel inside, own⟩

theorem ViewSpec.joined_row {spec : ViewSpec} {tables : Nat → List BaseRow} {ρ : Env} (member : ρ ∈ spec.joined (spec.tablesOf tables)) {i : Nat}
    {used : BaseRelation} (at_i : spec.relations[i]? = some used) : ρ i ∈ tables used.oid := by
  obtain ⟨s, taken, rfl⟩ := List.mem_map.mp (List.mem_of_mem_filter member)
  have size := List.mem_sections_length taken
  rw [ViewSpec.tablesOf, List.length_map] at size
  have here : i < s.length := by
    rw [size]
    exact (List.getElem?_eq_some_iff.mp at_i).1
  obtain ⟨table, at_table, inTable⟩ := getElem_of_mem_sections taken (List.getElem?_eq_getElem here)
  rw [ViewSpec.tablesOf, List.getElem?_map, at_i, Option.map_some, Option.some.injEq] at at_table
  rw [envOf, List.getD_eq_getElem?_getD, List.getElem?_eq_getElem here, Option.getD_some, at_table]
  exact inTable

/-- A column a visible target refers to is an attribute of its table, and recorded as used. -/
theorem Acceptance.column_at (a : Acceptance cat q) (formed : cat.WellFormed) (analyzed : q.Analyzed kindOf cat) {node : Node Moment}
    (reads : node ∈ a.quals ∨ node ∈ q.visible.map TargetEntry.expr) {v : Nat × Int × Kind} (read : v ∈ node.vars) :
    ∃ rel used c, a.rels[q.allowed.idxOf v.1]? = some rel ∧ a.relations[q.allowed.idxOf v.1]? = some used ∧ used.oid = rel.entry.rte.relid ∧
      c ∈ rel.facts.attributes ∧ rel.facts = cat.relation rel.entry.rte.relid ∧ c.attname = q.column cat v.1 v.2.1 ∧ kindOf c.formatType = v.2.2 ∧
      (c.attname, c.formatType) ∈ used.usedColumns.zip used.usedColumnTypes := by
  have within : v.1 ∈ q.allowed := by
    rcases reads with qual | target
    · exact (a.conditions node qual).2 v read
    · obtain ⟨t, visible, rfl⟩ := List.mem_map.mp target
      exact (a.targets t visible).2 v read
  have listed : (v.1, v.2.1) ∈ a.quals.flatMap Node.referencedVars ++ q.visible.flatMap fun t => t.expr.referencedVars := by
    rcases reads with qual | target
    · exact List.mem_append_left _ (List.mem_flatMap.mpr ⟨node, qual, List.mem_map_of_mem read⟩)
    · obtain ⟨t, visible, rfl⟩ := List.mem_map.mp target
      exact List.mem_append_right _ (List.mem_flatMap.mpr ⟨t, visible, List.mem_map_of_mem read⟩)
  obtain ⟨rel, used, here, at_i, inside, index, ordinary, own⟩ := a.relation_at within
  have positive := own.plain _ listed index.symm
  have occurs : (∃ quals, q.jointree.collectQuals = .ok quals ∧ node ∈ quals) ∨ node ∈ q.targetList.map TargetEntry.expr := by
    rcases reads with qual | target
    · exact .inl ⟨a.quals, a.walked, qual⟩
    · obtain ⟨t, visible, rfl⟩ := List.mem_map.mp target
      exact .inr (List.mem_map_of_mem (List.mem_of_mem_filter visible))
  obtain ⟨c, inFacts, number, kind⟩ := analyzed.columns node occurs v read within positive
  have facts : q.facts cat v.1 = rel.facts := by
    rw [Query.facts, ordinary.facts, ← index, Query.relid_of_mem inside]
  rw [facts] at inFacts
  have formed' : rel.facts.WellFormed := ordinary.facts ▸ formed rel.entry.rte.relid
  have name : c.attname = q.column cat v.1 v.2.1 := by
    rw [Query.column, facts, ← number, formed'.attname inFacts]
  refine ⟨rel, used, c, here, at_i, own.oid, inFacts, ordinary.facts, name, kind, ?_⟩
  obtain ⟨kept, is, columns, types⟩ := own.columns
  rw [columns, types, List.zip_map']
  refine List.mem_map_of_mem (f := fun c : Attribute => (c.attname, c.formatType)) ?_
  rw [is]
  refine List.mem_filter.mpr ⟨inFacts, ?_⟩
  rw [List.contains_iff_mem]
  refine List.mem_append_left _ (List.mem_map.mpr ⟨(v.1, v.2.1), List.mem_filter.mpr ⟨listed, decide_eq_true index.symm⟩, ?_⟩)
  rw [← number, formed'.attname inFacts]

theorem Acceptance.placed_typed {a : Acceptance cat q} (formed : cat.WellFormed) (analyzed : q.Analyzed kindOf cat) (names : q.NamesApart)
    {tables : Nat → List BaseRow} (stores : cat.Stores kindOf tables) {spec : ViewSpec} (relations : spec.relations = a.relations) {ρ : Env}
    (member : ρ ∈ spec.joined (spec.tablesOf tables)) {t : TargetEntry Moment} (visible : t ∈ q.visible) {v : Nat × Int × Kind} (read : v ∈ t.expr.vars) :
    (a.placed ρ v.1 v.2.1).HasKind v.2.2 := by
  obtain ⟨rel, used, c, -, at_i, oid, inFacts, facts, name, kind, -⟩ := a.column_at formed analyzed (.inr (List.mem_map_of_mem visible)) read
  have row := ViewSpec.joined_row member (relations ▸ at_i)
  have typed := stores _ _ row c (by rw [oid, ← facts]; exact inFacts)
  rwa [Acceptance.placed, a.place names ((a.targets t visible).2 v read), ← name, ← kind]

section Aggregate

variable {a : Acceptance cat q} {v : Validated} {roles : List Role}
  (shape : AggregateShape a.deparser m q.groupClause q.visible (a.common m) v roles)
include shape

theorem AggregateShape.names_eq : roles.map Role.name = q.visible.map TargetEntry.name :=
  map_eq_of_forall₂ (shape.played.imp fun _ _ plays => plays.name)

/-- The spec of an accepted aggregate is one. -/
theorem AggregateShape.isAggregate : v.spec.IsAggregate (countOf roles) where
  shape := by rw [shape.spec]; rfl
  countAlias := by rw [shape.spec]; rfl
  distinct := by
    rw [shape.spec, (aggregateSpec_names (a.common m) shape.follow).nodup_iff, shape.names_eq]
    obtain ⟨once, reserved⟩ := shape.follow.hiddenOf
    apply List.Nodup.append a.names once
    intro name shown hidden
    obtain ⟨t, member, rfl⟩ := List.mem_map.mp shown
    have free := (a.targets t member).1
    rw [reserved _ hidden] at free
    cases free

omit shape in
theorem played_keys {deparser : Deparser} {refs : List Nat} {ts : List (TargetEntry Moment)} {roles : List Role}
    (played : List.Forall₂ (Plays deparser m refs) ts roles) :
    roles.filterMap Role.key? = (ts.filter fun t => t.grouped refs).map fun t => ⟨deparser.expr m t.expr, t.name⟩ := by
  induction played with
  | nil => rfl
  | @cons t role ts roles plays _ ih =>
      cases plays with
      | key grouped _ =>
          rw [List.filter_cons, if_pos grouped, List.map_cons, ← ih]
          rfl
      | count grouped _ _ _ =>
          rw [List.filter_cons, if_neg (Bool.eq_false_iff.mp grouped), ← ih]
          rfl
      | countExpr grouped _ _ _ =>
          rw [List.filter_cons, if_neg (Bool.eq_false_iff.mp grouped), ← ih]
          rfl
      | sum _ grouped _ _ _ =>
          rw [List.filter_cons, if_neg (Bool.eq_false_iff.mp grouped), ← ih]
          rfl

theorem AggregateShape.columns_eq : v.spec.columns =
    (q.visible.filter fun t => t.grouped q.groupClause).map fun t => ⟨a.deparser.expr m t.expr, t.name⟩ := by
  rw [← played_keys shape.played, shape.spec]
  rfl

theorem AggregateShape.keys_iff (analyzed : q.Analyzed kindOf cat) (ρ σ : Env) :
    q.groupKey m (a.placed ρ) = q.groupKey m (a.placed σ) ↔ v.spec.groupKeys ρ = v.spec.groupKeys σ := by
  have keys (ρ : Env) : v.spec.groupKeys ρ = (q.visible.filter fun t => t.grouped q.groupClause).map fun t => t.expr.eval m [] (a.placed ρ) := by
    rw [ViewSpec.groupKeys, shape.columns_eq, List.map_map]
    rfl
  rw [keys, keys, Query.groupKey, Query.groupKey, List.map_inj_left, List.map_inj_left]
  constructor
  · intro same t member
    obtain ⟨visible, grouped⟩ := List.mem_filter.mp member
    have both := grouped
    rw [TargetEntry.grouped, Bool.and_eq_true, List.contains_iff_mem, decide_eq_true_eq] at both
    have own := same t.ressortgroupref both.2
    cases found : q.targetList.find? (·.ressortgroupref = t.ressortgroupref) with
    | none => exact absurd (List.find?_eq_none.mp found t (List.mem_of_mem_filter visible)) (by simp)
    | some t' =>
        have is := of_decide_eq_true (List.find?_some (p := fun t' : TargetEntry Moment => decide (t'.ressortgroupref = t.ressortgroupref)) found)
        have equal := analyzed.refs t (List.mem_of_mem_filter visible) t' (List.mem_of_find?_eq_some found) both.1 is.symm
        subst equal
        simpa only [found] using own
  · intro same ref listed
    cases found : q.targetList.find? (·.ressortgroupref = ref) with
    | none => rfl
    | some t =>
        have is := of_decide_eq_true (List.find?_some (p := fun t : TargetEntry Moment => decide (t.ressortgroupref = ref)) found)
        obtain ⟨visible, grouped⟩ := a.keyTarget listed (List.mem_of_find?_eq_some found) (analyzed.grouped ref listed).1 is
        exact same t (List.mem_filter.mpr ⟨visible, grouped⟩)

omit shape in
theorem eval_plainCall (agg : AggFunction Moment) {how : AggCall} (distinct : how.aggdistinct = false) (args : List (Node Moment)) (group : List RowReader)
    (read : RowReader) : (Node.aggref agg how [] args []).eval m group read = agg.apply m (group.map fun row => args.map (Node.eval m [] row)) := by
  have all : group.filter (fun row => (Node.evalArgs m [] row []).all (· == .bool true)) = group := List.filter_eq_self.mpr fun _ _ => rfl
  simp only [Node.eval, all, distinct, Bool.false_eq_true, if_false]
  simp only [Node.evalArgs_eq, List.map_nil, List.nil_append]

theorem AggregateShape.countOf_eq {aliasName : String} (member : Role.count aliasName ∈ roles) : countOf roles = aliasName := by
  have counted := shape.follow.countAlias
  rw [show AggregateSpec.empty.countAlias.toList = [] from rfl, List.nil_append] at counted
  have listed : aliasName ∈ roles.filterMap Role.count? := List.mem_filterMap.mpr ⟨_, member, rfl⟩
  rw [countOf]
  rw [← counted] at listed ⊢
  have is := Option.mem_toList.mp listed
  rw [Option.mem_def.mp is]
  rfl

/-- The visible columns of a group are the select list over its rows. -/
theorem AggregateShape.row (analyzed : q.Analyzed kindOf cat) (numbers : q.SumsNumbers) {g : Env} {gs : List Env}
    (typed : ∀ σ ∈ g :: gs, ∀ t ∈ q.visible, ∀ x ∈ t.expr.vars, (a.placed σ x.1 x.2.1).HasKind x.2.2) :
    (v.spec.groupRow (v.spec.groupKeys g) (g :: gs)).columns v.visibleColumns = q.selectRow m ((g :: gs).map a.placed) (a.placed g) := by
  have view := shape.isAggregate
  have length : (v.spec.groupKeys g).length = v.spec.columns.length := List.length_map _
  rw [Record.columns, shape.visibleColumns, List.map_map, Query.selectRow]
  apply List.map_congr_left
  intro t member
  rw [Function.comp_apply, view.groupRow_eq]
  congr 1
  obtain ⟨i, here⟩ := List.mem_iff_getElem?.mp member
  obtain ⟨role, at_i, plays⟩ := forall₂_getElem? shape.played here
  have inRoles := List.mem_of_getElem? at_i
  have inTargets := List.mem_of_mem_filter member
  cases plays with
  | key grouped immutable =>
      have free := analyzed.plainKeys t inTargets grouped
      rw [Node.containAggClause, List.any_eq_false] at free
      have listed : OutputColumn.mk (a.deparser.expr m t.expr) t.name ∈ v.spec.columns := by
        rw [shape.spec]
        exact List.mem_filterMap.mpr ⟨_, inRoles, rfl⟩
      have read := view.rowKeys_layout length (.num (.fin (g :: gs).length)) (fun c => sqlCount ((g :: gs).map c.expr.eval))
        (fun su => (sqlSum ((g :: gs).map su.expr.eval), sqlCount ((g :: gs).map su.expr.eval)))
      rw [ViewSpec.rowKeys] at read
      have own := (List.map_inj_left.mp (read.trans rfl)) _ listed
      rw [t.expr.eval_group m _ _ fun n inside => Bool.eq_false_iff.mpr (free n inside)]
      exact own
  | @count agg how args grouped is plain star =>
      have none := analyzed.star t inTargets agg how args is star
      rw [← shape.countOf_eq inRoles, view.layout_count length, is, eval_plainCall agg plain.distinct, none, agg.countStar plain.builtin plain.name]
      · rw [List.length_map, List.length_map]
      · intro row inside
        obtain ⟨read, -, rfl⟩ := List.mem_map.mp inside
        rfl
  | @countExpr agg how arg grouped is plain immutable =>
      have listed : OutputColumn.mk (a.deparser.expr m arg) t.name ∈ v.spec.counts := by
        rw [shape.spec]
        exact List.mem_filterMap.mpr ⟨_, inRoles, rfl⟩
      have stored := view.layout_counts length (.num (.fin (g :: gs).length)) (fun c => sqlCount ((g :: gs).map c.expr.eval))
        (fun su => (sqlSum ((g :: gs).map su.expr.eval), sqlCount ((g :: gs).map su.expr.eval))) listed
      have split : (((g :: gs).map a.placed).map fun row => [arg].map (Node.eval m [] row)) =
          ((g :: gs).map (a.deparser.expr m arg).eval).map fun d => [d] := by
        rw [List.map_map, List.map_map]
        rfl
      rw [is, eval_plainCall agg plain.distinct, split, agg.count plain.builtin plain.name]
      exact stored
  | @sum agg how arg counter grouped is plain immutable =>
      have listed : SumSpec.mk (a.deparser.expr m arg) t.name counter ∈ v.spec.sums := by
        rw [shape.spec]
        exact List.mem_filterMap.mpr ⟨_, inRoles, rfl⟩
      have stored := (view.layout_sum length (.num (.fin (g :: gs).length)) (fun c => sqlCount ((g :: gs).map c.expr.eval))
        (fun su => (sqlSum ((g :: gs).map su.expr.eval), sqlCount ((g :: gs).map su.expr.eval))) listed).1
      have split : (((g :: gs).map a.placed).map fun row => [arg].map (Node.eval m [] row)) =
          ((g :: gs).map (a.deparser.expr m arg).eval).map fun d => [d] := by
        rw [List.map_map, List.map_map]
        rfl
      have kinds : ∀ d ∈ (g :: gs).map (a.deparser.expr m arg).eval, d.HasKind .numeric := by
        intro d inside
        obtain ⟨σ, inGroup, rfl⟩ := List.mem_map.mp inside
        rw [← numbers t member agg how arg is plain.builtin plain.name]
        apply Node.eval_typed
        intro x read
        apply typed σ inGroup t member x
        rw [is, Node.mem_vars]
        refine List.mem_cons_of_mem _ (List.mem_append_left _ (List.mem_append_right _ ?_))
        exact Node.mem_subnodesOf.mpr ⟨arg, List.mem_cons_self, Node.mem_vars.mp read⟩
      rw [is, eval_plainCall agg plain.distinct, split, agg.sum plain.builtin plain.name m _ kinds]
      exact stored

theorem AggregateShape.tabled : v.spec.Tabled where
  distinct := shape.isAggregate.distinct
  count := fun _ => by rw [shape.isAggregate.countAlias]; rfl

/-- The groups of an accepted aggregate, each with its row. -/
theorem AggregateShape.groups (analyzed : q.Analyzed kindOf cat) (numbers : q.SumsNumbers) {ρs : List Env}
    (typed : ∀ σ ∈ ρs, ∀ t ∈ q.visible, ∀ x ∈ t.expr.vars, (a.placed σ x.1 x.2.1).HasKind x.2.2) :
    (q.groups m (ρs.map a.placed)).map (fun group => q.selectRow m group (group.headD nothing)) =
      (v.spec.groupRows ρs).map (Record.columns v.visibleColumns) := by
  obtain ⟨reps, within, left, right⟩ := @dedup_representatives _ _ _ _ _ (fun ρ => q.groupKey m (a.placed ρ)) v.spec.groupKeys ρs fun ρ _ σ _ =>
    shape.keys_iff analyzed ρ σ
  have keys : ((ρs.map a.placed).map (q.groupKey m)).dedup = reps.map fun ρ => q.groupKey m (a.placed ρ) := by
    rw [List.map_map, ← left]
    rfl
  rw [Query.groups, ViewSpec.groupRows, keys, right, List.map_map, List.map_map, List.map_map, List.map_map]
  apply List.map_congr_left
  intro r member
  simp only [Function.comp_apply, List.filter_map]
  have members : ρs.filter ((fun read => decide (q.groupKey m read = q.groupKey m (a.placed r))) ∘ a.placed) =
      ρs.filter fun ρ => v.spec.groupKeys ρ = v.spec.groupKeys r := by
    apply List.filter_congr
    intro ρ _
    exact decide_eq_decide.mpr (shape.keys_iff analyzed ρ r)
  rw [members]
  have own : r ∈ ρs.filter fun ρ => v.spec.groupKeys ρ = v.spec.groupKeys r := List.mem_filter.mpr ⟨within member, decide_eq_true rfl⟩
  cases group : ρs.filter fun ρ => v.spec.groupKeys ρ = v.spec.groupKeys r with
  | nil =>
      rw [group] at own
      cases own
  | cons g gs =>
      have inside : ∀ σ ∈ g :: gs, σ ∈ ρs ∧ v.spec.groupKeys σ = v.spec.groupKeys r := by
        intro σ listed
        rw [← group, List.mem_filter, decide_eq_true_eq] at listed
        exact listed
      rw [← (inside g List.mem_cons_self).2, shape.row analyzed numbers fun σ listed => typed σ (inside σ listed).1]
      rfl

/-- What an accepted aggregate returns is the visible part of its groups. -/
theorem AggregateShape.result (formed : cat.WellFormed) (analyzed : q.Analyzed kindOf cat) (names : q.NamesApart) (transcribed : q.Transcribed)
    (numbers : q.SumsNumbers)
    {tables : Nat → List BaseRow} (stores : cat.Stores kindOf tables) :
    ∃ rows, q.result cat m tables = some rows ∧
      rows.Perm ((v.spec.evalQuery (v.spec.tablesOf tables)).map (Record.columns v.visibleColumns)) := by
  have predicate : v.spec.predicate = predicateOf (a.quals.map (a.deparser.expr m)) := by rw [shape.spec]; rfl
  have relations : v.spec.relations = a.relations := by rw [shape.spec]; rfl
  obtain ⟨fs, rows, reordered⟩ := Acceptance.fromRows analyzed names m predicate relations tables
  refine ⟨q.output m (fs.map fun f => q.reader cat (rowsOfAssignment f)), ?_, ?_⟩
  · rw [Query.result, a.plain transcribed, if_pos rfl, rows, Option.map_some]
  · have typed : ∀ σ ∈ fs.map (byPosition q.allowed), ∀ t ∈ q.visible, ∀ x ∈ t.expr.vars, (a.placed σ x.1 x.2.1).HasKind x.2.2 :=
      fun σ member t visible x read => Acceptance.placed_typed formed analyzed names stores relations (reordered.mem_iff.mp member) visible read
    rw [Acceptance.output_agree (a := a) names analyzed fs, Query.output, if_neg shape.grouped, shape.groups analyzed numbers typed]
    have grouped : v.spec.output (fs.map (byPosition q.allowed)) = v.spec.groupRows (fs.map (byPosition q.allowed)) := by
      rw [ViewSpec.output, shape.isAggregate.shape]
    rw [← grouped]
    exact (shape.tabled.output_perm reordered).map _

end Aggregate

def texteq : SqlFunction Nat where
  name := "texteq"
  volatility := .immutable
  kind := .bool
  apply := fun _ ds => match ds with
    | [.text s, .text t] => .bool (s == t)
    | _ => .null
  typed := by
    intro m ds
    split <;> trivial
  settled := fun _ _ _ _ => rfl

/-- `count`. -/
def countAny : AggFunction Nat where
  name := "count"
  builtin := true
  volatility := .immutable
  kind := .numeric
  apply := fun _ rows => .num (.fin (rows.filter (· ≠ [.null])).length)
  typed := fun _ _ => rfl
  settled := fun _ _ _ _ => rfl
  countStar := by
    intro _ _ _ rows none
    rw [List.filter_eq_self.mpr fun row member => by rw [none row member]; rfl]
  count := by
    intro _ _ _ ds
    have kept : (ds.map fun d => [d]).filter (· ≠ [.null]) = (ds.filter (· != .null)).map fun d => [d] := by
      rw [List.filter_map]
      congr 1
      apply List.filter_congr
      intro d _
      simp [bne, BEq.beq]
    rw [kept, List.length_map, sqlCount]
  sum := fun _ other => absurd other (by decide)
  builtins := fun _ _ => rfl

def shopFacts (relname : String) : RelationFacts where
  nspname := "public"
  relname := relname
  replident := "default"
  hasChildren := false
  namedView := false
  storedView := false
  attributes := [⟨1, "id", "text"⟩, ⟨2, "ref", "text"⟩, ⟨3, "doc", "jsonb"⟩]
  primaryKey := [(1, "id")]

def shopSystem : SystemCatalog where
  relation := fun relid => shopFacts (if relid = 1 then "orders" else "customers")
  reserved := fun _ => false

/-- `SELECT c.id AS customer, count(*) AS orders FROM orders o JOIN customers c ON o.ref = c.id
GROUP BY c.id`. -/
def perCustomer : Query Nat where
  commandType := .select
  setOperations := false
  cteList := false
  hasSubLinks := false
  hasWindowFuncs := false
  hasTargetSRFs := false
  hasDistinctOn := false
  distinctClause := false
  sortClause := false
  limitCount := false
  limitOffset := false
  havingQual := false
  groupingSets := false
  hasForUpdate := false
  rowMarks := false
  rtable := [⟨.relation, false, 1, 'r', false, some "o", []⟩, ⟨.relation, false, 2, 'r', false, some "c", []⟩, ⟨.join, false, 0, ' ', false, none, []⟩]
  jointree := .fromExpr [.joinExpr .inner (.rangeTblRef 1) (.rangeTblRef 2) (some (.opExpr ⟨"=", true, texteq⟩ [.var 1 2 0 .text, .var 2 1 0 .text]))] none
  targetList := [⟨.var 2 1 0 .text, some "customer", 1, false⟩, ⟨.aggref countAny ⟨.normal, true, false, false⟩ [] [] [], some "orders", 0, false⟩]
  groupClause := [1]
  hasAggs := true

theorem perCustomer_accepted : ∃ v, perCustomer.validate Platform.basic.kindOf shopSystem 0 = .ok v := ⟨_, rfl⟩

theorem shopSystem_wellFormed : shopSystem.WellFormed := by
  intro relid
  refine ⟨?_, ?_, ?_, ?_⟩
  · exact show [(1 : Int), 2, 3].Nodup by decide
  · exact show ["id", "ref", "doc"].Nodup by decide
  · intro k member
    rw [List.mem_singleton.mp (show k ∈ [((1 : Int), "id")] from member)]
    exact ⟨⟨1, "id", "text"⟩, List.mem_cons_self, rfl, rfl⟩
  · exact show ["id"].Nodup by decide

theorem perCustomer_names : perCustomer.NamesApart where
  named := by
    intro entry member
    rcases List.mem_cons.mp (show entry ∈ [_, _] from member) with rfl | second
    · rfl
    · rw [List.mem_singleton.mp second]
      rfl
  distinct := fun _ => show [some "o", some "c"].Nodup by decide
  bare := by
    intro _ entry member
    rcases List.mem_cons.mp (show entry ∈ [_, _] from member) with rfl | second
    · rfl
    · rw [List.mem_singleton.mp second]

theorem perCustomer_analyzed : perCustomer.Analyzed Platform.basic.kindOf shopSystem where
  once := fun _ => List.Perm.refl [1, 2]
  inScope := by
    intro m
    refine ⟨⟨⟨trivial, trivial, ?_⟩, trivial⟩, fun _ none => by cases none⟩
    intro e is v read
    cases is
    have listed : v ∈ [(1, "ref", Kind.text), (2, "id", Kind.text)] := read
    rcases List.mem_cons.mp listed with rfl | second
    · exact List.mem_cons_self
    · rw [List.mem_singleton.mp second]
      exact List.mem_cons_of_mem _ List.mem_cons_self
  columns := by
    intro node occurs v read _ _
    have one : v = (1, 2, Kind.text) ∨ v = (2, 1, Kind.text) := by
      rcases occurs with ⟨quals, walked, member⟩ | target
      · cases walked
        rw [List.mem_singleton.mp member] at read
        have listed : v ∈ [(1, (2 : Int), Kind.text), (2, 1, Kind.text)] := read
        simpa using listed
      · rcases List.mem_cons.mp target with rfl | second
        · exact .inr (List.mem_singleton.mp read)
        · rw [List.mem_singleton.mp second] at read
          cases read
    rcases one with rfl | rfl
    · exact ⟨⟨2, "ref", "text"⟩, List.mem_cons_of_mem _ List.mem_cons_self, rfl, rfl⟩
    · exact ⟨⟨1, "id", "text"⟩, List.mem_cons_self, rfl, rfl⟩
  grouped := by
    intro ref member
    rw [List.mem_singleton.mp member]
    exact ⟨Nat.one_ne_zero, _, List.mem_cons_self, rfl⟩
  refs := by
    intro t member t' member' nonzero same
    rcases List.mem_cons.mp member with rfl | second
    · rcases List.mem_cons.mp member' with rfl | second'
      · rfl
      · rw [List.mem_singleton.mp second'] at same
        cases same
    · rw [List.mem_singleton.mp second] at nonzero
      exact absurd rfl nonzero
  plainKeys := by
    intro t member grouped
    rcases List.mem_cons.mp member with rfl | second
    · rfl
    · rw [List.mem_singleton.mp second] at grouped
      cases grouped
  star := by
    intro t member agg how args is _
    rcases List.mem_cons.mp member with rfl | second
    · cases is
    · rw [List.mem_singleton.mp second] at is
      cases is
      rfl

end Nabla
