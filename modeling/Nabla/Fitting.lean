import Nabla.Result
import Nabla.Incremental

/-! What `validate` accepts is what the worker maintains: the spec it makes fits the tables, its
expressions read recorded columns only, and its join keys are equated by every joined row. -/
namespace Nabla
open Bags

variable {Moment : Type} {cat : SystemCatalog} {q : Query Moment} {kindOf : String → Kind} {m : Moment}

theorem foldl_and_vars {ps : List SqlExpr} {p : SqlExpr} {x : Nat × String × Kind} :
    x ∈ (ps.foldl SqlExpr.and p).vars ↔ x ∈ p.vars ∨ ∃ e ∈ ps, x ∈ e.vars := by
  induction ps generalizing p with
  | nil => simp
  | cons e ps ih =>
      rw [List.foldl_cons, ih, SqlExpr.and, List.mem_append, List.exists_mem_cons_iff, or_assoc]

theorem predicateOf_vars {ps : List SqlExpr} {p : SqlExpr} (is : predicateOf ps = some p) {x : Nat × String × Kind} (member : x ∈ p.vars) :
    ∃ e ∈ ps, x ∈ e.vars := by
  cases ps with
  | nil => cases is
  | cons e ps =>
      cases is
      exact List.exists_mem_cons_iff .. |>.mpr (foldl_and_vars.mp member)

/-- A relation of the view has this column, of a type of this kind, among the used ones. -/
def UsedColumn (kindOf : String → Kind) (relations : List BaseRelation) (x : Nat × String × Kind) : Prop :=
  ∃ used, relations[x.1]? = some used ∧ ∃ ty, (x.2.1, ty) ∈ used.usedColumns.zip used.usedColumnTypes ∧ kindOf ty = x.2.2

section Acceptance

variable {a : Acceptance cat q} (formed : cat.WellFormed) (analyzed : q.Analyzed kindOf cat) (names : q.NamesApart)
include formed analyzed names

theorem Acceptance.expr_reads {node : Node Moment} (reads : node ∈ a.quals ∨ node ∈ q.visible.map TargetEntry.expr) {part : Node Moment}
    (within : part.vars ⊆ node.vars) {x : Nat × String × Kind} (member : x ∈ (a.deparser.expr m part).vars) : UsedColumn kindOf a.relations x := by
  obtain ⟨v, read, rfl⟩ := List.mem_map.mp member
  have allowed : v.1 ∈ q.allowed := by
    rcases reads with qual | target
    · exact (a.conditions node qual).2 v (within read)
    · obtain ⟨t, visible, rfl⟩ := List.mem_map.mp target
      exact (a.targets t visible).2 v (within read)
  obtain ⟨rel, used, c, -, at_i, -, -, -, name, kind, zipped⟩ := a.column_at formed analyzed reads (within read)
  rw [a.place names allowed]
  exact ⟨used, at_i, c.formatType, name ▸ zipped, kind⟩

theorem Acceptance.predicate_reads {p : SqlExpr} (is : predicateOf (a.quals.map (a.deparser.expr m)) = some p) {x : Nat × String × Kind}
    (member : x ∈ p.vars) : UsedColumn kindOf a.relations x := by
  obtain ⟨e, inQuals, inside⟩ := predicateOf_vars is member
  obtain ⟨qual, listed, rfl⟩ := List.mem_map.mp inQuals
  exact Acceptance.expr_reads formed analyzed names (.inl listed) (List.Subset.refl _) inside

theorem Acceptance.shown_reads {o : OutputColumn} (shown : o ∈ shownColumns a.deparser m q.visible) {x : Nat × String × Kind} (member : x ∈ o.expr.vars) :
    UsedColumn kindOf a.relations x := by
  obtain ⟨t, visible, rfl⟩ := List.mem_map.mp shown
  exact Acceptance.expr_reads formed analyzed names (.inr (List.mem_map_of_mem visible)) (List.Subset.refl _) member

omit names analyzed in
theorem Acceptance.key_used (join : q.isJoin = true) {i : Nat} {rel : ListedRelation} {used : BaseRelation} (here : a.rels[i]? = some rel)
    (at_i : a.relations[i]? = some used) {k : Int × String} (member : k ∈ rel.facts.primaryKey) :
    ∃ c ∈ rel.facts.attributes, c.attnum = k.1 ∧ c.attname = k.2 ∧ (c.attname, c.formatType) ∈ used.usedColumns.zip used.usedColumnTypes := by
  obtain ⟨used', at_i', own⟩ := forall₂_getElem? a.used here
  rw [show a.relations[i]? = some used from at_i, Option.some.injEq] at at_i'
  subst at_i'
  have ordinary := a.ordinary rel (List.mem_of_getElem? here)
  have formed' : rel.facts.WellFormed := ordinary.facts ▸ formed rel.entry.rte.relid
  obtain ⟨c, listed, number, name⟩ := formed'.key k member
  refine ⟨c, listed, number, name, ?_⟩
  obtain ⟨kept, is, columns, types⟩ := own.columns
  rw [columns, types, List.zip_map', is]
  refine List.mem_map_of_mem (f := fun c : Attribute => (c.attname, c.formatType)) (List.mem_filter.mpr ⟨listed, ?_⟩)
  rw [List.contains_iff_mem, ListedRelation.reads, join, if_pos rfl, name]
  exact List.mem_append_right _ (List.mem_map_of_mem member)

omit formed analyzed in
theorem Acceptance.mem_hiddenKeys (join : q.isJoin = true) {o : OutputColumn} : o ∈ hiddenKeys kindOf a.aliases a.rels ↔
    ∃ i rel k, a.rels[i]? = some rel ∧ k ∈ rel.facts.primaryKey ∧ o = ⟨.column i k.2 (rel.facts.keyKind kindOf k), hiddenKey rel.rti k.2⟩ := by
  have position {i : Nat} {rel : ListedRelation} (here : a.rels[i]? = some rel) : a.aliases.idxOf rel.aliasName = i :=
    idxOf_map_of_nodup (f := ListedRelation.aliasName) (a.aliases_nodup names join) here
  simp only [hiddenKeys, List.mem_flatMap, List.mem_map]
  constructor
  · rintro ⟨rel, member, k, key, rfl⟩
    obtain ⟨i, here⟩ := List.mem_iff_getElem?.mp member
    exact ⟨i, rel, k, here, key, by rw [position here]⟩
  · rintro ⟨i, rel, k, here, key, rfl⟩
    exact ⟨rel, List.mem_of_getElem? here, k, key, by rw [position here]⟩

omit analyzed in
theorem Acceptance.hidden_reads (join : q.isJoin = true) {o : OutputColumn} (hidden : o ∈ hiddenKeys kindOf a.aliases a.rels) {x : Nat × String × Kind}
    (member : x ∈ o.expr.vars) : UsedColumn kindOf a.relations x := by
  obtain ⟨i, rel, k, here, key, rfl⟩ := (Acceptance.mem_hiddenKeys (a := a) names join).mp hidden
  rw [show x = (i, k.2, rel.facts.keyKind kindOf k) from List.mem_singleton.mp member]
  obtain ⟨used, at_i, -⟩ := forall₂_getElem? a.used here
  obtain ⟨c, listed, number, name, zipped⟩ := Acceptance.key_used formed join here at_i key
  have formed' : rel.facts.WellFormed := (a.ordinary rel (List.mem_of_getElem? here)).facts ▸ formed rel.entry.rte.relid
  refine ⟨used, at_i, c.formatType, name ▸ zipped, ?_⟩
  rw [RelationFacts.keyKind, RelationFacts.atttype, ← number, formed'.attribute listed]
  rfl

end Acceptance

section Shapes

variable {a : Acceptance cat q} {v : Validated} (formed : cat.WellFormed) (analyzed : q.Analyzed kindOf cat) (names : q.NamesApart)

theorem Acceptance.Made.relations (made : a.Made kindOf m v) : v.spec.relations = a.relations := by
  rcases made with ⟨-, roles, shape⟩ | ⟨-, shape⟩
  · rw [shape.spec]
    rfl
  · exact shape.shape_eq.2.2.1

theorem Acceptance.Made.predicate (made : a.Made kindOf m v) : v.spec.predicate = predicateOf (a.quals.map (a.deparser.expr m)) := by
  rcases made with ⟨-, roles, shape⟩ | ⟨-, shape⟩
  · rw [shape.spec]
    rfl
  · exact shape.shape_eq.2.1

theorem forall₂_of_mem_right {α β : Type} {R : α → β → Prop} {xs : List α} {ys : List β} (related : List.Forall₂ R xs ys) {y : β} (member : y ∈ ys) :
    ∃ x ∈ xs, R x y := by
  induction related with
  | nil => cases member
  | cons own _ ih =>
      rcases List.mem_cons.mp member with rfl | rest
      · exact ⟨_, List.mem_cons_self, own⟩
      · obtain ⟨x, inside, holds⟩ := ih rest
        exact ⟨x, List.mem_cons_of_mem _ inside, holds⟩

theorem argument_vars {agg : AggFunction Moment} {how : AggCall} {arg : Node Moment} : arg.vars ⊆ (Node.aggref agg how [] [arg] []).vars := by
  intro x read
  rw [Node.mem_vars]
  refine List.mem_cons_of_mem _ (List.mem_append_left _ (List.mem_append_right _ ?_))
  exact Node.mem_subnodesOf.mpr ⟨arg, List.mem_cons_self, Node.mem_vars.mp read⟩

include formed analyzed names

/-- Every expression of the spec reads used columns. -/
theorem Acceptance.Made.reads (made : a.Made kindOf m v) : ∀ e ∈ v.spec.exprs, ∀ x ∈ e.vars, UsedColumn kindOf a.relations x := by
  intro e member x read
  have predicate (inside : e ∈ v.spec.predicate.toList) : UsedColumn kindOf a.relations x := by
    rw [made.predicate] at inside
    exact Acceptance.predicate_reads formed analyzed names (Option.mem_toList.mp inside) read
  rcases made with ⟨-, roles, shape⟩ | ⟨-, shape⟩
  · have part {t : TargetEntry Moment} (visible : t ∈ q.visible) {agg : AggFunction Moment} {how : AggCall} {arg : Node Moment}
        (is : t.expr = .aggref agg how [] [arg] []) (own : e = a.deparser.expr m arg) : UsedColumn kindOf a.relations x :=
      Acceptance.expr_reads formed analyzed names (.inr (List.mem_map_of_mem visible)) (is ▸ argument_vars) (own ▸ read)
    have none : v.spec.selectList = [] := by rw [shape.spec]; rfl
    simp only [ViewSpec.exprs, none, List.map_nil, List.append_nil, List.mem_append] at member
    rcases member with ((inPredicate | inColumns) | inCounts) | inSums
    · exact predicate inPredicate
    · rw [shape.columns_eq, List.map_map] at inColumns
      obtain ⟨t, inside, rfl⟩ := List.mem_map.mp inColumns
      exact Acceptance.expr_reads formed analyzed names (.inr (List.mem_map_of_mem (List.mem_of_mem_filter inside))) (List.Subset.refl _) read
    · rw [shape.spec] at inCounts
      obtain ⟨o, inside, rfl⟩ := List.mem_map.mp inCounts
      obtain ⟨role, inRoles, is⟩ := List.mem_filterMap.mp inside
      obtain ⟨t, visible, plays⟩ := forall₂_of_mem_right shape.played inRoles
      cases plays with
      | countExpr _ isCall _ _ =>
          cases is
          exact part visible isCall rfl
      | _ => cases is
    · rw [shape.spec] at inSums
      obtain ⟨su, inside, rfl⟩ := List.mem_map.mp inSums
      obtain ⟨role, inRoles, is⟩ := List.mem_filterMap.mp inside
      obtain ⟨t, visible, plays⟩ := forall₂_of_mem_right shape.played inRoles
      cases plays with
      | sum _ _ isCall _ _ =>
          cases is
          exact part visible isCall rfl
      | _ => cases is
  · have shown (inside : e ∈ (shownColumns a.deparser m q.visible).map OutputColumn.expr) : UsedColumn kindOf a.relations x := by
      obtain ⟨o, listed, rfl⟩ := List.mem_map.mp inside
      exact Acceptance.shown_reads formed analyzed names listed read
    rw [shape.spec] at member predicate
    cases join : q.isJoin with
    | true =>
        rw [join, if_pos rfl] at member predicate
        simp only [ViewSpec.exprs, joinSpec, Acceptance.common, commonSpec, List.map_nil, List.append_nil, List.mem_append, List.map_append] at member predicate
        rcases member with (inPredicate | inShown | inHidden) | inColumns
        · exact predicate inPredicate
        · exact shown inShown
        · obtain ⟨o, listed, rfl⟩ := List.mem_map.mp inHidden
          exact Acceptance.hidden_reads formed names join listed read
        · exact shown inColumns
    | false =>
        rw [join, if_neg Bool.false_ne_true] at member predicate
        simp only [ViewSpec.exprs, tableSpec, Acceptance.common, commonSpec, List.map_nil, List.append_nil, List.mem_append] at member predicate
        rcases member with (inPredicate | inShown) | inColumns
        · exact predicate inPredicate
        · exact shown inShown
        · exact shown inColumns

/-- Every column an accepted view reads is recorded. -/
theorem Acceptance.Made.closed (made : a.Made kindOf m v) : v.spec.Closed := by
  intro e member x read
  obtain ⟨used, at_i, ty, zipped, -⟩ := made.reads formed analyzed names e member x read
  exact ⟨used, made.relations ▸ at_i, (List.of_mem_zip zipped).1⟩

end Shapes

/-- The published tables of a view are the ones of the catalog. -/
structure Schema.Agrees {pf : Platform} (S : Schema pf) (cat : SystemCatalog) (q : Query Moment) : Prop where
  columns : ∀ entry ∈ q.entries, (S.relation entry.rte.relid).columns.map (fun c => (c.name, c.typeName)) =
    (cat.relation entry.rte.relid).attributes.map fun c => (c.attname, some c.formatType)
  key : ∀ entry ∈ q.entries, S.primaryKey entry.rte.relid = (cat.relation entry.rte.relid).pkColumns

section Fits

variable {pf : Platform} {S : Schema pf} {a : Acceptance cat q} {v : Validated}

theorem Acceptance.oids_nodup (a : Acceptance cat q) : (a.relations.map BaseRelation.oid).Nodup := by
  rw [map_eq_of_forall₂ (a.used.imp fun _ _ used => used.oid)]
  exact a.once

/-- A relation of the spec is one that was listed. -/
theorem Acceptance.listed (a : Acceptance cat q) {i : Nat} {used : BaseRelation} (at_i : a.relations[i]? = some used) :
    ∃ rel, a.rels[i]? = some rel ∧ rel.entry ∈ q.entries ∧ rel.Ordinary cat q.isJoin ∧
      rel.Used q.isJoin (a.quals.flatMap Node.referencedVars ++ q.visible.flatMap fun t => t.expr.referencedVars) (a.quals.flatMap Node.joinKeyVars) used := by
  have flipped : List.Forall₂ (fun used rel => rel.Used q.isJoin
      (a.quals.flatMap Node.referencedVars ++ q.visible.flatMap fun t => t.expr.referencedVars) (a.quals.flatMap Node.joinKeyVars) used) a.relations a.rels :=
    List.Forall₂.flip a.used
  obtain ⟨rel, here, own⟩ := forall₂_getElem? flipped at_i
  have inside := List.mem_of_getElem? here
  exact ⟨rel, here, a.mem_entries inside, a.ordinary rel inside, own⟩

theorem Node.toExpr_plain (m : Moment) (place : Nat → Int → Nat × String) {node : Node Moment} {varno : Nat} {attno : Int}
    (plain : node.isPlainVar varno attno = true) :
    ∃ kind, (varno, attno, kind) ∈ node.vars ∧ node.toExpr m place = .column (place varno attno).1 (place varno attno).2 kind := by
  rw [Node.isPlainVar, beq_iff_eq] at plain
  cases node with
  | var varno' attno' level kind =>
      cases level with
      | zero =>
          cases plain
          exact ⟨kind, List.mem_cons_self, rfl⟩
      | succ level => cases plain
  | _ => cases plain

section Keys

variable (formed : cat.WellFormed) (names : q.NamesApart) (single : q.isJoin = false)
include formed names single

/-- Every key column of a single table is selected under a name of its own. -/
theorem ProjectionShape.selected (shape : ProjectionShape kindOf a.deparser m q.isJoin a.rels a.first q.groupClause q.visible (a.common m) v) :
    List.Forall₂ (fun k name => (a.first.entry.rtIndex, k.1) ∈ (q.visible.flatMap fun t => t.expr.referencedVars) ∧
      ∃ kind, OutputColumn.mk (.column 0 k.2 kind) name ∈ v.spec.selectList) a.first.facts.primaryKey v.spec.pkViewColumns := by
  have isSpec := shape.spec
  rw [single, if_neg Bool.false_ne_true] at isSpec
  have picked := selectedKeys_ok (shape.keyed single).2
  have keys : v.spec.pkViewColumns = (selectedKeys a.first.entry.rtIndex q.visible a.first.facts.primaryKey).1 := by rw [isSpec]; rfl
  rw [keys]
  have first : a.first ∈ a.rels := List.mem_cons_self
  have formed' : a.first.facts.WellFormed := (a.ordinary _ first).facts ▸ formed a.first.entry.rte.relid
  have both : List.Forall₂ (fun k name => k ∈ a.first.facts.primaryKey ∧
      ∃ t ∈ q.visible, t.expr.isPlainVar a.first.entry.rtIndex k.1 = true ∧ t.name = name) a.first.facts.primaryKey
      (selectedKeys a.first.entry.rtIndex q.visible a.first.facts.primaryKey).1 := (List.forall₂_and_left _ _).mpr ⟨fun k member => member, picked⟩
  refine both.imp ?_
  rintro k name ⟨inKey, t, visible, plain, rfl⟩
  obtain ⟨kind, read, is⟩ := Node.toExpr_plain m a.deparser.place plain
  refine ⟨List.mem_flatMap.mpr ⟨t, visible, List.mem_map.mpr ⟨_, read, rfl⟩⟩, kind, ?_⟩
  have within : a.first.entry.rtIndex ∈ q.allowed := List.mem_map_of_mem (a.mem_entries first)
  have position : q.allowed.idxOf a.first.entry.rtIndex = 0 := by
    rw [a.allowed_eq]
    exact List.idxOf_cons_self
  obtain ⟨c, listed, number, name⟩ := formed'.key k inKey
  have column : q.column cat a.first.entry.rtIndex k.1 = k.2 := by
    rw [Query.column, Query.facts, Query.relid_of_mem (a.mem_entries first), ← (a.ordinary _ first).facts, ← number, formed'.attname listed, name]
  rw [a.place names within, position, column] at is
  rw [isSpec]
  refine List.mem_map.mpr ⟨t, visible, ?_⟩
  rw [Deparser.expr, is]

end Keys

theorem Acceptance.Made.isJoin (made : a.Made kindOf m v) : v.spec.isJoin = q.isJoin := by
  have size : a.relations.length = q.entries.length := by
    rw [a.entries_length]
    exact a.used.length_eq.symm
  rw [ViewSpec.isJoin, made.relations, size, Query.isJoin]

theorem Acceptance.Made.projection (made : a.Made kindOf m v) (projects : v.spec.shape = .projection) :
    ProjectionShape kindOf a.deparser m q.isJoin a.rels a.first q.groupClause q.visible (a.common m) v := by
  rcases made with ⟨-, roles, shape⟩ | ⟨-, shape⟩
  · rw [shape.isAggregate.shape] at projects
    cases projects
  · exact shape

theorem Acceptance.key_of (a : Acceptance cat q) (agrees : S.Agrees cat q) {i : Nat} {rel : ListedRelation} {used : BaseRelation}
    (here : a.rels[i]? = some rel) (at_i : a.relations[i]? = some used) : S.primaryKey used.oid = rel.facts.primaryKey.map Prod.snd := by
  obtain ⟨rel', here', inside, ordinary, own⟩ := a.listed at_i
  rw [here, Option.some.injEq] at here'
  subst here'
  rw [own.oid, agrees.key rel.entry inside, ← ordinary.facts]
  rfl

/-- The key columns of a projection are selected at the position of their table. -/
theorem ProjectionShape.keys (formed : cat.WellFormed) (names : q.NamesApart)
    (shape : ProjectionShape kindOf a.deparser m q.isJoin a.rels a.first q.groupClause q.visible (a.common m) v) :
    (∀ c ∈ v.spec.pkViewColumns, ∃ i rel k kind, a.rels[i]? = some rel ∧ k ∈ rel.facts.primaryKey ∧ OutputColumn.mk (.column i k.2 kind) c ∈ v.spec.selectList) ∧
      ∀ i rel, a.rels[i]? = some rel → ∀ k ∈ rel.facts.primaryKey, ∃ c ∈ v.spec.pkViewColumns, ∃ kind,
        OutputColumn.mk (.column i k.2 kind) c ∈ v.spec.selectList := by
  cases join : q.isJoin with
  | true =>
      have isSpec := shape.spec
      rw [join, if_pos rfl] at isSpec
      have columns : v.spec.pkViewColumns = (hiddenKeys kindOf a.aliases a.rels).map OutputColumn.aliasName := by
        rw [hiddenKeys_names, isSpec]
        rfl
      have selected : hiddenKeys kindOf a.aliases a.rels ⊆ v.spec.selectList := by
        rw [isSpec]
        exact List.subset_append_right _ _
      rw [columns]
      constructor
      · intro c member
        obtain ⟨o, hidden, rfl⟩ := List.mem_map.mp member
        obtain ⟨i, rel, k, here, key, is⟩ := (Acceptance.mem_hiddenKeys (a := a) names join).mp hidden
        subst is
        exact ⟨i, rel, k, _, here, key, selected hidden⟩
      · intro i rel here k key
        have hidden : ⟨.column i k.2 (rel.facts.keyKind kindOf k), hiddenKey rel.rti k.2⟩ ∈ hiddenKeys kindOf a.aliases a.rels :=
          (Acceptance.mem_hiddenKeys (a := a) names join).mpr ⟨i, rel, k, here, key, rfl⟩
        exact ⟨_, List.mem_map_of_mem hidden, _, selected hidden⟩
  | false =>
      have picked := shape.selected formed names join
      have first : a.rels[0]? = some a.first := rfl
      constructor
      · intro c member
        obtain ⟨k, key, -, kind, selected⟩ := forall₂_of_mem_right picked member
        exact ⟨0, a.first, k, kind, first, key, selected⟩
      · intro i rel here k key
        rw [a.single_rels join] at here
        cases i with
        | succ i => cases here
        | zero =>
            cases here
            obtain ⟨c, member, -, kind, selected⟩ := forall₂_of_mem_right (List.Forall₂.flip picked) key
            exact ⟨c, member, kind, selected⟩

theorem ProjectionShape.key_used (formed : cat.WellFormed) (names : q.NamesApart) (single : q.isJoin = false)
    (shape : ProjectionShape kindOf a.deparser m q.isJoin a.rels a.first q.groupClause q.visible (a.common m) v) {rel : ListedRelation} {used : BaseRelation}
    (here : rel ∈ a.rels) (own : rel.Used q.isJoin (a.quals.flatMap Node.referencedVars ++ q.visible.flatMap fun t => t.expr.referencedVars)
      (a.quals.flatMap Node.joinKeyVars) used) {k : Int × String} (key : k ∈ rel.facts.primaryKey) : k.2 ∈ used.usedColumns := by
  have formed' : rel.facts.WellFormed := (a.ordinary rel here).facts ▸ formed rel.entry.rte.relid
  rw [a.single_rels single, List.mem_singleton] at here
  subst here
  obtain ⟨c, -, read, -⟩ := forall₂_of_mem_right (List.Forall₂.flip (shape.selected formed names single)) key
  obtain ⟨c, listed, number, name⟩ := formed'.key k key
  obtain ⟨kept, is, columns, -⟩ := own.columns
  rw [columns, is]
  refine List.mem_map.mpr ⟨c, List.mem_filter.mpr ⟨listed, ?_⟩, name⟩
  rw [List.contains_iff_mem]
  refine List.mem_append_left _ (List.mem_map.mpr ⟨_, List.mem_filter.mpr ⟨List.mem_append_right _ read, decide_eq_true rfl⟩, ?_⟩)
  rw [← number, formed'.attname listed]

/-- An accepted projection, and an accepted aggregate over a join, fits the published tables. -/
theorem Acceptance.Made.fits (made : a.Made pf.kindOf m v) (formed : cat.WellFormed) (analyzed : q.Analyzed pf.kindOf cat) (names : q.NamesApart)
    (agrees : S.Agrees cat q) (maintained : v.spec.isJoin = true ∨ v.spec.shape = .projection) : v.spec.Fits S where
  tabled := by
    rcases made with ⟨-, roles, shape⟩ | ⟨-, shape⟩
    · exact shape.tabled
    · refine ⟨?_, fun other => by rw [shape.shape_eq.1] at other; cases other⟩
      rw [ViewSpec.tableColumns, shape.shape_eq.1, List.map_map]
      exact shape.distinct formed
  oids := made.relations ▸ a.oids_nodup
  used := by
    rw [made.relations]
    intro b member
    obtain ⟨i, at_i⟩ := List.mem_iff_getElem?.mp member
    obtain ⟨rel, -, -, -, own⟩ := a.listed at_i
    obtain ⟨kept, -, columns, types⟩ := own.columns
    rw [columns, types, List.length_map, List.length_map]
  provided := by
    rw [made.relations]
    intro b member p zipped
    obtain ⟨i, at_i⟩ := List.mem_iff_getElem?.mp member
    obtain ⟨rel, -, inside, ordinary, own⟩ := a.listed at_i
    obtain ⟨kept, is, columns, types⟩ := own.columns
    rw [columns, types, List.zip_map'] at zipped
    obtain ⟨c, inKept, rfl⟩ := List.mem_map.mp zipped
    rw [is] at inKept
    have listed : (c.attname, some c.formatType) ∈ (S.relation b.oid).columns.map fun c => (c.name, c.typeName) := by
      rw [own.oid, agrees.columns rel.entry inside, ← ordinary.facts]
      exact List.mem_map_of_mem (f := fun c : Attribute => (c.attname, some c.formatType)) (List.mem_of_mem_filter inKept)
    obtain ⟨c', there, same⟩ := List.mem_map.mp listed
    rw [Prod.mk.injEq] at same
    exact List.any_eq_true.mpr ⟨c', there, by rw [same.1, same.2]; simp⟩
  key := by
    rw [made.relations]
    intro b member name inKey
    obtain ⟨i, at_i⟩ := List.mem_iff_getElem?.mp member
    obtain ⟨rel, here, -, -, own⟩ := a.listed at_i
    rw [a.key_of agrees here at_i] at inKey
    obtain ⟨k, key, rfl⟩ := List.mem_map.mp inKey
    cases join : q.isJoin with
    | true =>
        obtain ⟨c, -, -, name, zipped⟩ := Acceptance.key_used formed join here at_i key
        exact name ▸ (List.of_mem_zip zipped).1
    | false =>
        have projects : v.spec.shape = .projection := by
          rcases maintained with joins | projects
          · rw [made.isJoin, join] at joins
            cases joins
          · exact projects
        exact (made.projection projects).key_used formed names join (List.mem_of_getElem? here) own key
  vars := by
    intro e member x read
    obtain ⟨used, at_x, ty, zipped, kind⟩ := made.reads formed analyzed names e member x read
    exact ⟨used, made.relations ▸ at_x, ty, zipped, kind⟩
  keyColumn := by
    rw [made.relations]
    intro projects c member
    obtain ⟨i, rel, k, kind, here, key, selected⟩ := ((made.projection projects).keys formed names).1 c member
    obtain ⟨used, at_i, -⟩ := forall₂_getElem? a.used here
    exact ⟨i, used, k.2, kind, at_i, a.key_of agrees here at_i ▸ List.mem_map_of_mem key, selected⟩
  keyCover := by
    rw [made.relations]
    intro projects i b at_i name inKey
    obtain ⟨rel, here, -⟩ := a.listed at_i
    rw [a.key_of agrees here at_i] at inKey
    obtain ⟨k, key, rfl⟩ := List.mem_map.mp inKey
    exact ((made.projection projects).keys formed names).2 i rel here k key

end Fits

/-- The spec of an accepted projection, and of an accepted aggregate over a join, fits the
published tables. -/
theorem Query.validate_fits {pf : Platform} {S : Schema pf} (formed : cat.WellFormed) (analyzed : q.Analyzed pf.kindOf cat) (names : q.NamesApart)
    (agrees : S.Agrees cat q) {v : Validated} (accepted : q.validate pf.kindOf cat m = .ok v)
    (maintained : v.spec.isJoin = true ∨ v.spec.shape = .projection) : v.spec.Fits S := by
  obtain ⟨a, made⟩ := Query.validate_made accepted
  exact made.fits formed analyzed names agrees maintained

theorem perCustomer_fits : ∃ v, perCustomer.validate Platform.basic.kindOf shopSystem 0 = .ok v ∧ v.spec.Fits shop := by
  have agrees : shop.Agrees shopSystem perCustomer := ⟨fun _ _ => rfl, fun _ _ => rfl⟩
  obtain ⟨v, accepted⟩ := perCustomer_accepted
  have join : v.spec.isJoin = true := by
    cases accepted
    rfl
  exact ⟨v, accepted, Query.validate_fits shopSystem_wellFormed perCustomer_analyzed perCustomer_names agrees accepted (.inl join)⟩

end Nabla
