import Nabla.Join

/-! The storage table of a view against the rows its query ranges over: the planned
rows of one contribution keep the table equal to the query's result. -/
namespace Nabla
open Bags

/-- `jsonb` carries the row: no column that goes through it holds the JSON null. -/
def ViewSpec.Carries (spec : ViewSpec) (ρ : Env) : Prop :=
  match spec.shape with
  | .projection => ∀ o ∈ spec.selectList, o.expr.eval ρ ≠ .jsonNull
  | .aggregate => ∀ o ∈ spec.columns, o.expr.eval ρ ≠ .jsonNull

/-- The arguments of every `sum()` are NULL or exact finite numbers. -/
def ViewSpec.ExactSums (spec : ViewSpec) (ρ : Env) : Prop := ∀ su ∈ spec.sums, (su.expr.eval ρ).Finite

def ViewSpec.viewKey (spec : ViewSpec) (r : Record) : List Datum := spec.pkViewColumns.map r.get

/-- A row combination the storage table can take. -/
structure ViewSpec.Storable (spec : ViewSpec) (ρ : Env) : Prop where
  typed : ∀ e ∈ spec.exprs, (e.eval ρ).HasKind e.kind
  carried : spec.Carries ρ
  exact : spec.ExactSums ρ
  key : spec.shape = .projection → ∀ c ∈ spec.pkViewColumns, (spec.selectRow ρ).get c ≠ .null

/-- A projection's key tells the row combinations apart. -/
def ViewSpec.Unique (spec : ViewSpec) (M : List Env) : Prop :=
  spec.shape = .projection → Keyed (fun ρ => spec.viewKey (spec.selectRow ρ)) M

theorem ViewSpec.Unique.perm {spec : ViewSpec} {M N : List Env} (unique : spec.Unique M) (same : M.Perm N) :
    spec.Unique N := fun shape => (unique shape).perm same

theorem ViewSpec.Unique.of_append {spec : ViewSpec} {M N : List Env} (unique : spec.Unique (M ++ N)) :
    spec.Unique N := by
  intro shape
  have all := unique shape
  rw [Keyed, List.map_append] at all
  exact (List.nodup_append.mp all).2.1

def ViewSpec.deltaOps (spec : ViewSpec) (sign : Sign) (K : List Env) : List Op :=
  (spec.output K).map fun r => .row sign r.toJsonb

theorem ViewSpec.Closed.deltaRows_eq {spec : ViewSpec} (closed : spec.Closed) {tables : List (List BaseRow)}
    (length : tables.length = spec.relations.length) (sign : Sign) :
    deltaRows spec tables sign = spec.deltaOps sign (spec.contents tables) := by
  rw [deltaRows, ← closed.evalQuery_narrow length]
  rfl

theorem sameKey_eq {spec : ViewSpec} {d : Record} (present : ∀ c ∈ spec.pkViewColumns, d.get c ≠ .null)
    (v : Record) : sameKey spec v d = decide (spec.viewKey v = spec.viewKey d) := by
  rw [Bool.eq_iff_iff, decide_eq_true_eq]
  simp only [sameKey, ViewSpec.viewKey, List.all_eq_true, List.map_inj_left, sqlEq, Bool.and_eq_true, bne_iff_ne,
    beq_iff_eq]
  constructor
  · intro equal c member
    exact (equal c member).2
  · intro equal c member
    exact ⟨equal c member ▸ present c member, equal c member⟩

section Projection

variable {spec : ViewSpec} (shape : spec.shape = .projection) (distinct : (spec.tableColumns.map Prod.fst).Nodup)
include shape distinct

theorem ViewSpec.populate_selectRow {ρ : Env} (storable : spec.Storable ρ) :
    populateRecord spec.tableColumns (spec.selectRow ρ).toJsonb = some (spec.selectRow ρ) := by
  have columns : spec.tableColumns = spec.selectList.map fun o => (o.aliasName, o.expr.kind) := by
    simp only [ViewSpec.tableColumns, shape]
  have names : (spec.selectRow ρ).map Prod.fst = spec.tableColumns.map Prod.fst := by
    rw [columns, ViewSpec.selectRow, List.map_map, List.map_map]
    rfl
  have carried := storable.carried
  simp only [ViewSpec.Carries, shape] at carried
  apply populateRecord_toJsonb (names ▸ distinct)
  rw [Record.Carried, columns, ViewSpec.selectRow, List.forall₂_map_left_iff, List.forall₂_map_right_iff]
  apply List.forall₂_same.mpr
  intro o member
  refine ⟨rfl, storable.typed o.expr ?_, carried o member⟩
  simp only [ViewSpec.exprs, List.mem_append, List.mem_map]
  exact Or.inl (Or.inl (Or.inl (Or.inr ⟨o, member, rfl⟩)))

theorem ViewSpec.projectionRow_plus {M : List Env} {ρ : Env} {storage : List Record}
    (stored : storage.Perm (M.map spec.selectRow)) (unique : spec.Unique (ρ :: M)) (storable : spec.Storable ρ) :
    ∃ storage' deltas, projectionRow spec .plus (spec.selectRow ρ).toJsonb storage = .ok (storage', deltas) ∧
      storage'.Perm ((ρ :: M).map spec.selectRow) := by
  have free : storage.any (sameKey spec · (spec.selectRow ρ)) = false := by
    rw [List.any_eq_false]
    intro v within taken
    rw [sameKey_eq (storable.key shape), decide_eq_true_eq] at taken
    obtain ⟨σ, member, rfl⟩ := List.mem_map.mp (stored.mem_iff.mp within)
    exact (List.nodup_cons.mp (unique shape)).1 (List.mem_map.mpr ⟨σ, member, taken⟩)
  simp only [projectionRow, ViewSpec.populate_selectRow shape distinct storable, free]
  refine ⟨_, _, rfl, ?_⟩
  rw [List.map_cons]
  exact (List.perm_append_singleton _ _).trans (stored.cons _)

theorem ViewSpec.projectionRow_minus {M : List Env} {ρ : Env} {storage : List Record}
    (stored : storage.Perm ((ρ :: M).map spec.selectRow)) (unique : spec.Unique (ρ :: M))
    (storable : spec.Storable ρ) :
    ∃ storage' deltas, projectionRow spec .minus (spec.selectRow ρ).toJsonb storage = .ok (storage', deltas) ∧
      storage'.Perm (M.map spec.selectRow) := by
  have keyed : Keyed spec.viewKey storage := by
    have all := unique shape
    rw [Keyed] at all
    have mapped : Keyed spec.viewKey ((ρ :: M).map spec.selectRow) := by
      rw [Keyed, List.map_map]
      exact all
    exact mapped.perm stored.symm
  simp only [projectionRow, ViewSpec.populate_selectRow shape distinct storable,
    sameKey_eq (storable.key shape)]
  exact ⟨_, _, rfl, keyed.delete_perm stored⟩

theorem ViewSpec.execute_projection (pf : Platform) {sign : Sign} {K M M' : List Env} {storage : List Record}
    (stored : storage.Perm (M.map spec.selectRow)) (moves : Moves sign K M M') (unique : spec.Unique M)
    (unique' : spec.Unique M') (storable : ∀ ρ ∈ K, spec.Storable ρ) :
    ∃ storage' deltas,
      execute pf spec storage (K.map fun ρ => .row sign (spec.selectRow ρ).toJsonb) = .ok (storage', deltas) ∧
      storage'.Perm (M'.map spec.selectRow) := by
  induction K generalizing M storage with
  | nil => exact ⟨storage, [], rfl, stored.trans (moves.of_nil.map _)⟩
  | cons ρ K ih =>
      have first := storable ρ List.mem_cons_self
      have later := fun σ member => storable σ (List.mem_cons_of_mem ρ member)
      cases sign with
      | plus =>
          have split : M'.Perm (K ++ ρ :: M) := List.Perm.trans moves List.perm_middle.symm
          have next := (unique'.perm split).of_append
          obtain ⟨storage', deltas, added, stored'⟩ :=
            ViewSpec.projectionRow_plus shape distinct stored next first
          obtain ⟨storage'', more, rest, stored''⟩ := ih stored' split next later
          refine ⟨storage'', deltas ++ more, ?_, stored''⟩
          simp only [List.map_cons, execute, executeOp, shape, added, rest, Except.map]
      | minus =>
          have split : M.Perm (ρ :: (K ++ M')) := moves
          obtain ⟨storage', deltas, removed, stored'⟩ :=
            ViewSpec.projectionRow_minus shape distinct (stored.trans (split.map _)) (unique.perm split) first
          have next : spec.Unique (K ++ M') := (unique.perm (split.trans (List.Perm.refl _))).of_append
            (M := [ρ])
          obtain ⟨storage'', more, rest, stored''⟩ := ih stored' (List.Perm.refl _) next later
          refine ⟨storage'', deltas ++ more, ?_, stored''⟩
          simp only [List.map_cons, execute, executeOp, shape, removed, rest, Except.map]

end Projection

theorem ViewSpec.Storable.groupable {spec : ViewSpec} {ρ : Env} (storable : spec.Storable ρ)
    (shape : spec.shape = .aggregate) : spec.Groupable ρ where
  keyKind := by
    intro o member
    apply storable.typed
    simp only [ViewSpec.exprs, List.mem_append, List.mem_map]
    exact Or.inl (Or.inl (Or.inr ⟨o, member, rfl⟩))
  keyKept := by
    have carried := storable.carried
    simpa only [ViewSpec.Carries, shape] using carried
  exact := storable.exact

/-- What the analysis of a definition guarantees about its storage table. -/
structure ViewSpec.Tabled (spec : ViewSpec) : Prop where
  distinct : (spec.tableColumns.map Prod.fst).Nodup
  count : spec.shape = .aggregate → spec.countAlias.isSome

theorem ViewSpec.Tabled.isAggregate {spec : ViewSpec} (tabled : spec.Tabled) (shape : spec.shape = .aggregate) :
    spec.IsAggregate (spec.countAlias.getD "") where
  shape := shape
  countAlias := by
    obtain ⟨count, eq⟩ := Option.isSome_iff_exists.mp (tabled.count shape)
    rw [eq, Option.getD_some]
  distinct := tabled.distinct

/-- Executing a contribution takes the query's result over `M` to its result over `M'`. -/
theorem ViewSpec.Tabled.execute_delta {spec : ViewSpec} (tabled : spec.Tabled) (pf : Platform) {sign : Sign}
    {K M M' : List Env} {storage : List Record} (stored : storage.Perm (spec.output M))
    (moves : Moves sign K M M') (unique : spec.Unique M) (unique' : spec.Unique M')
    (storableK : ∀ ρ ∈ K, spec.Storable ρ) (storableM : ∀ ρ ∈ M, spec.Storable ρ) :
    ∃ storage' deltas, execute pf spec storage (spec.deltaOps sign K) = .ok (storage', deltas) ∧
      storage'.Perm (spec.output M') := by
  cases shape : spec.shape with
  | projection =>
      simp only [ViewSpec.deltaOps, ViewSpec.output, shape, List.map_map] at stored ⊢
      exact ViewSpec.execute_projection shape tabled.distinct pf stored moves unique unique' storableK
  | aggregate =>
      have view := tabled.isAggregate shape
      have law := view.aggregation
      simp only [ViewSpec.deltaOps, ViewSpec.output, shape] at stored ⊢
      have grouped : Grouped spec.groupKeys spec.rowKeys spec.groupRow M storage :=
        (grouped_iff_perm law).mpr stored
      have moved : GroupMoves spec M ([] ++ spec.contributionOps sign K) M' :=
        (GroupMoves.start (List.Perm.refl _)).contribution
          (fun ρ member => (storableK ρ member).groupable shape) moves
      obtain ⟨_, storage', deltas, executed, grouped'⟩ := view.execute_moves pf grouped
        (fun ρ member => (storableM ρ member).groupable shape) moved
      exact ⟨storage', deltas, executed, (grouped_iff_perm law).mp grouped'⟩

variable {pf : Platform}

/-- A view definition analyzed against the published tables: its columns are there with
their types, and a projection keeps the primary key of every table. -/
structure ViewSpec.Fits (S : Schema pf) (spec : ViewSpec) : Prop where
  tabled : spec.Tabled
  oids : (spec.relations.map BaseRelation.oid).Nodup
  used : ∀ b ∈ spec.relations, b.usedColumns.length = b.usedColumnTypes.length
  provided : ∀ b ∈ spec.relations, ∀ p ∈ b.usedColumns.zip b.usedColumnTypes,
    (S.relation b.oid).provides p.1 p.2
  key : ∀ b ∈ spec.relations, S.primaryKey b.oid ⊆ b.usedColumns
  vars : ∀ e ∈ spec.exprs, ∀ v ∈ e.vars, ∃ b, spec.relations[v.1]? = some b ∧
    ∃ ty, (v.2.1, ty) ∈ b.usedColumns.zip b.usedColumnTypes ∧ pf.kindOf ty = v.2.2
  keyColumn : spec.shape = .projection → ∀ c ∈ spec.pkViewColumns, ∃ i b name kind,
    spec.relations[i]? = some b ∧ name ∈ S.primaryKey b.oid ∧
      OutputColumn.mk (.column i name kind) c ∈ spec.selectList
  keyCover : spec.shape = .projection → ∀ i b, spec.relations[i]? = some b →
    ∀ name ∈ S.primaryKey b.oid, ∃ c ∈ spec.pkViewColumns, ∃ kind,
      OutputColumn.mk (.column i name kind) c ∈ spec.selectList

section Fits

variable {S : Schema pf} {spec : ViewSpec} (fits : spec.Fits S)
include fits

theorem ViewSpec.Fits.closed : spec.Closed := by
  intro e member v within
  obtain ⟨b, at_v, ty, zipped, _⟩ := fits.vars e member v within
  exact ⟨b, at_v, (List.of_mem_zip zipped).1⟩

omit fits in
theorem ViewSpec.narrowTables_tablesOf (spec : ViewSpec) (tables : Nat → List BaseRow) :
    spec.narrowTables (spec.tablesOf tables) =
      spec.relations.map fun b => (tables b.oid).map (narrowRow b.usedColumns) := by
  rw [ViewSpec.narrowTables, ViewSpec.tablesOf, List.zipWith_map, List.zipWith_self]

omit fits in
theorem ViewSpec.contents_row {tables : Nat → List BaseRow} {ρ : Env}
    (member : ρ ∈ spec.contents (spec.tablesOf tables)) {i : Nat} {b : BaseRelation}
    (at_i : spec.relations[i]? = some b) : ∃ row ∈ tables b.oid, ρ i = narrowRow b.usedColumns row := by
  have taken := List.mem_of_mem_filter member
  rw [ViewSpec.narrowTables_tablesOf] at taken
  obtain ⟨s, within, rfl⟩ := List.mem_map.mp taken
  have size := List.mem_sections_length within
  rw [List.length_map] at size
  have below := (List.getElem?_eq_some_iff.mp at_i).1
  have here : i < s.length := by omega
  obtain ⟨table, at_table, inTable⟩ := getElem_of_mem_sections within (List.getElem?_eq_getElem here)
  rw [List.getElem?_map, at_i, Option.map_some, Option.some.injEq] at at_table
  subst at_table
  obtain ⟨row, inBase, eq⟩ := List.mem_map.mp inTable
  refine ⟨row, inBase, ?_⟩
  rw [eq, envOf, List.getD_eq_getElem?_getD, List.getElem?_eq_getElem here, Option.getD_some]

theorem ViewSpec.Fits.typed {db : Database} (ok : S.DatabaseOk db) {ρ : Env}
    (member : ρ ∈ spec.contents (spec.tablesOf db)) {e : SqlExpr} (inSpec : e ∈ spec.exprs) :
    (e.eval ρ).HasKind e.kind := by
  apply e.eval_typed
  intro v within
  obtain ⟨b, at_v, ty, zipped, kind⟩ := fits.vars e inSpec v within
  obtain ⟨row, inBase, eq⟩ := ViewSpec.contents_row member at_v
  have provided := fits.provided b (List.mem_of_getElem? at_v) _ zipped
  obtain ⟨c, inColumns, matching⟩ := List.any_eq_true.mp provided
  rw [Bool.and_eq_true, decide_eq_true_eq, decide_eq_true_eq] at matching
  obtain ⟨name, type⟩ := matching
  have holds := (ok.rows b.oid row inBase).typed c inColumns ty type
  rw [eq, narrowRow_of_mem (List.of_mem_zip zipped).1, ← kind]
  rcases holds with null | typed
  · rw [← name, null]
    trivial
  · rw [← name]
    exact pf.hasKind typed

theorem ViewSpec.Fits.selectRow_get (shape : spec.shape = .projection) (ρ : Env) {i : Nat} {name c : String}
    {kind : Kind} (selected : OutputColumn.mk (.column i name kind) c ∈ spec.selectList) :
    (spec.selectRow ρ).get c = ρ i name := by
  have distinct := fits.tabled.distinct
  simp only [ViewSpec.tableColumns, shape, List.map_map] at distinct
  apply Record.get_of_mem
  · rw [ViewSpec.selectRow, List.map_map]
    exact distinct
  · exact List.mem_map_of_mem (f := fun o : OutputColumn => (o.aliasName, o.expr.eval ρ)) selected

theorem ViewSpec.Fits.storable {db : Database} (ok : S.DatabaseOk db) {ρ : Env}
    (member : ρ ∈ spec.contents (spec.tablesOf db)) (carried : spec.Carries ρ) (exact : spec.ExactSums ρ) :
    spec.Storable ρ where
  typed := fun _ inSpec => fits.typed ok member inSpec
  carried := carried
  exact := exact
  key := by
    intro shape c inKey
    obtain ⟨i, b, name, kind, at_i, keyed, selected⟩ := fits.keyColumn shape c inKey
    obtain ⟨row, inBase, eq⟩ := ViewSpec.contents_row member at_i
    rw [fits.selectRow_get shape ρ selected, eq,
      narrowRow_of_mem (fits.key b (List.mem_of_getElem? at_i) keyed)]
    exact (ok.rows b.oid row inBase).key name keyed

/-- Hidden keys never collide: the primary keys of the joined rows tell them apart. -/
theorem ViewSpec.Fits.unique {db : Database} (ok : S.DatabaseOk db) :
    spec.Unique (spec.contents (spec.tablesOf db)) := by
  intro shape
  have keyed : ∀ b ∈ spec.relations,
      Keyed (S.keyOf b.oid) ((db b.oid).map (narrowRow b.usedColumns)) := by
    intro b within
    have same : S.keyOf b.oid ∘ narrowRow b.usedColumns = S.keyOf b.oid := by
      funext row
      apply List.map_congr_left
      intro name inKey
      exact narrowRow_of_mem (fits.key b within inKey) row
    rw [Keyed, List.map_map, same]
    exact ok.keyed b.oid
  have sections : (spec.narrowTables (spec.tablesOf db)).sections.Nodup := by
    apply sections_nodup
    intro table member
    rw [ViewSpec.narrowTables_tablesOf] at member
    obtain ⟨b, within, rfl⟩ := List.mem_map.mp member
    exact (keyed b within).nodup
  apply Keyed.filter
  rw [Keyed, List.map_map]
  apply List.Nodup.map_on _ sections
  intro s inLeft t inRight sameKey
  have left := List.mem_sections_length inLeft
  have right := List.mem_sections_length inRight
  rw [ViewSpec.narrowTables_tablesOf, List.length_map] at left right
  apply List.ext_getElem (left.trans right.symm)
  intro i belowLeft belowRight
  have below : i < spec.relations.length := left ▸ belowLeft
  have member := List.getElem_mem below
  have inTable : ∀ u ∈ (spec.narrowTables (spec.tablesOf db)).sections, ∀ short : i < u.length,
      u[i] ∈ (db spec.relations[i].oid).map (narrowRow spec.relations[i].usedColumns) := by
    intro u within short
    rw [ViewSpec.narrowTables_tablesOf] at within
    obtain ⟨table, at_table, taken⟩ := getElem_of_mem_sections within (List.getElem?_eq_getElem short)
    rw [List.getElem?_map, List.getElem?_eq_getElem below, Option.map_some, Option.some.injEq] at at_table
    rwa [at_table]
  apply (keyed _ member).eq_of_mem (inTable s inLeft belowLeft) (inTable t inRight belowRight)
  apply List.map_congr_left
  intro name inKey
  obtain ⟨c, inView, kind, selected⟩ :=
    fits.keyCover shape i _ (List.getElem?_eq_getElem below) name inKey
  have read := List.map_inj_left.mp sameKey c inView
  rw [fits.selectRow_get shape _ selected, fits.selectRow_get shape _ selected] at read
  simpa only [envOf, List.getD_eq_getElem?_getD, List.getElem?_eq_getElem belowLeft,
    List.getElem?_eq_getElem belowRight, Option.getD_some] using read

end Fits

end Nabla
