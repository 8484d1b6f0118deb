import Nabla.Planning
import Nabla.Wire

/-! Projections over one table under any replica identity: the old row is located by the
primary key, read from whichever tuple pgoutput sends for it. -/
namespace Nabla
open Bags

variable {pf : Platform} {S : Schema pf} {identity : Nat → Option (List String)} {spec : ViewSpec} {base : BaseRelation}

/-- What pgoutput sends for a row change when no value is stored out of line. The replica
identity of a table is FULL, or an index over some columns: then an old tuple has only
these, and an update has one only when they changed. -/
inductive Sends (S : Schema pf) (identity : Nat → Option (List String)) : RowChange → Change → Prop where
  | insert {relid : Nat} {new : BaseRow} : Sends S identity (.insert relid new) (.insert relid (encodeRow pf (S.relation relid) new))
  | deleteFull {relid : Nat} {old : BaseRow} (full : identity relid = none) :
      Sends S identity (.delete relid old) (.delete relid fullOldTuple (encodeRow pf (S.relation relid) old))
  | deleteKey {relid : Nat} {old : BaseRow} {key : List String} (index : identity relid = some key) :
      Sends S identity (.delete relid old) (.delete relid keyTuple (encodeKey pf (S.relation relid) key old))
  | updateFull {relid : Nat} {old new : BaseRow} (full : identity relid = none) :
      Sends S identity (.update relid old new) (.update relid (some (fullOldTuple, encodeRow pf (S.relation relid) old))
        (encodeRow pf (S.relation relid) new))
  | updateKey {relid : Nat} {old new : BaseRow} {key : List String} (index : identity relid = some key)
      (changed : key.map old ≠ key.map new) :
      Sends S identity (.update relid old new) (.update relid (some (keyTuple, encodeKey pf (S.relation relid) key old))
        (encodeRow pf (S.relation relid) new))
  | update {relid : Nat} {old new : BaseRow} {key : List String} (index : identity relid = some key)
      (same : key.map old = key.map new) :
      Sends S identity (.update relid old new) (.update relid none (encodeRow pf (S.relation relid) new))
  | truncate {relids : List Nat} : Sends S identity (.truncate relids) (.truncate relids)

def TransactionSends (S : Schema pf) (identity : Nat → Option (List String)) (t : BaseTransaction) (tx : SourceTransaction) : Prop :=
  tx.endLsn = t.endLsn ∧ List.Forall₂ (Sends S identity) t.changes tx.changes

/-- A projection of one table as the analysis of its definition leaves it: it shows every
primary key column as a plain column, and deletes by these. -/
structure ViewSpec.Projects (S : Schema pf) (base : BaseRelation) (spec : ViewSpec) : Prop where
  fits : spec.Fits S
  shape : spec.shape = .projection
  single : spec.relations = [base]
  pkColumns : spec.pkColumns = S.primaryKey base.oid
  shown : List.Forall₂ (fun name c => ∃ kind, OutputColumn.mk (.column 0 name kind) c ∈ spec.selectList)
    spec.pkColumns spec.pkViewColumns
  sums : spec.sums = []

def ViewSpec.Shows (spec : ViewSpec) (row : BaseRow) : Prop := spec.passes (envOf [row]) = true

/-- The change leaves no old row behind, and every row the view inserts for it is one `jsonb`
carries: a shown row keeps its primary key when pgoutput sends no old tuple. -/
def ViewSpec.Keeps (S : Schema pf) (identity : Nat → Option (List String)) (base : BaseRelation) (spec : ViewSpec) : RowChange → Prop
  | .insert relid new => relid = base.oid → spec.Shows new → spec.Carries (envOf [new])
  | .update relid old new => relid = base.oid →
      (spec.Shows old → ∀ key, identity relid = some key → key.map old = key.map new → S.keyOf relid old = S.keyOf relid new) ∧
      (spec.Shows new → (identity relid = none → narrowRow base.usedColumns old ≠ narrowRow base.usedColumns new) →
        spec.Carries (envOf [new]))
  | _ => True

def ViewSpec.hits (spec : ViewSpec) (row : BaseRow) (v : Record) : Bool :=
  ((spec.pkColumns.zip spec.pkViewColumns).map fun p => (p.2, row p.1)).all fun c => sqlEq (v.get c.1) c.2

theorem encodeValue_inj {c : RelationColumn} {d d' : Datum} (resolved : c.typeName.isSome)
    (holds : ∀ ty, c.typeName = some ty → pf.Holds ty d) (holds' : ∀ ty, c.typeName = some ty → pf.Holds ty d')
    (same : encodeValue pf d = encodeValue pf d') : d = d' := by
  have left := bindValue_encode resolved holds
  rw [same, bindValue_encode resolved holds'] at left
  exact (Except.ok.inj left).symm

section Projects

variable (projects : spec.Projects S base)
include projects

theorem ViewSpec.Projects.at_zero : spec.relations[0]? = some base := by
  rw [projects.single]
  rfl

theorem ViewSpec.Projects.index : spec.relationIndex base.oid = some 0 := by
  rw [ViewSpec.relationIndex, projects.single, List.findIdx?_cons, decide_eq_true rfl]
  rfl

theorem ViewSpec.Projects.notJoin : spec.isJoin = false := by
  rw [ViewSpec.isJoin, projects.single]
  rfl

theorem ViewSpec.Projects.member : base ∈ spec.relations := List.mem_of_getElem? projects.at_zero

theorem ViewSpec.Projects.known : base.usedColumns ⊆ (S.relation base.oid).columns.map RelationColumn.name := by
  intro name member
  obtain ⟨i, below, rfl⟩ := List.getElem_of_mem member
  have short : i < base.usedColumnTypes.length := projects.fits.used base projects.member ▸ below
  have paired : (base.usedColumns[i], base.usedColumnTypes[i]) ∈ base.usedColumns.zip base.usedColumnTypes := by
    apply List.mem_of_getElem? (i := i)
    rw [List.getElem?_zip_eq_some]
    exact ⟨List.getElem?_eq_getElem _, List.getElem?_eq_getElem _⟩
  obtain ⟨c, inRel, matching⟩ := List.any_eq_true.mp (projects.fits.provided base projects.member _ paired)
  rw [Bool.and_eq_true, decide_eq_true_eq] at matching
  exact List.mem_map.mpr ⟨c, inRel, matching.1⟩

/-- Two whole rows differ in a used column exactly when the view can tell them apart. -/
theorem ViewSpec.Projects.touches_iff {old new : BaseRow} (oldOk : S.RowOk base.oid old) (newOk : S.RowOk base.oid new) :
    spec.touchesUsedColumns base.oid (S.relation base.oid) (some (encodeRow pf (S.relation base.oid) old))
        (encodeRow pf (S.relation base.oid) new) = false ↔
      narrowRow base.usedColumns old = narrowRow base.usedColumns new := by
  have compared : ∀ name ∈ base.usedColumns, ∃ i c, (S.relation base.oid).columnIndex name = some i ∧ c ∈ (S.relation base.oid).columns ∧
      c.name = name ∧ (encodeRow pf (S.relation base.oid) old)[i]? = some (encodeValue pf (old name)) ∧
      (encodeRow pf (S.relation base.oid) new)[i]? = some (encodeValue pf (new name)) := by
    intro name member
    obtain ⟨i, c, index, at_i, rfl⟩ := Relation.columnIndex_of_mem (projects.known member)
    refine ⟨i, c, index, List.mem_of_getElem? at_i, rfl, ?_, ?_⟩ <;> rw [encodeRow, List.getElem?_map, at_i] <;> rfl
  simp only [ViewSpec.touchesUsedColumns, projects.index, Option.bind_some, projects.at_zero]
  rw [List.any_eq_false]
  constructor
  · intro equal
    apply narrowRow_congr
    intro name member
    obtain ⟨i, c, index, inRel, rfl, left, right⟩ := compared name member
    have same := equal c.name member
    rw [index] at same
    simp only [left, right] at same
    split at same
    · rename_i marker
      exact absurd (Option.some.inj marker) (encodeValue_sent pf _)
    · rename_i o n _ first second
      rw [Option.some.injEq] at first second
      subst first second
      rw [bne_iff_ne, ne_eq, Decidable.not_not] at same
      exact encodeValue_inj (S.resolved base.oid c inRel) (oldOk.typed c inRel) (newOk.typed c inRel) same
    · exact absurd rfl same
  · intro same name member
    obtain ⟨i, c, index, _, _, left, right⟩ := compared name member
    have value := eq_of_narrowRow_eq same member
    rw [index]
    simp only [left, right, value]
    split
    · exact Bool.false_ne_true
    · rename_i o n _ first second
      rw [Option.some.injEq] at first second
      rw [← first, ← second, bne_self_eq_false]
      exact Bool.false_ne_true
    · rename_i others
      exact absurd rfl (others _ _ rfl)

theorem ViewSpec.Projects.deleteColumns : (spec.pkColumns.zip spec.pkViewColumns).map Prod.fst = S.primaryKey base.oid := by
  rw [List.map_fst_zip (Nat.le_of_eq projects.shown.length_eq), projects.pkColumns]

theorem ViewSpec.Projects.planSingleDelete {tuple : Tuple} {row : BaseRow} (rowOk : S.RowOk base.oid row)
    (length : (S.relation base.oid).columns.length = tuple.length)
    (sent : ∀ c v, (c, v) ∈ (S.relation base.oid).columns.zip tuple → c.name ∈ S.primaryKey base.oid →
      v = encodeValue pf (row c.name)) (kind : UInt8) :
    ∃ conds values, Nabla.planSingleDelete pf spec (S.relation base.oid) kind tuple = .ok (.ops [.deleteByKey conds values]) ∧
      keyDatums pf conds values = .ok ((spec.pkColumns.zip spec.pkViewColumns).map fun p => (p.2, row p.1)) := by
  have columns := projects.deleteColumns
  obtain ⟨conds, planned, datums⟩ := keyConditions_row (S.resolved base.oid) length rowOk.typed
    (columns ▸ S.key_columns base.oid) (columns ▸ rowOk.key) (columns ▸ sent)
  refine ⟨conds.map Prod.fst, conds.map Prod.snd, ?_, datums⟩
  simp only [Nabla.planSingleDelete, projects.shape, planned, Except.map]

theorem ViewSpec.Projects.hits_iff {row : BaseRow} (rowOk : S.RowOk base.oid row) (ρ : Env) :
    spec.hits row (spec.selectRow ρ) = decide (S.keyOf base.oid (ρ 0) = S.keyOf base.oid row) := by
  have columns := projects.deleteColumns
  have selected : ∀ p ∈ spec.pkColumns.zip spec.pkViewColumns, (spec.selectRow ρ).get p.2 = ρ 0 p.1 := by
    intro p member
    obtain ⟨kind, shown⟩ := (List.forall₂_iff_zip.mp projects.shown).2 member
    exact projects.fits.selectRow_get projects.shape ρ shown
  rw [Bool.eq_iff_iff, decide_eq_true_eq, ViewSpec.hits, List.all_map, List.all_eq_true, Schema.keyOf, Schema.keyOf,
    List.map_inj_left, ← columns]
  constructor
  · intro equal name member
    obtain ⟨p, within, rfl⟩ := List.mem_map.mp member
    have holds := equal p within
    rw [Function.comp_apply, selected p within, sqlEq, Bool.and_eq_true, beq_iff_eq] at holds
    exact holds.2
  · intro equal p within
    have inKey := List.mem_map_of_mem (f := Prod.fst) within
    have value := equal p.1 inKey
    rw [Function.comp_apply, selected p within, sqlEq, Bool.and_eq_true, bne_iff_ne, beq_iff_eq]
    exact ⟨value ▸ rowOk.key p.1 (columns ▸ inKey), value⟩

end Projects

/-- Executing the rows takes a storage table from the query over one state to the next. -/
def ViewSpec.Takes (pf : Platform) (spec : ViewSpec) (db db' : Database) (ops : List Op) : Prop :=
  ∀ storage : List Record, storage.Perm (spec.output (spec.contents (spec.tablesOf db))) →
    ∃ storage' deltas, execute pf spec storage ops = .ok (storage', deltas) ∧
      storage'.Perm (spec.output (spec.contents (spec.tablesOf db')))

theorem ViewSpec.Takes.append {db db₁ db₂ : Database} {ops more : List Op} (first : spec.Takes pf db db₁ ops)
    (second : spec.Takes pf db₁ db₂ more) : spec.Takes pf db db₂ (ops ++ more) := by
  intro storage stored
  obtain ⟨storage₁, deltas₁, executed₁, stored₁⟩ := first storage stored
  obtain ⟨storage₂, deltas₂, executed₂, stored₂⟩ := second storage₁ stored₁
  refine ⟨storage₂, deltas₁ ++ deltas₂, ?_, stored₂⟩
  simp only [execute_append, executed₁, executed₂, Except.map]

section Projects

variable (projects : spec.Projects S base)
include projects

theorem ViewSpec.Projects.takes_nil {db db' : Database} (same : (spec.contents (spec.tablesOf db)).Perm (spec.contents (spec.tablesOf db'))) :
    spec.Takes pf db db' [] := by
  intro storage stored
  refine ⟨storage, [], rfl, stored.trans ?_⟩
  simp only [ViewSpec.output, projects.shape]
  exact same.map spec.selectRow

theorem ViewSpec.Projects.keyOf_contents {db : Database} {ρ : Env} (member : ρ ∈ spec.contents (spec.tablesOf db)) :
    ∃ r ∈ db base.oid, S.keyOf base.oid (ρ 0) = S.keyOf base.oid r := by
  obtain ⟨r, inBase, eq⟩ := ViewSpec.contents_row member projects.at_zero
  exact ⟨r, inBase, by rw [eq, S.keyOf_narrow (projects.fits.key base projects.member)]⟩

theorem ViewSpec.Projects.takes_delete {row : BaseRow} (rowOk : S.RowOk base.oid row) {conds : List (String × String)}
    {values : List String}
    (datums : keyDatums pf conds values = .ok ((spec.pkColumns.zip spec.pkViewColumns).map fun p => (p.2, row p.1))) (db : Database) :
    spec.Takes pf db (db.set base.oid (S.others base.oid row (db base.oid))) [.deleteByKey conds values] := by
  intro storage stored
  refine ⟨storage.filter fun v => !spec.hits row v, (storage.filter (spec.hits row)).map (fun v => ⟨.D, v.toJsonb⟩) ++ [], ?_, ?_⟩
  · simp only [execute, executeOp, datums, Except.map]
    rfl
  have split := projects.fits.contents_split projects.at_zero db
    (List.filter_append_perm (fun r => decide (S.keyOf base.oid r = S.keyOf base.oid row)) (db base.oid)).symm
  rw [Database.set_self, ← projects.fits.contents_set_rows projects.at_zero] at split
  have gone : (spec.contents (spec.tablesOf (db.set base.oid ((db base.oid).filter fun r =>
      decide (S.keyOf base.oid r = S.keyOf base.oid row))))).filter ((fun v => !spec.hits row v) ∘ spec.selectRow) = [] := by
    rw [List.filter_eq_nil_iff]
    intro ρ member
    obtain ⟨r, inBase, same⟩ := projects.keyOf_contents member
    rw [Database.set_same, List.mem_filter, decide_eq_true_eq] at inBase
    rw [Function.comp_apply, Bool.not_eq_true', Bool.not_eq_false, projects.hits_iff rowOk, decide_eq_true_eq, same, inBase.2]
  have stay : (spec.contents (spec.tablesOf (db.set base.oid (S.others base.oid row (db base.oid))))).filter
      ((fun v => !spec.hits row v) ∘ spec.selectRow) = spec.contents (spec.tablesOf (db.set base.oid (S.others base.oid row (db base.oid)))) := by
    rw [List.filter_eq_self]
    intro ρ member
    obtain ⟨r, inBase, same⟩ := projects.keyOf_contents member
    rw [Database.set_same, Schema.others, List.mem_filter, Bool.not_eq_true', decide_eq_false_iff_not] at inBase
    rw [Function.comp_apply, Bool.not_eq_true', projects.hits_iff rowOk, decide_eq_false_iff_not, same]
    exact inBase.2
  simp only [ViewSpec.output, projects.shape] at stored ⊢
  have kept := (stored.trans (split.map spec.selectRow)).filter fun v => !spec.hits row v
  rw [List.map_append, List.filter_append, List.filter_map, List.filter_map, gone] at kept
  rw [← stay]
  exact kept

theorem ViewSpec.Projects.contents_row (row : BaseRow) :
    spec.contents [[row]] = ([envOf [row]].filter spec.passes).map spec.narrow := by
  rw [ViewSpec.contents, projects.fits.closed.joined_narrow (by rw [projects.single]; rfl)]
  rfl

theorem ViewSpec.Projects.contents_hidden {row : BaseRow} (hidden : ¬ spec.Shows row) : spec.contents [[row]] = [] := by
  rw [projects.contents_row, List.filter_cons_of_neg hidden]
  rfl

theorem ViewSpec.Projects.set_zero (db : Database) (rows : List BaseRow) : (spec.tablesOf db).set 0 rows = [rows] := by
  rw [ViewSpec.tablesOf, projects.single]
  rfl

theorem ViewSpec.Projects.planSingleInsert {new : BaseRow} (rowOk : S.RowOk base.oid new) :
    Nabla.planSingleInsert pf spec (S.relation base.oid) (encodeRow pf (S.relation base.oid) new) =
      .ok (spec.deltaOps .plus (spec.contents [[new]])) := by
  obtain ⟨bound, binds, same⟩ := (completes_encodeRow rowOk).bindRow projects.known fun _ _ => rfl
  have narrowed : spec.contents [[bound]] = spec.contents [[new]] := by
    rw [ViewSpec.contents, ViewSpec.contents, ViewSpec.narrowTables, ViewSpec.narrowTables, projects.single]
    simp only [List.map_cons, List.map_nil, List.zipWith_cons_cons, List.zipWith_nil_left, same]
  rw [Nabla.planSingleInsert, binds, ← narrowed, ← projects.fits.closed.deltaRows_eq (by rw [projects.single]; rfl)]
  rfl

theorem ViewSpec.Projects.takes_insert {db : Database} (ok : S.DatabaseOk db) {new : BaseRow}
    (valid : S.Valid db (.insert base.oid new)) (carried : spec.Shows new → spec.Carries (envOf [new])) :
    spec.Takes pf db (S.step db (.insert base.oid new)) (spec.deltaOps .plus (spec.contents [[new]])) := by
  have ok' := S.step_ok ok valid
  have moves : Moves .plus (spec.contents [[new]]) (spec.contents (spec.tablesOf db))
      (spec.contents (spec.tablesOf (S.step db (.insert base.oid new)))) := by
    apply projects.fits.insert_moves projects.at_zero
    rw [projects.set_zero]
  have storable : ∀ ρ ∈ spec.contents [[new]], spec.Storable ρ := by
    intro ρ member
    have inNext := (List.Perm.mem_iff moves).mpr (List.mem_append_left _ member)
    refine projects.fits.storable ok' inNext ?_ fun su within => absurd (projects.sums ▸ within) List.not_mem_nil
    rw [projects.contents_row] at member
    obtain ⟨σ, passing, rfl⟩ := List.mem_map.mp member
    obtain ⟨alone, shown⟩ := List.mem_filter.mp passing
    obtain rfl := List.mem_singleton.mp alone
    have row := carried shown
    simp only [ViewSpec.Carries, projects.shape] at row ⊢
    intro o selected
    rw [projects.fits.closed.eval_narrow]
    · exact row o selected
    · simp only [ViewSpec.exprs, List.mem_append, List.mem_map]
      exact Or.inl (Or.inl (Or.inl (Or.inr ⟨o, selected, rfl⟩)))
  intro storage stored
  simp only [ViewSpec.deltaOps, ViewSpec.output, projects.shape, List.map_map] at stored ⊢
  exact ViewSpec.execute_projection projects.shape projects.fits.tabled.distinct pf stored moves (projects.fits.unique ok)
    (projects.fits.unique ok') storable

theorem ViewSpec.Projects.planSingleDelete_key {row : BaseRow} (rowOk : S.RowOk base.oid row) (key : List String) :
    (∃ reason, Nabla.planSingleDelete pf spec (S.relation base.oid) keyTuple (encodeKey pf (S.relation base.oid) key row) =
      .ok (.stale reason)) ∨
    ∃ conds values, Nabla.planSingleDelete pf spec (S.relation base.oid) keyTuple (encodeKey pf (S.relation base.oid) key row) =
        .ok (.ops [.deleteByKey conds values]) ∧
      keyDatums pf conds values = .ok ((spec.pkColumns.zip spec.pkViewColumns).map fun p => (p.2, row p.1)) := by
  have length : (S.relation base.oid).columns.length = (encodeKey pf (S.relation base.oid) key row).length := (List.length_map _).symm
  have columns := projects.deleteColumns
  by_cases within : S.primaryKey base.oid ⊆ key
  · right
    apply projects.planSingleDelete rowOk length
    intro c v sent inKey
    rw [(mem_zip_map_iff sent).2, if_pos (within inKey)]
  · left
    simp only [List.subset_def, not_forall] at within
    obtain ⟨name, inKey, absent⟩ := within
    obtain ⟨c, inRel, rfl⟩ := List.mem_map.mp (S.key_columns base.oid inKey)
    have sent : (c, ColumnValue.null) ∈ (S.relation base.oid).columns.zip (encodeKey pf (S.relation base.oid) key row) := by
      have paired := mem_zip_map (fun c => if c.name ∈ key then encodeValue pf (row c.name) else .null) inRel
      rwa [if_neg absent] at paired
    obtain ⟨reason, planned⟩ := keyConditions_missing (S.resolved base.oid) (S.distinct base.oid) length
      (columns ▸ S.key_columns base.oid) sent (columns ▸ inKey) fun s => nofun
    refine ⟨reason, ?_⟩
    simp only [Nabla.planSingleDelete, projects.shape, planned, Except.map]

/-- Taking the key from the new row finds the old one: it has the same key, or the view has
no row for it and the new key is free. -/
theorem ViewSpec.Projects.others_new {db : Database} (ok : S.DatabaseOk db) {old new : BaseRow}
    (valid : S.Valid db (.update base.oid old new)) (keeps : spec.Shows old → S.keyOf base.oid old = S.keyOf base.oid new) :
    (spec.contents (spec.tablesOf (db.set base.oid (S.others base.oid new (db base.oid))))).Perm
      (spec.contents (spec.tablesOf (S.step db (.delete base.oid old)))) := by
  by_cases same : S.keyOf base.oid old = S.keyOf base.oid new
  · rw [Schema.step, Schema.others, Schema.others, same]
  · have hidden := projects.contents_hidden fun shown => same (keeps shown)
    have front : (db base.oid).Perm ([old] ++ S.others base.oid old (db base.oid)) := S.others_perm (ok.keyed base.oid) valid.1
    have split := projects.fits.contents_split projects.at_zero db front
    rw [Database.set_self, projects.set_zero, hidden, List.nil_append] at split
    have untouched : S.others base.oid new (db base.oid) = db base.oid := by
      rw [Schema.others, List.filter_eq_self]
      intro r inBase
      rw [Bool.not_eq_true', decide_eq_false_iff_not]
      intro taken
      by_cases isOld : S.keyOf base.oid r = S.keyOf base.oid old
      · exact same (isOld.symm.trans taken)
      · refine valid.2.2 (taken ▸ List.mem_map_of_mem (List.mem_filter.mpr ⟨inBase, ?_⟩))
        rw [Bool.not_eq_true', decide_eq_false_iff_not]
        exact isOld
    rw [untouched, Database.set_self]
    exact split

theorem ViewSpec.Projects.takes_update {db : Database} (ok : S.DatabaseOk db) {old new row : BaseRow}
    (valid : S.Valid db (.update base.oid old new)) (rowOk : S.RowOk base.oid row)
    (others : (spec.contents (spec.tablesOf (db.set base.oid (S.others base.oid row (db base.oid))))).Perm
      (spec.contents (spec.tablesOf (S.step db (.delete base.oid old))))) (carried : spec.Shows new → spec.Carries (envOf [new]))
    {conds : List (String × String)} {values : List String}
    (datums : keyDatums pf conds values = .ok ((spec.pkColumns.zip spec.pkViewColumns).map fun p => (p.2, row p.1))) :
    spec.Takes pf db (S.step db (.update base.oid old new)) ([.deleteByKey conds values] ++ spec.deltaOps .plus (spec.contents [[new]])) := by
  have removed := (projects.takes_delete rowOk datums db).append (projects.takes_nil others)
  have free : S.Valid (S.step db (.delete base.oid old)) (.insert base.oid new) := by
    refine ⟨valid.2.1, ?_⟩
    rw [Schema.step, Database.set_same]
    exact valid.2.2
  have added := projects.takes_insert (S.step_ok ok (show S.Valid db (.delete base.oid old) from valid.1)) free carried
  rw [← S.step_update] at added
  rw [List.append_nil] at removed
  exact removed.append added

/-- One change of the table: the view goes stale, or its rows follow the table. -/
theorem ViewSpec.Projects.plans {view : LiveView} (is : view.row.spec = spec) {db : Database} (ok : S.DatabaseOk db)
    {rc : RowChange} {change : Change} (sends : Sends S identity rc change) (valid : S.Valid db rc)
    (keeps : spec.Keeps S identity base rc) (here : base.oid ∈ rc.relids) :
    (∃ reason, planSingleChange pf view (S.relation base.oid) change = .ok (.stale reason)) ∨
      ∃ ops, planSingleChange pf view (S.relation base.oid) change = .ok (.ops ops) ∧ rc.relids = [base.oid] ∧
        spec.Takes pf db (S.step db rc) ops := by
  have whole : ∀ {row : BaseRow}, S.RowOk base.oid row → ∀ kind, ∃ conds values,
      Nabla.planSingleDelete pf spec (S.relation base.oid) kind (encodeRow pf (S.relation base.oid) row) =
        .ok (.ops [.deleteByKey conds values]) ∧
      keyDatums pf conds values = .ok ((spec.pkColumns.zip spec.pkViewColumns).map fun p => (p.2, row p.1)) := by
    intro row rowOk kind
    refine projects.planSingleDelete rowOk (List.length_map _).symm (fun c v sent _ => ?_) kind
    exact (mem_zip_map_iff sent).2
  have arrives : ∀ {new : BaseRow} (mentions : String → Bool) (old : Option Tuple),
      resolveUnchanged mentions (S.relation base.oid).columns (encodeRow pf (S.relation base.oid) new) old =
        .ok (encodeRow pf (S.relation base.oid) new) := fun mentions old =>
    resolveUnchanged_sent mentions _ (encodeRow_sent pf _ _) old
  cases sends with
  | @insert relid new =>
      obtain rfl := List.mem_singleton.mp here
      refine Or.inr ⟨_, ?_, rfl, projects.takes_insert ok valid (keeps rfl)⟩
      simp only [planSingleChange, is, arrives, withResolved, projects.planSingleInsert valid.1, Except.map]
  | @deleteFull relid old full =>
      obtain rfl := List.mem_singleton.mp here
      have oldOk := ok.rows base.oid old valid
      obtain ⟨conds, values, planned, datums⟩ := whole oldOk fullOldTuple
      refine Or.inr ⟨_, ?_, rfl, projects.takes_delete oldOk datums db⟩
      simp only [planSingleChange, is, planned]
  | @deleteKey relid old key index =>
      obtain rfl := List.mem_singleton.mp here
      have oldOk := ok.rows base.oid old valid
      rcases projects.planSingleDelete_key oldOk key with ⟨reason, planned⟩ | ⟨conds, values, planned, datums⟩
      · exact Or.inl ⟨reason, by simp only [planSingleChange, is, planned]⟩
      · refine Or.inr ⟨_, ?_, rfl, projects.takes_delete oldOk datums db⟩
        simp only [planSingleChange, is, planned]
  | @updateFull relid old new full =>
      obtain rfl := List.mem_singleton.mp here
      have oldOk := ok.rows base.oid old valid.1
      have touches := projects.touches_iff oldOk valid.2.1
      cases touched : spec.touchesUsedColumns base.oid (S.relation base.oid) (some (encodeRow pf (S.relation base.oid) old))
          (encodeRow pf (S.relation base.oid) new) with
      | false =>
          refine Or.inr ⟨[], ?_, rfl, projects.takes_nil ?_⟩
          · simp only [planSingleChange, is, Option.any_some, S.relation_id, touched, decide_true, Bool.not_false, Bool.and_self, if_true]
          · exact projects.fits.update_same projects.at_zero ok valid.1 (touches.mp touched)
      | true =>
          obtain ⟨conds, values, planned, datums⟩ := whole oldOk fullOldTuple
          have differs : narrowRow base.usedColumns old ≠ narrowRow base.usedColumns new := by
            intro same
            rw [touches.mpr same] at touched
            exact Bool.false_ne_true touched
          refine Or.inr ⟨_, ?_, rfl, projects.takes_update ok valid oldOk (List.Perm.refl _)
            (fun shown => (keeps rfl).2 shown fun _ => differs) datums⟩
          simp only [planSingleChange, is, Option.any_some, S.relation_id, touched, decide_true, Bool.not_true, Bool.and_false,
            Bool.false_eq_true, if_false, Option.getD_some, planned, arrives, withResolved, projects.planSingleInsert valid.2.1, Except.map]
  | @updateKey relid old new key index changed =>
      obtain rfl := List.mem_singleton.mp here
      have oldOk := ok.rows base.oid old valid.1
      have other : (decide (keyTuple = fullOldTuple)) = false := by decide
      rcases projects.planSingleDelete_key oldOk key with ⟨reason, planned⟩ | ⟨conds, values, planned, datums⟩
      · refine Or.inl ⟨reason, ?_⟩
        simp only [planSingleChange, is, Option.any_some, other, Bool.false_and, Bool.false_eq_true, if_false, Option.getD_some, planned]
      · refine Or.inr ⟨_, ?_, rfl, projects.takes_update ok valid oldOk (List.Perm.refl _) (fun shown => (keeps rfl).2 shown ?_) datums⟩
        · simp only [planSingleChange, is, Option.any_some, other, Bool.false_and, Bool.false_eq_true, if_false, Option.getD_some, planned,
            arrives, withResolved, projects.planSingleInsert valid.2.1, Except.map]
        · exact fun full => absurd (full.symm.trans index) (Option.some_ne_none key).symm
  | @update relid old new key index same =>
      obtain rfl := List.mem_singleton.mp here
      obtain ⟨conds, values, planned, datums⟩ := whole valid.2.1 keyTuple
      refine Or.inr ⟨_, ?_, rfl, projects.takes_update ok valid valid.2.1
        (projects.others_new ok valid fun shown => (keeps rfl).1 shown key index same) (fun shown => (keeps rfl).2 shown ?_) datums⟩
      · simp only [planSingleChange, is, Option.any_none, Bool.false_eq_true, if_false, Option.getD_none, planned, arrives, withResolved,
          projects.planSingleInsert valid.2.1, Except.map]
      · exact fun full => absurd (full.symm.trans index) (Option.some_ne_none key).symm
  | truncate => exact Or.inl ⟨truncatedReason, by simp only [planSingleChange]⟩

end Projects

end Nabla
