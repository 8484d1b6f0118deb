import Nabla.Mirror
import Nabla.Shadow

/-! A column added to a shadow that is behind its table: which row of the table each of its
values was read from, and how the replay of the missing changes carries the values on. -/
namespace Nabla
open Bags

variable {pf : Platform} {S : Schema pf}

/-- A row of the table, and for each column whose value was not sent since the shadow's
frontier the row it was then a value of. -/
structure Lineage where
  row : BaseRow
  origin : String → Option BaseRow

/-- An update sends the marker for the column instead of its value. -/
def Change.marks (rel : Relation) (name : String) : Change → Bool
  | .update _ _ new => (rel.columns.zip new).any fun p => decide (p.1.name = name) && decide (p.2 = .unchanged)
  | _ => false

def Schema.survivors (S : Schema pf) (relid : Nat) (old : BaseRow) (table : List Lineage) : List Lineage :=
  table.filter fun t => !decide (S.keyOf relid t.row = S.keyOf relid old)

def Schema.handOn (S : Schema pf) (relid : Nat) (old new : BaseRow) (change : Change) (table : List Lineage) : Lineage where
  row := new
  origin := fun name =>
    if change.marks (S.relation relid) name then
      (table.find? fun t => decide (S.keyOf relid t.row = S.keyOf relid old)).bind (·.origin name)
    else none

def Schema.trace (S : Schema pf) (relid : Nat) (table : List Lineage) (sent : RowChange × Change) : List Lineage :=
  match sent.1 with
  | .insert r new => if r = relid then table ++ [⟨new, fun _ => none⟩] else table
  | .delete r old => if r = relid then S.survivors relid old table else table
  | .update r old new => if r = relid then S.survivors relid old table ++ [S.handOn relid old new sent.2 table] else table
  | .truncate relids => if relid ∈ relids then [] else table

def lineages (rows : List BaseRow) : List Lineage := rows.map fun row => ⟨row, fun _ => some row⟩

theorem lineages_rows (rows : List BaseRow) : (lineages rows).map Lineage.row = rows := by
  rw [lineages, List.map_map]
  exact List.map_id _

theorem Schema.survivors_rows (S : Schema pf) (relid : Nat) (old : BaseRow) (table : List Lineage) :
    (S.survivors relid old table).map Lineage.row = S.others relid old (table.map Lineage.row) := by
  rw [Schema.survivors, Schema.others, List.filter_map]
  rfl

theorem Schema.trace_rows (S : Schema pf) {relid : Nat} {table : List Lineage} {db : Database}
    (rows : table.map Lineage.row = db relid) (sent : RowChange × Change) :
    (S.trace relid table sent).map Lineage.row = S.step db sent.1 relid := by
  obtain ⟨rc, change⟩ := sent
  cases rc with
  | insert r new =>
      by_cases here : r = relid
      · subst here
        simp only [Schema.trace, if_true, List.map_append, List.map_cons, List.map_nil, rows, Schema.step, Database.set_same]
      · simp only [Schema.trace, here, if_false, rows, Schema.step, Database.set_other _ _ (Ne.symm here)]
  | delete r old =>
      by_cases here : r = relid
      · subst here
        simp only [Schema.trace, if_true, S.survivors_rows, rows, Schema.step, Database.set_same]
      · simp only [Schema.trace, here, if_false, rows, Schema.step, Database.set_other _ _ (Ne.symm here)]
  | update r old new =>
      by_cases here : r = relid
      · subst here
        simp only [Schema.trace, if_true, List.map_append, List.map_cons, List.map_nil, S.survivors_rows, rows, Schema.handOn,
          Schema.step, Database.set_same]
      · simp only [Schema.trace, here, if_false, rows, Schema.step, Database.set_other _ _ (Ne.symm here)]
  | truncate relids =>
      by_cases here : relid ∈ relids
      · simp only [Schema.trace, here, if_true, List.map_nil, Schema.step]
      · simp only [Schema.trace, here, if_false, rows, Schema.step]

theorem Schema.trace_other (S : Schema pf) {relid : Nat} (table : List Lineage) {rc : RowChange} (elsewhere : relid ∉ rc.relids)
    (change : Change) : S.trace relid table (rc, change) = table := by
  cases rc with
  | insert r new | delete r old | update r old new => exact if_neg fun (here : r = relid) => elsewhere (here ▸ List.mem_singleton_self _)
  | truncate relids => exact if_neg elsewhere

theorem marks_iff {rel : Relation} (distinct : (rel.columns.map RelationColumn.name).Nodup) {c : RelationColumn}
    (within : c ∈ rel.columns) (relid : Nat) (old : Option (UInt8 × Tuple)) {new : Tuple} :
    Change.marks rel c.name (.update relid old new) = true ↔ (c, ColumnValue.unchanged) ∈ rel.columns.zip new := by
  simp only [Change.marks, List.any_eq_true, Bool.and_eq_true, decide_eq_true_eq]
  constructor
  · rintro ⟨⟨c', v⟩, paired, named, rfl⟩
    obtain rfl : c' = c := List.inj_on_of_nodup_map distinct (List.of_mem_zip paired).1 within named
    exact paired
  · intro marked
    exact ⟨_, marked, rfl, rfl⟩

/-- The row as the extended shadow has it: an added column that has not been sent holds what
the row with the old key was filled with. -/
def Lineage.shown (held : List String) (refill : BaseRow → String → Datum) (t : Lineage) : BaseRow := fun name =>
  if name ∈ held then t.row name
  else match t.origin name with
    | some a => refill a name
    | none => t.row name

/-- The shadow's rows are those of the table in the columns it held before, and carry on the
filled in values in the others. -/
structure Extended (S : Schema pf) (held : List String) (refill : BaseRow → String → Datum) (s : ShadowRow) (rows : List BaseRow)
    (table : List Lineage) : Prop where
  key : S.primaryKey s.relid ⊆ held
  active : held ⊆ s.columns
  typed : ∀ row ∈ rows, ∀ c ∈ (S.relation s.relid).columns, c.name ∈ s.columns → ∀ ty, c.typeName = some ty → pf.Holds ty (row c.name)
  rows : (rows.map (narrowRow s.columns)).Perm (table.map fun t => narrowRow s.columns (t.shown held refill))

section Extended

variable {held : List String} {refill : BaseRow → String → Datum} {s : ShadowRow} {rows rows' : List BaseRow} {table : List Lineage}

theorem Lineage.shown_held {t : Lineage} {name : String} (member : name ∈ held) : t.shown held refill name = t.row name :=
  if_pos member

theorem Lineage.narrow_shown (t : Lineage) (refill : BaseRow → String → Datum) : narrowRow held (t.shown held refill) = narrowRow held t.row :=
  narrowRow_congr fun _ member => shown_held member

theorem Lineage.shown_sent (held : List String) (refill : BaseRow → String → Datum) {t : Lineage} {name : String} (sent : t.origin name = none) :
    t.shown held refill name = t.row name := by
  simp only [Lineage.shown, sent, ite_self]

theorem Extended.congr {s' : ShadowRow} (extended : Extended S held refill s rows table) (relid : s'.relid = s.relid)
    (columns : s'.columns = s.columns) : Extended S held refill s' rows table := by
  constructor
  · rw [relid]
    exact extended.key
  · rw [columns]
    exact extended.active
  · rw [relid, columns]
    exact extended.typed
  · rw [columns]
    exact extended.rows

theorem Extended.mirrors (extended : Extended S held refill s rows table) : Mirrors S held s rows (table.map Lineage.row) where
  key := extended.key
  active := extended.active
  typed := extended.typed
  rows := by
    have narrowed := extended.rows.map (narrowRow held)
    rw [List.map_map, List.map_map] at narrowed
    rw [List.map_map]
    convert narrowed using 2
    · funext row
      exact (narrowRow_narrowRow extended.active row).symm
    · funext t
      exact ((t.narrow_shown refill).symm.trans (narrowRow_narrowRow extended.active _).symm)

/-- The lineage of a row that the shadow has a copy of. -/
theorem Extended.copy (extended : Extended S held refill s rows table) (keyed : Keyed (S.keyOf s.relid) (table.map Lineage.row))
    {row old : BaseRow} (copy : row ∈ rows) (same : narrowRow held row = narrowRow held old) (member : old ∈ table.map Lineage.row) :
    ∃ t ∈ table, t.row = old ∧ narrowRow s.columns row = narrowRow s.columns (t.shown held refill) ∧
      (table.find? fun t => decide (S.keyOf s.relid t.row = S.keyOf s.relid old)) = some t := by
  obtain ⟨t, within, equal⟩ := List.mem_map.mp (extended.rows.mem_iff.mp (List.mem_map_of_mem copy))
  have narrow : narrowRow held t.row = narrowRow held old := by
    rw [← t.narrow_shown refill, ← narrowRow_narrowRow extended.active, equal, narrowRow_narrowRow extended.active, same]
  have key := S.keyOf_of_narrow_eq extended.key narrow
  have isOld : t.row = old := keyed.eq_of_mem (List.mem_map_of_mem within) member key
  refine ⟨t, within, isOld, equal.symm, ?_⟩
  have keyedLines : Keyed (fun t : Lineage => S.keyOf s.relid t.row) table := by
    rwa [Keyed, List.map_map] at keyed
  rw [← key]
  exact keyedLines.find_of_mem within

theorem Extended.survivors (extended : Extended S held refill s rows table) (old : BaseRow) :
    Extended S held refill s (S.others s.relid old rows) (S.survivors s.relid old table) where
  key := extended.key
  active := extended.active
  typed := fun row member => extended.typed row (List.mem_of_mem_filter member)
  rows := by
    rw [S.map_others (fun _ inKey => extended.active (extended.key inKey)), Schema.others]
    refine (extended.rows.filter _).trans (List.Perm.of_eq ?_)
    rw [List.filter_map, Schema.survivors]
    congr 1
    apply List.filter_congr
    intro t _
    have key : S.keyOf s.relid (narrowRow s.columns (t.shown held refill)) = S.keyOf s.relid t.row :=
      (S.keyOf_narrow (fun _ inKey => extended.active (extended.key inKey)) _).trans (S.keyOf_of_narrow_eq extended.key (t.narrow_shown refill))
    simp only [Function.comp_apply, key]

theorem Extended.append (extended : Extended S held refill s rows table) {full : BaseRow} {t : Lineage}
    (typed : ∀ c ∈ (S.relation s.relid).columns, ∀ ty, c.typeName = some ty → pf.Holds ty (full c.name))
    (shown : ∀ name ∈ s.columns, full name = t.shown held refill name) :
    Extended S held refill s (rows ++ [narrowRow s.columns full]) (table ++ [t]) where
  key := extended.key
  active := extended.active
  typed := by
    intro row member c inRel active ty resolved
    rcases List.mem_append.mp member with before | added
    · exact extended.typed row before c inRel active ty resolved
    · rw [List.mem_singleton.mp added, narrowRow_of_mem active]
      exact typed c inRel ty resolved
  rows := by
    rw [List.map_append, List.map_append, List.map_singleton, List.map_singleton, narrowRow_narrowRow fun _ => id,
      narrowRow_congr shown]
    exact extended.rows.append_right _

/-- One change the shadow absorbs. -/
theorem Extended.absorbs (fits : s.Fits S) (extended : Extended S held refill s rows table) {db : Database}
    (tracked : table.map Lineage.row = db s.relid) (ok : S.DatabaseOk db) {rc : RowChange} (valid : S.Valid db rc) {change : Change}
    (kind : ∀ relids, rc ≠ .truncate relids) (absorbs : Absorbs S s held rows rc change rows') :
    Extended S held refill s rows' (S.trace s.relid table (rc, change)) := by
  cases absorbs with
  | @insert new _ =>
      simp only [Schema.trace, if_true]
      exact extended.append valid.1.typed fun name _ => (Lineage.shown_sent held refill (t := ⟨new, fun _ => none⟩) rfl).symm
  | @delete old _ =>
      simp only [Schema.trace, if_true]
      exact extended.survivors old
  | truncate => exact absurd rfl (kind _)
  | @update old new row full oldT tuple copy same typed completed =>
      simp only [Schema.trace, if_true]
      obtain ⟨t, _, isOld, equal, found⟩ := extended.copy (tracked ▸ ok.keyed s.relid) copy same (tracked ▸ valid.1)
      apply (extended.survivors old).append typed
      intro name member
      obtain ⟨c, inRel, rfl⟩ := List.mem_map.mp (fits.active member)
      by_cases inHeld : c.name ∈ held
      · rw [Lineage.shown_held inHeld]
        exact settled_of_completed fits extended.active same completed c.name inHeld
      rcases completed c inRel with ⟨sent, unmarked⟩ | ⟨kept, unchanged, marked⟩
      · rw [sent, Lineage.shown_sent]
        · rfl
        · exact if_neg fun marks => unmarked ((marks_iff (S.distinct s.relid) inRel _ _).mp marks)
      · -- the marker keeps what the shadow has
        have marks := (marks_iff (S.distinct s.relid) inRel s.relid oldT).mpr marked
        have value := congrFun equal c.name
        rw [kept, value, narrowRow_of_mem member]
        simp only [Lineage.shown, inHeld, if_false, Schema.handOn, marks, if_true, found, Option.bind_some]
        cases t.origin c.name with
        | none => exact (congrFun isOld c.name).trans unchanged
        | some a => rfl

end Extended

/-- The columns `extend` adds. -/
def ShadowRow.added (rel : BaseRelation) (needed : List String) (base : BaseTable) (s : ShadowRow) : List (String × String) :=
  base.columns.filter fun c => !s.columns.contains c.1 && (needed.contains c.1 || rel.pkColumns.contains c.1)

/-- The value an added column gets in the copy of a row: that of the row which has its key by
now, else what a column of this type still holds in the shadow, else NULL. -/
def ShadowRow.backfill (S : Schema pf) (base : BaseTable) (s : ShadowRow) (a : BaseRow) (name : String) : Datum :=
  match base.rows.find? fun b => decide (S.keyOf s.relid b = S.keyOf s.relid a) with
  | some b => b name
  | none =>
    if s.physical.lookup name = base.columns.lookup name then
      ((s.rows.find? fun row => decide (S.keyOf s.relid row = S.keyOf s.relid a)).map (· name)).getD .null
    else .null

def fillRow (rel : BaseRelation) (base : BaseTable) (physical added : List (String × String)) (row : BaseRow) : BaseRow := fun name =>
  match added.lookup name with
  | none => row name
  | some ty =>
    match base.rows.find? (pkMatch rel.pkColumns row) with
    | some b => b name
    | none => if physical.lookup name = some ty then row name else .null

theorem lookup_alterPhysical {physical : List (String × String)} {column : String × String} {name : String} (other : name ≠ column.1) :
    (alterPhysical physical column).lookup name = physical.lookup name := by
  obtain ⟨added, type⟩ := column
  have apart : (name == added) = false := beq_false_of_ne other
  have replaced : (physical.map fun c => if c.1 = added then (added, type) else c).lookup name = physical.lookup name := by
    induction physical with
    | nil => rfl
    | cons p physical ih =>
        obtain ⟨present, type'⟩ := p
        by_cases here : present = added
        · subst here
          simp only [List.map_cons, if_true, List.lookup_cons, apart, ih]
        · simp only [List.map_cons, here, if_false, List.lookup_cons, ih]
  unfold alterPhysical
  cases physical.lookup added with
  | none =>
      simp only [List.lookup_append, List.lookup_cons, apart, List.lookup_nil, Option.or_none]
  | some _ => exact replaced

theorem pkMatch_congr {pk : List String} {r r' : BaseRow} (same : ∀ name ∈ pk, r name = r' name) : pkMatch pk r = pkMatch pk r' := by
  funext b
  unfold pkMatch
  rw [Bool.eq_iff_iff, List.all_eq_true, List.all_eq_true]
  exact forall₂_congr fun name member => by rw [same name member]

def fillValue (rel : BaseRelation) (base : BaseTable) (physical : List (String × String)) (row : BaseRow) (name type : String) : Datum :=
  match base.rows.find? (pkMatch rel.pkColumns row) with
  | some b => b name
  | none => if physical.lookup name = some type then row name else .null

theorem addColumn_rows (rel : BaseRelation) (base : BaseTable) (s : ShadowRow) (name type : String) :
    (addColumn rel base s (name, type)).rows =
      s.rows.map fun row => Function.update row name (fillValue rel base s.physical row name type) := by
  apply List.map_congr_left
  intro row _
  unfold fillValue
  cases base.rows.find? (pkMatch rel.pkColumns row) with
  | some b => rfl
  | none =>
      by_cases kept : s.physical.lookup name = some type
      · simp only [kept, ne_eq, not_true_eq_false, if_false, if_true, Function.update_eq_self]
      · simp only [kept, ne_eq, not_false_eq_true, if_true, if_false]

theorem addColumn_fillRow {rel : BaseRelation} {base : BaseTable} {s : ShadowRow} {name type : String} {added : List (String × String)}
    (distinct : name ∉ added.map Prod.fst) (apart : name ∉ rel.pkColumns) :
    (addColumn rel base s (name, type)).rows.map (fillRow rel base (addColumn rel base s (name, type)).physical added) =
      s.rows.map (fillRow rel base s.physical ((name, type) :: added)) := by
  rw [addColumn_rows, List.map_map]
  apply List.map_congr_left
  intro row _
  have key : pkMatch rel.pkColumns (Function.update row name (fillValue rel base s.physical row name type)) = pkMatch rel.pkColumns row := by
    apply pkMatch_congr
    intro other member
    apply Function.update_of_ne
    rintro rfl
    exact apart member
  funext other
  simp only [Function.comp_apply, fillRow, key, List.lookup_cons]
  by_cases here : other = name
  · subst here
    simp only [lookup_eq_none distinct, Function.update_self, BEq.rfl, fillValue]
  · simp only [beq_false_of_ne here, Function.update_of_ne here]
    rw [show (addColumn rel base s (name, type)).physical.lookup other = s.physical.lookup other from lookup_alterPhysical here]

theorem foldl_addColumn_active (rel : BaseRelation) (base : BaseTable) (added : List (String × String)) (s : ShadowRow) :
    (added.foldl (addColumn rel base) s).columns = s.columns ++ added.map Prod.fst ∧
      (added.foldl (addColumn rel base) s).columnTypes = s.columnTypes ++ added.map Prod.snd := by
  induction added generalizing s with
  | nil => exact ⟨(List.append_nil _).symm, (List.append_nil _).symm⟩
  | cons column added ih =>
      obtain ⟨columns, types⟩ := ih (addColumn rel base s column)
      rw [List.foldl_cons, columns, types]
      simp only [addColumn, List.append_assoc, List.map_cons, List.cons_append, List.nil_append, and_self]

theorem foldl_addColumn {rel : BaseRelation} {base : BaseTable} {added : List (String × String)} (s : ShadowRow)
    (distinct : (added.map Prod.fst).Nodup) (apart : ∀ p ∈ added, p.1 ∉ rel.pkColumns) :
    (added.foldl (addColumn rel base) s).rows = s.rows.map (fillRow rel base s.physical added) ∧
      (added.foldl (addColumn rel base) s).relid = s.relid ∧ (added.foldl (addColumn rel base) s).pkColumns = s.pkColumns ∧
      (added.foldl (addColumn rel base) s).frontier = s.frontier ∧ (added.foldl (addColumn rel base) s).failed = s.failed := by
  induction added generalizing s with
  | nil => exact ⟨(List.map_id _).symm, rfl, rfl, rfl, rfl⟩
  | cons column added ih =>
      rw [List.map_cons, List.nodup_cons] at distinct
      obtain ⟨rows, kept⟩ := ih (addColumn rel base s column) distinct.2 fun p member => apart p (List.mem_cons_of_mem _ member)
      rw [List.foldl_cons]
      refine ⟨?_, kept⟩
      rw [rows, addColumn_fillRow distinct.1 (apart column List.mem_cons_self)]

/-- A shadow that mirrors its table as of its frontier, and the table as `extend` finds it. -/
structure Extends (S : Schema pf) (rel : BaseRelation) (base : BaseTable) (s : ShadowRow) (start : List BaseRow) : Prop where
  fits : s.Fits S
  paired : s.columns.length = s.columnTypes.length
  pk : rel.pkColumns = S.primaryKey s.relid
  mirrors : Mirrors S s.columns s s.rows start
  keyed : Keyed (S.keyOf s.relid) start
  rows : ∀ row ∈ start, S.RowOk s.relid row
  physical : ∀ row ∈ s.rows, ∀ p ∈ s.physical, pf.Holds p.2 (row p.1)
  distinct : (base.columns.map Prod.fst).Nodup
  described : ∀ p ∈ base.columns, (S.relation s.relid).provides p.1 p.2
  table : ∀ row ∈ base.rows, S.RowOk s.relid row

section Extend

variable {rel : BaseRelation} (needed keys : List String) {base : BaseTable} {s : ShadowRow} {start : List BaseRow}
  (extends' : Extends S rel base s start)
include extends'

theorem Extends.added_distinct : ((s.added rel needed base).map Prod.fst).Nodup :=
  List.Nodup.sublist (List.filter_sublist.map _) extends'.distinct

omit extends' in
variable {needed} in
theorem ShadowRow.mem_added {p : String × String} (member : p ∈ s.added rel needed base) : p ∈ base.columns ∧ p.1 ∉ s.columns := by
  rw [ShadowRow.added, List.mem_filter, Bool.and_eq_true, Bool.not_eq_true', ← Bool.not_eq_true, List.contains_iff_mem] at member
  exact ⟨member.1, member.2.1⟩

theorem Extends.added_apart : ∀ p ∈ s.added rel needed base, p.1 ∉ rel.pkColumns := by
  intro p member inKey
  rw [extends'.pk] at inKey
  exact (ShadowRow.mem_added member).2 (extends'.fits.key inKey)

omit extends' in
/-- The active columns afterwards: those before and the added ones, in the table's order. -/
theorem extendShadow_perm (paired : s.columns.length = s.columnTypes.length) :
    ((extendShadow rel needed keys base s).columns.zip (extendShadow rel needed keys base s).columnTypes).Perm
      (s.columns.zip s.columnTypes ++ s.added rel needed base) := by
  obtain ⟨columns, types⟩ := foldl_addColumn_active rel base (s.added rel needed base) s
  have pairs : ((extendShadow rel needed keys base s).columns.zip (extendShadow rel needed keys base s).columnTypes) =
      attributeOrder base (((s.added rel needed base).foldl (addColumn rel base) s).columns.zip
        ((s.added rel needed base).foldl (addColumn rel base) s).columnTypes) := by
    simp only [extendShadow, List.zip_map', Prod.mk.eta, List.map_id']
    rfl
  rw [pairs, columns, types, List.zip_append paired, List.zip_map']
  simp only [Prod.mk.eta, List.map_id']
  exact List.mergeSort_perm _ _

theorem Extends.columns : ∀ name, name ∈ (extendShadow rel needed keys base s).columns ↔
    name ∈ s.columns ∨ name ∈ (s.added rel needed base).map Prod.fst := by
  intro name
  have firsts := (@extendShadow_perm rel needed keys base _ extends'.paired).map Prod.fst
  have same : (extendShadow rel needed keys base s).columns.length = (extendShadow rel needed keys base s).columnTypes.length := by
    simp only [extendShadow, List.length_map]
  rw [List.map_fst_zip same.le, List.map_append, List.map_fst_zip extends'.paired.le] at firsts
  rw [firsts.mem_iff, List.mem_append]

omit extends' in
theorem extendShadow_rows (distinct : ((s.added rel needed base).map Prod.fst).Nodup) (apart : ∀ p ∈ s.added rel needed base, p.1 ∉ rel.pkColumns) :
    (extendShadow rel needed keys base s).rows = s.rows.map (fillRow rel base s.physical (s.added rel needed base)) ∧
      (extendShadow rel needed keys base s).relid = s.relid ∧ (extendShadow rel needed keys base s).pkColumns = s.pkColumns ∧
      (extendShadow rel needed keys base s).frontier = s.frontier ∧ (extendShadow rel needed keys base s).failed = s.failed := by
  exact foldl_addColumn s distinct apart

omit extends' in
theorem extendShadow_pairs :
    (extendShadow rel needed keys base s).columns = (attributeOrder base ((s.columns ++ (s.added rel needed base).map Prod.fst).zip
        (s.columnTypes ++ (s.added rel needed base).map Prod.snd))).map Prod.fst ∧
      (extendShadow rel needed keys base s).columnTypes = (attributeOrder base ((s.columns ++ (s.added rel needed base).map Prod.fst).zip
        (s.columnTypes ++ (s.added rel needed base).map Prod.snd))).map Prod.snd := by
  obtain ⟨columns, types⟩ := foldl_addColumn_active rel base (s.added rel needed base) s
  rw [← columns, ← types]
  exact ⟨rfl, rfl⟩

theorem Extends.fits' : (extendShadow rel needed keys base s).Fits S := by
  obtain ⟨_, relid, pk, _⟩ := extendShadow_rows needed keys (extends'.added_distinct needed) (extends'.added_apart needed)
  refine ⟨?_, ?_, ?_, ?_⟩
  · rw [pk, relid]
    exact extends'.fits.pk
  · intro name active
    rw [relid]
    rcases (extends'.columns needed keys name).mp active with before | added
    · exact extends'.fits.active before
    · obtain ⟨p, within, rfl⟩ := List.mem_map.mp added
      obtain ⟨c, inRel, named, _⟩ := provides_iff.mp (extends'.described p (ShadowRow.mem_added within).1)
      exact named ▸ List.mem_map_of_mem inRel
  · intro name inKey
    rw [relid] at inKey
    exact (extends'.columns needed keys name).mpr (Or.inl (extends'.fits.key inKey))
  · intro p within
    rw [relid]
    rcases List.mem_append.mp ((@extendShadow_perm rel needed keys base _ extends'.paired).mem_iff.mp within) with before | added
    · exact extends'.fits.provided p before
    · exact extends'.described p (ShadowRow.mem_added added).1

theorem Extends.keyed_rows : Keyed (S.keyOf s.relid) s.rows := by
  have keys := (extends'.mirrors.rows.map (S.keyOf s.relid)).nodup_iff
  rw [List.map_map, List.map_map] at keys
  have narrow : S.keyOf s.relid ∘ narrowRow s.columns = S.keyOf s.relid := funext (S.keyOf_narrow extends'.fits.key)
  rw [narrow] at keys
  exact keys.mpr extends'.keyed

theorem Extends.pkMatch_eq {row a : BaseRow} (inTable : a ∈ start) (same : narrowRow s.columns row = narrowRow s.columns a) :
    pkMatch rel.pkColumns row = fun b => decide (S.keyOf s.relid b = S.keyOf s.relid a) := by
  funext b
  have present := (extends'.rows a inTable).key
  rw [Bool.eq_iff_iff, decide_eq_true_eq, ← S.keyOf_of_narrow_eq extends'.fits.key same, pkMatch, extends'.pk]
  simp only [List.all_eq_true, sqlEq, Bool.and_eq_true, bne_iff_ne, beq_iff_eq, Schema.keyOf, List.map_inj_left]
  constructor
  · intro equal c inKey
    exact (equal c inKey).2.symm
  · intro equal c inKey
    refine ⟨?_, (equal c inKey).symm⟩
    rw [eq_of_narrowRow_eq same (extends'.fits.key inKey)]
    exact present c inKey

/-- A row of the shadow is filled in by the key it has in the table as of the frontier. -/
theorem Extends.fillRow_shown {row a : BaseRow} (member : row ∈ s.rows) (inTable : a ∈ start)
    (same : narrowRow s.columns row = narrowRow s.columns a) {name : String} (active : name ∈ (extendShadow rel needed keys base s).columns) :
    fillRow rel base s.physical (s.added rel needed base) row name =
      Lineage.shown s.columns (s.backfill S base) ⟨a, fun _ => some a⟩ name := by
  have key : S.keyOf s.relid row = S.keyOf s.relid a := S.keyOf_of_narrow_eq extends'.fits.key same
  by_cases before : name ∈ s.columns
  · have absent : name ∉ (s.added rel needed base).map Prod.fst := by
      intro added
      obtain ⟨p, within, rfl⟩ := List.mem_map.mp added
      exact (ShadowRow.mem_added within).2 before
    rw [Lineage.shown_held before]
    simp only [fillRow, lookup_eq_none absent]
    exact eq_of_narrowRow_eq same before
  obtain ⟨⟨_, type⟩, within, rfl⟩ := List.mem_map.mp (((extends'.columns needed keys name).mp active).resolve_left before)
  have matching := extends'.pkMatch_eq inTable same
  have listed := lookup_of_mem extends'.distinct (ShadowRow.mem_added within).1
  have found : s.rows.find? (fun r => decide (S.keyOf s.relid r = S.keyOf s.relid a)) = some row := by
    rw [← key]
    exact extends'.keyed_rows.find_of_mem member
  simp only [fillRow, lookup_of_mem (extends'.added_distinct needed) within, Lineage.shown, before, if_false, ShadowRow.backfill, matching,
    listed, found, Option.map_some, Option.getD_some]

/-- What `extend` leaves: the shadow's own columns as they were, the added ones filled in. -/
theorem Extends.extended : Extended S s.columns (s.backfill S base) (extendShadow rel needed keys base s)
    (extendShadow rel needed keys base s).rows (lineages start) := by
  obtain ⟨rows, relid, _⟩ := extendShadow_rows needed keys (extends'.added_distinct needed) (extends'.added_apart needed)
  refine ⟨?_, fun name before => (extends'.columns needed keys name).mpr (Or.inl before), ?_, ?_⟩
  · rw [relid]
    exact extends'.fits.key
  · rw [rows, relid]
    intro row' member c inRel active ty resolved
    obtain ⟨row, before, rfl⟩ := List.mem_map.mp member
    simp only [fillRow]
    cases added : (s.added rel needed base).lookup c.name with
    | none =>
        have listed : c.name ∈ s.columns := by
          refine ((extends'.columns needed keys c.name).mp active).resolve_right fun inAdded => ?_
          obtain ⟨p, within, named⟩ := List.mem_map.mp inAdded
          rw [← named, lookup_of_mem (extends'.added_distinct needed) (show (p.1, p.2) ∈ _ from within)] at added
          exact Option.some_ne_none _ added
        exact extends'.mirrors.typed row before c inRel listed ty resolved
    | some type =>
        obtain ⟨_, _, split, _⟩ := List.lookup_eq_some_iff.mp added
        have within : (c.name, type) ∈ s.added rel needed base := split ▸ List.mem_append_right _ List.mem_cons_self
        obtain ⟨c', inRel', named, typed⟩ := provides_iff.mp (extends'.described _ (ShadowRow.mem_added within).1)
        obtain rfl : c' = c := List.inj_on_of_nodup_map (S.distinct s.relid) inRel' inRel named
        obtain rfl : type = ty := Option.some.inj (typed.symm.trans resolved)
        simp only
        cases found : base.rows.find? (pkMatch rel.pkColumns row) with
        | some b => exact (extends'.table b (List.mem_of_find?_eq_some found)).typed c' inRel type typed
        | none =>
            by_cases kept : s.physical.lookup c'.name = some type
            · obtain ⟨_, _, split', _⟩ := List.lookup_eq_some_iff.mp kept
              rw [if_pos kept]
              exact extends'.physical row before (c'.name, type) (split' ▸ List.mem_append_right _ List.mem_cons_self)
            · rw [if_neg kept]
              exact Or.inl rfl
  · rw [rows, lineages, List.map_map, List.map_map]
    apply perm_map_of_agree extends'.mirrors.rows
    intro row member a inTable same
    exact narrowRow_congr fun name active => extends'.fillRow_shown needed keys member inTable same active

end Extend

end Nabla
