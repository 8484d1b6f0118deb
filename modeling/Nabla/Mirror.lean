import Nabla.Wire

/-! A shadow against its base table: on the columns that are settled the two hold the
same rows, and absorbing a row change keeps it so. -/
namespace Nabla
open Bags

variable {pf : Platform} {S : Schema pf}

/-- What a shadow's catalog row promises: the table's primary key, which is active, and
active columns that the description has, with their types. -/
structure ShadowRow.Fits (S : Schema pf) (s : ShadowRow) : Prop where
  pk : s.pkColumns = S.primaryKey s.relid
  active : s.columns ⊆ (S.relation s.relid).columns.map RelationColumn.name
  key : S.primaryKey s.relid ⊆ s.columns
  provided : ∀ p ∈ s.columns.zip s.columnTypes, (S.relation s.relid).provides p.1 p.2

theorem provides_iff {rel : Relation} {name type : String} : rel.provides name type = true ↔
    ∃ c ∈ rel.columns, c.name = name ∧ c.typeName = some type := by
  simp only [Relation.provides, List.any_eq_true, Bool.and_eq_true, decide_eq_true_eq]

/-- The shadow holds the rows of the base table, as far as the columns `cols` go; its
other active columns hold values of their type. -/
structure Mirrors (S : Schema pf) (cols : List String) (s : ShadowRow) (rows base : List BaseRow) : Prop where
  key : S.primaryKey s.relid ⊆ cols
  active : cols ⊆ s.columns
  typed : ∀ row ∈ rows, ∀ c ∈ (S.relation s.relid).columns, c.name ∈ s.columns →
    ∀ ty, c.typeName = some ty → pf.Holds ty (row c.name)
  rows : (rows.map (narrowRow cols)).Perm (base.map (narrowRow cols))

theorem Schema.keyOf_narrow (S : Schema pf) {relid : Nat} {cols : List String}
    (key : S.primaryKey relid ⊆ cols) (row : BaseRow) : S.keyOf relid (narrowRow cols row) = S.keyOf relid row :=
  List.map_congr_left fun _ member => narrowRow_of_mem (key member) row

theorem Schema.keyOf_of_narrow_eq (S : Schema pf) {relid : Nat} {cols : List String}
    (key : S.primaryKey relid ⊆ cols) {r r' : BaseRow} (same : narrowRow cols r = narrowRow cols r') :
    S.keyOf relid r = S.keyOf relid r' := by
  rw [← S.keyOf_narrow key r, same, S.keyOf_narrow key]

theorem Schema.map_others (S : Schema pf) {relid : Nat} {cols : List String} (key : S.primaryKey relid ⊆ cols)
    (old : BaseRow) (rows : List BaseRow) :
    (S.others relid old rows).map (narrowRow cols) = S.others relid old (rows.map (narrowRow cols)) := by
  rw [Schema.others, Schema.others, List.filter_map]
  congr 1
  apply List.filter_congr
  intro row _
  simp only [Function.comp_apply, S.keyOf_narrow key]

theorem Schema.others_perm (S : Schema pf) {relid : Nat} {rows : List BaseRow} (keyed : Keyed (S.keyOf relid) rows)
    {old : BaseRow} (member : old ∈ rows) : rows.Perm (old :: S.others relid old rows) := by
  obtain ⟨before, after, rfl⟩ := List.append_of_mem member
  exact List.perm_middle.trans ((keyed.delete_perm List.perm_middle).symm.cons old)

def ShadowRow.oldValue (pf : Platform) (s : ShadowRow) (row : BaseRow) (c : RelationColumn) : ColumnValue :=
  if c.name ∈ s.columns then castValue pf (row c.name) else .null

theorem ShadowRow.oldValue_known (s : ShadowRow) (row : BaseRow) (c : RelationColumn) :
    s.oldValue pf row c ≠ .unchanged := by
  unfold ShadowRow.oldValue
  split
  · exact castValue_known pf _
  · exact ColumnValue.noConfusion

theorem columnIndex_self {rel : Relation} (distinct : (rel.columns.map RelationColumn.name).Nodup) {i : Nat}
    {c : RelationColumn} (at_i : rel.columns[i]? = some c) : rel.columnIndex c.name = some i := by
  have within : c ∈ rel.columns := List.mem_of_getElem? at_i
  obtain ⟨j, e, index, at_j, named⟩ := Relation.columnIndex_of_mem (List.mem_map_of_mem within)
  have below := (List.getElem?_eq_some_iff.mp at_i).1
  have same : i = j := by
    apply (List.getElem?_inj (by rwa [List.length_map]) distinct).mp
    rw [List.getElem?_map, List.getElem?_map, at_i, at_j, Option.map_some, Option.map_some, named]
  rw [index, same]

theorem shadowTuple_eq {rel : Relation} (distinct : (rel.columns.map RelationColumn.name).Nodup) (s : ShadowRow)
    (row : BaseRow) : shadowTuple pf s rel row = rel.columns.map (s.oldValue pf row) := by
  have columns : rel.columns.map (s.oldValue pf row) =
      rel.columns.zipIdx.map fun p => s.oldValue pf row p.1 := by
    rw [show (fun p : RelationColumn × Nat => s.oldValue pf row p.1) = s.oldValue pf row ∘ Prod.fst from rfl,
      ← List.map_map, List.zipIdx_map_fst]
  rw [columns, shadowTuple]
  apply List.map_congr_left
  rintro ⟨c, i⟩ member
  have at_i : rel.columns[i]? = some c := List.mem_zipIdx_iff_getElem?.mp member
  have listed : (shadowColumnIndexes s rel).contains i = decide (c.name ∈ s.columns) := by
    rw [Bool.eq_iff_iff, List.contains_iff_mem, decide_eq_true_eq, shadowColumnIndexes, List.mem_filterMap]
    constructor
    · rintro ⟨name, inShadow, index⟩
      obtain ⟨_, holds, _⟩ := List.findIdx?_eq_some_iff_getElem.mp index
      have named := of_decide_eq_true holds
      rw [(List.getElem?_eq_some_iff.mp at_i).2] at named
      rwa [named]
    · intro inShadow
      exact ⟨c.name, inShadow, columnIndex_self distinct at_i⟩
  simp only [listed, decide_eq_true_eq, ShadowRow.oldValue]
  rfl

theorem keyText_old {rel : Relation} {T : RelationColumn → ColumnValue} {new : Option Tuple} {key : List String}
    {row : BaseRow} (texts : ∀ c ∈ rel.columns, c.name ∈ key →
      ∃ s, T c = .text s ∧ bindValue pf c (.text s) = .ok (row c.name)) :
    CarriesKey pf rel key (some (rel.columns.map T)) new row := by
  rintro name member i c at_i rfl
  obtain ⟨s, text, bound⟩ := texts c (List.mem_of_getElem? at_i) member
  refine ⟨s, ?_, bound⟩
  simp only [keyText, Option.bind_some, List.getElem?_map, at_i, Option.map_some, text]

theorem Schema.bind_output (S : Schema pf) {relid : Nat} {row : BaseRow} (ok : S.RowOk relid row)
    {c : RelationColumn} (member : c ∈ (S.relation relid).columns) (present : row c.name ≠ .null) :
    bindValue pf c (.text (pf.output (row c.name))) = .ok (row c.name) := by
  rw [← encodeValue_text present]
  exact bindValue_encode (S.resolved relid c member) (ok.typed c member)

theorem Encodes.update_carriesKey {relid : Nat} {old new : BaseRow} {oldTuple : Option (UInt8 × Tuple)}
    {tuple : Tuple} (encodes : Encodes S (.update relid old new) (.update relid oldTuple tuple))
    (oldOk : S.RowOk relid old) (newOk : S.RowOk relid new) :
    CarriesKey pf (S.relation relid) (S.primaryKey relid) (oldTuple.map Prod.snd) (some tuple) old := by
  have sent : ∀ c ∈ (S.relation relid).columns, c.name ∈ S.primaryKey relid →
      ∃ s, encodeValue pf (old c.name) = .text s ∧ bindValue pf c (.text s) = .ok (old c.name) := by
    intro c member inKey
    have present := oldOk.key c.name inKey
    exact ⟨_, encodeValue_text present, S.bind_output oldOk member present⟩
  cases encodes with
  | update sameKey encodes =>
      rintro name inKey i c at_i rfl
      have member := List.mem_of_getElem? at_i
      have present := newOk.key c.name inKey
      have equal : old c.name = new c.name := List.map_inj_left.mp sameKey c.name inKey
      obtain ⟨below, eq⟩ := List.getElem?_eq_some_iff.mp at_i
      have long : i < tuple.length := encodes.length_eq ▸ below
      have value := List.Forall₂.get encodes below long
      simp only [List.get_eq_getElem, eq] at value
      have text : tuple[i] = .text (pf.output (new c.name)) := by
        rcases value with encoded | ⟨_, _, unsent⟩
        · rw [encoded, encodeValue_text present]
        · exact absurd inKey unsent
      refine ⟨pf.output (new c.name), ?_, ?_⟩
      · simp only [keyText, Option.map_none, Option.bind_none, Option.bind_some, List.getElem?_eq_getElem long, text]
      · rw [equal]
        exact S.bind_output newOk member present
  | updateKey encodes =>
      apply keyText_old
      intro c member inKey
      rw [if_pos inKey]
      exact sent c member inKey
  | updateFull encodes => exact keyText_old sent

theorem Encodes.delete_carriesKey {relid : Nat} {old : BaseRow} {kind : UInt8} {tuple : Tuple}
    (encodes : Encodes S (.delete relid old) (.delete relid kind tuple)) (oldOk : S.RowOk relid old) :
    CarriesKey pf (S.relation relid) (S.primaryKey relid) (some tuple) none old := by
  have sent : ∀ c ∈ (S.relation relid).columns, c.name ∈ S.primaryKey relid →
      ∃ s, encodeValue pf (old c.name) = .text s ∧ bindValue pf c (.text s) = .ok (old c.name) := by
    intro c member inKey
    have present := oldOk.key c.name inKey
    exact ⟨_, encodeValue_text present, S.bind_output oldOk member present⟩
  cases encodes with
  | deleteKey =>
      apply keyText_old
      intro c member inKey
      rw [if_pos inKey]
      exact sent c member inKey
  | deleteFull => exact keyText_old sent

section Follow

variable {s : ShadowRow} (fits : s.Fits S) {cols : List String} {rows base : List BaseRow}
include fits

theorem ShadowRow.Fits.changeKey {oldT newT : Option Tuple} {old : BaseRow}
    (carries : CarriesKey pf (S.relation s.relid) (S.primaryKey s.relid) oldT newT old) :
    changeKey pf s (S.relation s.relid) oldT newT =
      .ok ((S.primaryKey s.relid).map fun name => (name, old name)) := by
  have some : s.pkColumns ≠ [] := by
    rw [fits.pk]
    exact S.key_nonempty s.relid
  have read := changeKey_ok some (by rw [fits.pk]; exact S.key_columns s.relid)
    (by rw [fits.pk]; exact carries)
  rwa [fits.pk] at read

theorem ShadowRow.Fits.shadowOldRow (mirrors : Mirrors S cols s s.rows base) (keyed : Keyed (S.keyOf s.relid) base)
    {old : BaseRow} (member : old ∈ base) (oldOk : S.RowOk s.relid old) {oldT newT : Option Tuple}
    (carries : CarriesKey pf (S.relation s.relid) (S.primaryKey s.relid) oldT newT old) :
    ∃ row ∈ s.rows, shadowOldRow pf s (S.relation s.relid) oldT newT =
        .ok ((S.relation s.relid).columns.map (s.oldValue pf row)) ∧
      narrowRow cols row = narrowRow cols old := by
  have matching := keyMatches_eq oldOk.key
  have held : narrowRow cols old ∈ s.rows.map (narrowRow cols) :=
    mirrors.rows.mem_iff.mpr (List.mem_map_of_mem member)
  obtain ⟨copy, inShadow, same⟩ := List.mem_map.mp held
  cases found : s.rows.find? (keyMatches ((S.primaryKey s.relid).map fun name => (name, old name))) with
  | none =>
      have missing := List.find?_eq_none.mp found copy inShadow
      rw [matching, decide_eq_true_eq] at missing
      exact absurd (S.keyOf_of_narrow_eq mirrors.key same) missing
  | some row =>
      have inRows := List.mem_of_find?_eq_some found
      have sameKey : S.keyOf s.relid row = S.keyOf s.relid old := by
        have holds := List.find?_some found
        rwa [matching, decide_eq_true_eq] at holds
      refine ⟨row, inRows, ?_, ?_⟩
      · simp only [Nabla.shadowOldRow, fits.changeKey carries, found, shadowTuple_eq (S.distinct s.relid)]
      · have inBase : narrowRow cols row ∈ base.map (narrowRow cols) :=
          mirrors.rows.mem_iff.mp (List.mem_map_of_mem inRows)
        obtain ⟨other, otherIn, equal⟩ := List.mem_map.mp inBase
        have otherKey := (S.keyOf_of_narrow_eq mirrors.key equal).trans sameKey
        rw [← equal, keyed.eq_of_mem otherIn member otherKey]

/-- The completed new row of an update: each column holds the new value, or was not
sent and holds the value of the shadow's copy of the old row. -/
def Completed (S : Schema pf) (s : ShadowRow) (tuple : Tuple) (old new row full : BaseRow) : Prop :=
  ∀ c ∈ (S.relation s.relid).columns,
    (full c.name = new c.name ∧ (c, ColumnValue.unchanged) ∉ (S.relation s.relid).columns.zip tuple) ∨
    (full c.name = narrowRow s.columns row c.name ∧ old c.name = new c.name ∧
      (c, ColumnValue.unchanged) ∈ (S.relation s.relid).columns.zip tuple)

/-- A tuple the shadow stores as `full`, a row of the description's types. -/
structure Completes (S : Schema pf) (relid : Nat) (tuple : Tuple) (full : BaseRow) : Prop where
  reads : TupleReads pf (S.relation relid) tuple full
  typed : ∀ c ∈ (S.relation relid).columns, ∀ ty, c.typeName = some ty → pf.Holds ty (full c.name)

omit fits in
theorem completes_encodeRow {relid : Nat} {row : BaseRow} (ok : S.RowOk relid row) :
    Completes S relid (encodeRow pf (S.relation relid) row) row where
  reads := by
    rw [TupleReads, encodeRow, List.forall₂_map_right_iff]
    exact List.forall₂_same.mpr fun c member => bindValue_encode (S.resolved relid c member) (ok.typed c member)
  typed := ok.typed

omit fits in
theorem completes_new {old new row : BaseRow} {sent : List String} {tuple : Tuple}
    (encodes : EncodesNew pf (S.relation s.relid) sent old new tuple) (newOk : S.RowOk s.relid new)
    (typed : ∀ c ∈ (S.relation s.relid).columns, c.name ∈ s.columns →
      ∀ ty, c.typeName = some ty → pf.Holds ty (row c.name)) (mentions : String → Bool) :
    ∃ t full, resolveUnchanged mentions (S.relation s.relid).columns tuple
        (some ((S.relation s.relid).columns.map (s.oldValue pf row))) = .ok t ∧
      Completes S s.relid t full ∧ Completed S s tuple old new row full := by
  have bound : ∀ c ∈ (S.relation s.relid).columns,
      bindValue pf c (s.oldValue pf row c) = .ok (narrowRow s.columns row c.name) := by
    intro c member
    unfold ShadowRow.oldValue narrowRow
    split
    · rename_i active
      exact bindValue_cast (S.resolved s.relid c member) (typed c member active)
    · exact bindValue_null (S.resolved s.relid c member)
  have held : ∀ c ∈ (S.relation s.relid).columns, ∀ ty, c.typeName = some ty →
      pf.Holds ty (narrowRow s.columns row c.name) := by
    intro c member ty resolved
    unfold narrowRow
    split
    · rename_i active
      exact typed c member active ty resolved
    · exact Or.inl rfl
  have unmarked : ∀ {c v}, (c, v) ∈ (S.relation s.relid).columns.zip tuple → v = encodeValue pf (new c.name) →
      (c, ColumnValue.unchanged) ∉ (S.relation s.relid).columns.zip tuple := by
    rintro c v paired sent marked
    rw [zip_functional encodes.length_eq (List.Nodup.of_map _ (S.distinct s.relid)) paired marked] at sent
    exact encodeValue_sent pf _ sent.symm
  have filled : List.Forall₂ (fun c v =>
      ((∃ d, bindValue pf c v = .ok d ∧ ((∀ ty, c.typeName = some ty → pf.Holds ty d) ∧
          (d = new c.name ∧ (c, ColumnValue.unchanged) ∉ (S.relation s.relid).columns.zip tuple ∨ (d = narrowRow s.columns row c.name ∧ old c.name = new c.name ∧
            (c, ColumnValue.unchanged) ∈ (S.relation s.relid).columns.zip tuple)))) ∧
        v ≠ .unchanged) ∨
      (v = .unchanged ∧
        ∃ d, bindValue pf c (s.oldValue pf row c) = .ok d ∧ ((∀ ty, c.typeName = some ty → pf.Holds ty d) ∧
          (d = new c.name ∧ (c, ColumnValue.unchanged) ∉ (S.relation s.relid).columns.zip tuple ∨ (d = narrowRow s.columns row c.name ∧ old c.name = new c.name ∧
            (c, ColumnValue.unchanged) ∈ (S.relation s.relid).columns.zip tuple)))))
      (S.relation s.relid).columns tuple := by
    apply forall₂_imp_zip encodes
    rintro c v paired value
    have member := (List.of_mem_zip paired).1
    rcases value with rfl | ⟨rfl, same, _⟩
    · left
      exact ⟨⟨new c.name, bindValue_encode (S.resolved s.relid c member) (newOk.typed c member),
        newOk.typed c member, Or.inl ⟨rfl, unmarked paired rfl⟩⟩, encodeValue_sent pf _⟩
    · right
      exact ⟨rfl, narrowRow s.columns row c.name, bound c member, held c member, Or.inr ⟨rfl, same, paired⟩⟩
  obtain ⟨t, resolved, values⟩ := resolveUnchanged_ok mentions (fun c _ => s.oldValue_known row c) filled
  obtain ⟨full, reads, all⟩ := tupleReads_of_values (S.distinct s.relid) values
  exact ⟨t, full, resolved, ⟨reads, fun c member => (all c member).1⟩, fun c member => (all c member).2⟩

omit fits in
theorem lookup_map_self {names : List String} {f : String → Datum} (name : String) :
    ((names.map fun n => (n, f n)).lookup name).getD .null = narrowRow names f name := by
  induction names with
  | nil => rfl
  | cons n names ih =>
      by_cases same : name = n
      · subst same
        simp only [List.map_cons, List.lookup_cons, BEq.rfl, Option.getD_some,
          narrowRow_of_mem List.mem_cons_self]
      · simp only [List.map_cons, List.lookup_cons, beq_false_of_ne same, ih, narrowRow, List.mem_cons, same,
          false_or]

omit fits in
theorem shadowInsertValues_ok {rel : Relation} {tuple : Tuple} {full : BaseRow}
    (reads : TupleReads pf rel tuple full) {names : List String}
    (known : names ⊆ rel.columns.map RelationColumn.name) :
    shadowInsertValues pf rel tuple (names.filterMap rel.columnIndex) =
      .ok (names.map fun n => (n, full n)) := by
  induction names with
  | nil => rfl
  | cons name names ih =>
      obtain ⟨i, c, index, at_i, named⟩ := Relation.columnIndex_of_mem (known List.mem_cons_self)
      have rest := ih fun n member => known (List.mem_cons_of_mem _ member)
      obtain ⟨below, eq⟩ := List.getElem?_eq_some_iff.mp at_i
      have long : i < tuple.length := reads.length_eq ▸ below
      have bound := List.Forall₂.get reads below long
      simp only [List.get_eq_getElem, eq, named] at bound
      simp only [List.filterMap_cons, index, shadowInsertValues, at_i, List.getElem?_eq_getElem long, bound, rest,
        named, Except.map, List.map_cons]

theorem ShadowRow.Fits.shadowInsert {tuple : Tuple} {full : BaseRow} (completes : Completes S s.relid tuple full)
    (free : ∀ r ∈ rows, S.keyOf s.relid r ≠ S.keyOf s.relid full) :
    shadowInsert pf s (S.relation s.relid) tuple rows = .ok (rows ++ [narrowRow s.columns full]) := by
  have some : shadowColumnIndexes s (S.relation s.relid) ≠ [] := by
    obtain ⟨name, member⟩ := List.exists_mem_of_ne_nil _ (S.key_nonempty s.relid)
    obtain ⟨i, _, index, _⟩ := Relation.columnIndex_of_mem (S.key_columns s.relid member)
    exact List.ne_nil_of_mem (List.mem_filterMap.mpr ⟨name, fits.key member, index⟩)
  have values := shadowInsertValues_ok completes.reads fits.active
  have unique : rows.any (fun r => s.pkColumns.all fun c => sqlEq (r c) (narrowRow s.columns full c)) = false := by
    rw [List.any_eq_false]
    intro r member taken
    rw [fits.pk, List.all_eq_true] at taken
    apply free r member
    apply List.map_congr_left
    intro name inKey
    have equal := taken name inKey
    rw [sqlEq, Bool.and_eq_true, beq_iff_eq, narrowRow_of_mem (fits.key inKey)] at equal
    exact equal.2
  simp only [Nabla.shadowInsert, some, if_false]
  rw [show shadowColumnIndexes s (S.relation s.relid) = s.columns.filterMap (S.relation s.relid).columnIndex from rfl,
    values]
  simp only [lookup_map_self, unique, Bool.false_eq_true, if_false]

theorem ShadowRow.Fits.shadowDelete {oldT newT : Option Tuple} {old : BaseRow} (oldOk : S.RowOk s.relid old)
    (carries : CarriesKey pf (S.relation s.relid) (S.primaryKey s.relid) oldT newT old) :
    shadowDelete pf s (S.relation s.relid) oldT newT rows = .ok (S.others s.relid old rows) := by
  simp only [Nabla.shadowDelete, fits.changeKey carries, Except.map, keyMatches_eq oldOk.key]
  rfl

omit fits in
theorem Mirrors.others (mirrors : Mirrors S cols s rows base) (old : BaseRow) :
    Mirrors S cols s (S.others s.relid old rows) (S.others s.relid old base) where
  key := mirrors.key
  active := mirrors.active
  typed := fun row member => mirrors.typed row (List.mem_of_mem_filter member)
  rows := by
    rw [S.map_others mirrors.key, S.map_others mirrors.key]
    exact mirrors.rows.filter _

omit fits in
theorem Mirrors.free (mirrors : Mirrors S cols s rows base) {new : BaseRow}
    (free : S.keyOf s.relid new ∉ base.map (S.keyOf s.relid)) :
    ∀ r ∈ rows, S.keyOf s.relid r ≠ S.keyOf s.relid new := by
  intro r member same
  have held : narrowRow cols r ∈ base.map (narrowRow cols) := mirrors.rows.mem_iff.mp (List.mem_map_of_mem member)
  obtain ⟨b, inBase, equal⟩ := List.mem_map.mp held
  exact free (List.mem_map.mpr ⟨b, inBase, (S.keyOf_of_narrow_eq mirrors.key equal).trans same⟩)

omit fits in
theorem Mirrors.append (mirrors : Mirrors S cols s rows base) {full new : BaseRow}
    (typed : ∀ c ∈ (S.relation s.relid).columns, ∀ ty, c.typeName = some ty → pf.Holds ty (full c.name))
    (settled : ∀ name ∈ cols, full name = new name) :
    Mirrors S cols s (rows ++ [narrowRow s.columns full]) (base ++ [new]) where
  key := mirrors.key
  active := mirrors.active
  typed := by
    intro row member c inRel active ty resolved
    rcases List.mem_append.mp member with before | added
    · exact mirrors.typed row before c inRel active ty resolved
    · rw [List.mem_singleton.mp added, narrowRow_of_mem active]
      exact typed c inRel ty resolved
  rows := by
    rw [List.map_append, List.map_append, List.map_singleton, List.map_singleton,
      narrowRow_narrowRow mirrors.active, narrowRow_congr settled]
    exact mirrors.rows.append_right _

end Follow

def RowChange.relids : RowChange → List Nat
  | .insert relid _ | .delete relid _ | .update relid _ _ => [relid]
  | .truncate relids => relids

/-- How a shadow's rows follow a row change: the rows of an update are the old ones
without the old row, and the new row completed from the shadow's copy of the old one. -/
inductive Absorbs (S : Schema pf) (s : ShadowRow) (cols : List String) (rows : List BaseRow) :
    RowChange → Change → List BaseRow → Prop where
  | insert {new : BaseRow} {change : Change} :
      Absorbs S s cols rows (.insert s.relid new) change (rows ++ [narrowRow s.columns new])
  | delete {old : BaseRow} {change : Change} :
      Absorbs S s cols rows (.delete s.relid old) change (S.others s.relid old rows)
  | update {old new row full : BaseRow} {oldT : Option (UInt8 × Tuple)} {tuple : Tuple} (copy : row ∈ rows) (same : narrowRow cols row = narrowRow cols old)
      (typed : ∀ c ∈ (S.relation s.relid).columns, ∀ ty, c.typeName = some ty → pf.Holds ty (full c.name))
      (completed : Completed S s tuple old new row full) :
      Absorbs S s cols rows (.update s.relid old new) (.update s.relid oldT tuple)
        (S.others s.relid old rows ++ [narrowRow s.columns full])
  | truncate {relids : List Nat} {change : Change} : Absorbs S s cols rows (.truncate relids) change rows

/-- What phase 1 reads before the views plan a change: nothing for an insert or a
TRUNCATE, else the shadow's copy of the old row. -/
inductive OldRead (S : Schema pf) (s : ShadowRow) (cols : List String) : RowChange → Option Tuple → Prop where
  | insert {new : BaseRow} : OldRead S s cols (.insert s.relid new) none
  | delete {old row : BaseRow} (copy : row ∈ s.rows) (same : narrowRow cols row = narrowRow cols old) :
      OldRead S s cols (.delete s.relid old) (some ((S.relation s.relid).columns.map (s.oldValue pf row)))
  | update {old new row : BaseRow} (copy : row ∈ s.rows) (same : narrowRow cols row = narrowRow cols old) :
      OldRead S s cols (.update s.relid old new) (some ((S.relation s.relid).columns.map (s.oldValue pf row)))
  | truncate {relids : List Nat} : OldRead S s cols (.truncate relids) none

theorem Encodes.relids {rc : RowChange} {change : Change} (encodes : Encodes S rc change) :
    change.relids = rc.relids := by
  cases encodes <;> rfl

theorem inSubtransaction_ok {α : Type} {fault : Option String} {body : Except String α} {a : α}
    (done : inSubtransaction fault body = .ok a) : body = .ok a := by
  cases fault with
  | none => exact done
  | some message => simp only [inSubtransaction, reduceCtorEq] at done

theorem resolveUnchanged_inBounds (mentions : String → Bool) {columns : List RelationColumn} {tuple : Tuple}
    (length : columns.length = tuple.length) (old : Option Tuple) :
    resolveUnchanged mentions columns tuple old ≠ .error .outOfBounds := by
  induction tuple generalizing columns old with
  | nil => simp only [resolveUnchanged, ne_eq, reduceCtorEq, not_false_eq_true]
  | cons v tuple ih =>
      cases columns with
      | nil => contradiction
      | cons c columns =>
          rw [List.length_cons, List.length_cons, Nat.succ_inj] at length
          have rest := ih length (old.map List.tail)
          have kept : ∀ w : ColumnValue, (resolveUnchanged mentions columns tuple (old.map List.tail)).map (w :: ·) ≠
              .error .outOfBounds := by
            intro w
            cases resolved : resolveUnchanged mentions columns tuple (old.map List.tail) with
            | ok t => simp only [Except.map, ne_eq, reduceCtorEq, not_false_eq_true]
            | error e =>
                rw [resolved] at rest
                exact fun equal => rest (by simpa only [Except.map, Except.error.injEq] using equal)
          cases v with
          | unchanged =>
              simp only [resolveUnchanged, List.tail_cons]
              split
              · exact kept _
              · exact kept _
              · split
                · simp only [ne_eq, Except.error.injEq, reduceCtorEq, not_false_eq_true]
                · exact kept _
          | null => exact kept _
          | text t => exact kept _

theorem settled_of_completed {s : ShadowRow} (fits : s.Fits S) {cols : List String} (active : cols ⊆ s.columns)
    {tuple : Tuple} {old new row full : BaseRow} (same : narrowRow cols row = narrowRow cols old)
    (completed : Completed S s tuple old new row full) :
    ∀ name ∈ cols, full name = new name := by
  intro name member
  obtain ⟨c, inRel, rfl⟩ := List.mem_map.mp (fits.active (active member))
  rcases completed c inRel with ⟨sent, _⟩ | ⟨kept, unchanged, _⟩
  · exact sent
  · rw [kept, narrowRow_of_mem (active member), eq_of_narrowRow_eq same member, unchanged]

/-- A shadow that absorbs a change of its table mirrors the changed table. -/
theorem Absorbs.mirrors {s : ShadowRow} (fits : s.Fits S) {cols : List String} {db : Database}
    {rows rows' : List BaseRow} {rc : RowChange} {change : Change}
    (absorbs : Absorbs S s cols rows rc change rows')
    (valid : S.Valid db rc) (kind : ∀ relids, rc ≠ .truncate relids)
    (mirrors : Mirrors S cols s rows (db s.relid)) : Mirrors S cols s rows' (S.step db rc s.relid) := by
  cases absorbs with
  | @insert new _ =>
      rw [Schema.step, Database.set_same]
      exact mirrors.append valid.1.typed fun _ _ => rfl
  | @delete old _ =>
      rw [Schema.step, Database.set_same]
      exact mirrors.others old
  | @update old new row full oldT tuple copy same typed completed =>
      rw [Schema.step, Database.set_same]
      exact (mirrors.others old).append typed (settled_of_completed fits mirrors.active same completed)
  | truncate => exact absurd rfl (kind _)

/-- A change from which the old row can be located: its old tuple, or without one its new
tuple, has the row's primary key. -/
inductive Tells (S : Schema pf) : RowChange → Change → Prop where
  | insert {relid : Nat} {new : BaseRow} : Tells S (.insert relid new) (.insert relid (encodeRow pf (S.relation relid) new))
  | delete {relid : Nat} {old : BaseRow} {kind : UInt8} {tuple : Tuple}
      (key : CarriesKey pf (S.relation relid) (S.primaryKey relid) (some tuple) none old) :
      Tells S (.delete relid old) (.delete relid kind tuple)
  | update {relid : Nat} {old new : BaseRow} {oldT : Option (UInt8 × Tuple)} {tuple : Tuple}
      (key : CarriesKey pf (S.relation relid) (S.primaryKey relid) (oldT.map Prod.snd) (some tuple) old)
      (sent : EncodesNew pf (S.relation relid) [] old new tuple) : Tells S (.update relid old new) (.update relid oldT tuple)
  | truncate {relids : List Nat} : Tells S (.truncate relids) (.truncate relids)

theorem EncodesNew.weaken {rel : Relation} {sent : List String} {old new : BaseRow} {tuple : Tuple}
    (encodes : EncodesNew pf rel sent old new tuple) : EncodesNew pf rel [] old new tuple :=
  encodes.imp fun _ _ => Or.imp_right fun ⟨marker, same, _⟩ => ⟨marker, same, List.not_mem_nil⟩

/-- Under DEFAULT and FULL every change tells its old row. -/
theorem Encodes.tells {db : Database} (ok : S.DatabaseOk db) {rc : RowChange} (valid : S.Valid db rc) {change : Change}
    (encodes : Encodes S rc change) : Tells S rc change := by
  have whole := encodes
  cases encodes with
  | insert => exact .insert
  | truncate => exact .truncate
  | deleteKey | deleteFull => exact .delete (whole.delete_carriesKey (ok.rows _ _ valid))
  | update _ new => exact .update (whole.update_carriesKey (ok.rows _ _ valid.1) valid.2.1) new.weaken
  | updateKey new | updateFull new => exact .update (whole.update_carriesKey (ok.rows _ _ valid.1) valid.2.1) new

theorem Tells.relids {rc : RowChange} {change : Change} (tells : Tells S rc change) : change.relids = rc.relids := by
  cases tells <;> rfl

theorem completeNewRow_total {rc : RowChange} {change : Change} (tells : Tells S rc change) {relid : Nat}
    (relids : rc.relids = [relid]) (oldFull : Option Tuple) :
    ∃ newFull, completeNewRow (S.relation relid) oldFull change = .ok newFull := by
  cases tells with
  | insert => exact ⟨_, rfl⟩
  | delete => exact ⟨_, rfl⟩
  | truncate => exact ⟨_, rfl⟩
  | @update r old new _ tuple _ encodes =>
      obtain rfl : r = relid := (List.cons.inj relids).1
      have inBounds := resolveUnchanged_inBounds (fun _ => true) encodes.length_eq oldFull
      simp only [completeNewRow]
      cases resolved : resolveUnchanged (fun _ => true) (S.relation r).columns tuple oldFull with
      | ok t => exact ⟨_, rfl⟩
      | error e =>
          cases e with
          | stale reason => exact ⟨_, rfl⟩
          | outOfBounds => exact absurd resolved inBounds

section Change

variable {s : ShadowRow} (fits : s.Fits S) {cols : List String} {db : Database} (ok : S.DatabaseOk db)
  (mirrors : Mirrors S cols s s.rows (db s.relid)) {rc : RowChange} (valid : S.Valid db rc)
  (here : s.relid ∈ rc.relids) {change : Change} (tells : Tells S rc change)
include fits ok mirrors valid here tells

theorem ShadowRow.Fits.readOldRow (faults : Faults) (endLsn position : Nat) :
    (∃ message, faults.readShadow s.relid endLsn position = some message ∧
      readOldRow pf faults endLsn position s (S.relation s.relid) change = .error message) ∨
    ∃ oldFull, readOldRow pf faults endLsn position s (S.relation s.relid) change = .ok oldFull ∧
      OldRead S s cols rc oldFull := by
  have keyed := ok.keyed s.relid
  cases rc with
  | insert relid new =>
      cases tells
      obtain rfl : s.relid = relid := List.mem_singleton.mp here
      exact Or.inr ⟨none, rfl, .insert⟩
  | truncate relids =>
      cases tells
      exact Or.inr ⟨none, rfl, .truncate⟩
  | delete relid old =>
      obtain rfl : s.relid = relid := List.mem_singleton.mp here
      have oldOk := ok.rows _ old valid
      cases change with
      | delete relid kind tuple =>
          have same : relid = s.relid := by cases tells; rfl
          subst same
          obtain ⟨row, copy, read, equal⟩ := fits.shadowOldRow mirrors keyed valid oldOk (by cases tells with | delete key => exact key)
          cases fault : faults.readShadow s.relid endLsn position with
          | some message => exact Or.inl ⟨message, rfl, by simp only [Nabla.readOldRow, fault, inSubtransaction, Except.map]⟩
          | none =>
              refine Or.inr ⟨_, ?_, .delete copy equal⟩
              simp only [Nabla.readOldRow, fault, inSubtransaction, read, Except.map]
      | _ => cases tells
  | update relid old new =>
      obtain rfl : s.relid = relid := List.mem_singleton.mp here
      have oldOk := ok.rows _ old valid.1
      cases change with
      | update relid oldT tuple =>
          have same : relid = s.relid := by cases tells; rfl
          subst same
          obtain ⟨row, copy, read, equal⟩ := fits.shadowOldRow mirrors keyed valid.1 oldOk (by cases tells with | update key => exact key)
          cases fault : faults.readShadow s.relid endLsn position with
          | some message => exact Or.inl ⟨message, rfl, by simp only [Nabla.readOldRow, fault, inSubtransaction, Except.map]⟩
          | none =>
              refine Or.inr ⟨_, ?_, .update copy equal⟩
              simp only [Nabla.readOldRow, fault, inSubtransaction, read, Except.map]
      | _ => cases tells

omit ok valid here tells in
theorem ShadowRow.Fits.copy_carriesKey {relid : Nat} (same : s.relid = relid) {old row : BaseRow} (copy : row ∈ s.rows)
    (equal : narrowRow cols row = narrowRow cols old) (oldOk : S.RowOk relid old) (newT : Option Tuple) :
    CarriesKey pf (S.relation s.relid) (S.primaryKey s.relid)
      (some ((S.relation s.relid).columns.map (s.oldValue pf row))) newT old := by
  subst same
  apply keyText_old
  intro c member inKey
  have value := eq_of_narrowRow_eq equal (mirrors.key inKey)
  have present := oldOk.key c.name inKey
  refine ⟨pf.textCast (row c.name), ?_, ?_⟩
  · rw [ShadowRow.oldValue, if_pos (fits.key inKey), castValue_text (value ▸ present)]
  · rw [← castValue_text (value ▸ present), bindValue_cast (S.resolved s.relid c member)
      (mirrors.typed row copy c member (fits.key inKey)), value]

theorem ShadowRow.Fits.maintainShadow (faults : Faults) (endLsn position : Nat) {oldFull : Option Tuple}
    (read : OldRead S s cols rc oldFull) :
    ∃ newFull rows', completeNewRow (S.relation s.relid) oldFull change = .ok newFull ∧
      maintainShadow pf faults endLsn position s (S.relation s.relid) change (.ok oldFull) newFull =
        inSubtransaction (faults.writeShadow s.relid endLsn position) (.ok rows') ∧
      Absorbs S s cols s.rows rc change rows' := by
  cases read with
  | @insert new =>
      cases tells
      have stored := fits.shadowInsert (completes_encodeRow valid.1) (mirrors.free valid.2)
      refine ⟨_, _, rfl, ?_, .insert⟩
      simp only [Nabla.maintainShadow, Change.isUpdate, Bool.false_and, Bool.false_eq_true, if_false, shadowApply,
        stored]
  | truncate =>
      cases tells
      refine ⟨_, _, rfl, ?_, .truncate⟩
      simp only [Nabla.maintainShadow, Change.isUpdate, Bool.false_and, Bool.false_eq_true, if_false, shadowApply]
  | @delete old row copy same =>
      have oldOk := ok.rows _ old valid
      cases change with
      | delete relid kind tuple =>
          have equal : relid = s.relid := by cases tells; rfl
          subst equal
          have deleted : Nabla.shadowDelete pf s (S.relation s.relid) (some tuple) none s.rows = _ :=
            fits.shadowDelete oldOk (by cases tells with | delete key => exact key)
          refine ⟨_, _, rfl, ?_, .delete⟩
          simp only [Nabla.maintainShadow, Change.isUpdate, Bool.false_and, Bool.false_eq_true, if_false, shadowApply,
            deleted]
      | _ => cases tells
  | @update old new row copy same =>
      have oldOk := ok.rows _ old valid.1
      have carries := fits.copy_carriesKey mirrors rfl copy same oldOk
      cases change with
      | update relid oldT tuple =>
          have equal : relid = s.relid := by cases tells; rfl
          subst equal
          have encodesNew : EncodesNew pf (S.relation s.relid) [] old new tuple := by
            cases tells with | update _ sent => exact sent
          obtain ⟨t, full, resolved, completes, completed⟩ :=
            completes_new encodesNew valid.2.1 (mirrors.typed row copy) fun _ => true
          have deleted : Nabla.shadowDelete pf s (S.relation s.relid)
              (some ((S.relation s.relid).columns.map (s.oldValue pf row))) (some tuple) s.rows = _ :=
            fits.shadowDelete oldOk (carries (some tuple))
          have settled := settled_of_completed fits mirrors.active same completed
          have fullKey : S.keyOf s.relid full = S.keyOf s.relid new :=
            List.map_congr_left fun name inKey => settled name (mirrors.key inKey)
          have free : ∀ r ∈ S.others s.relid old s.rows, S.keyOf s.relid r ≠ S.keyOf s.relid full := by
            intro r member
            rw [fullKey]
            exact (mirrors.others old).free valid.2.2 r member
          have stored := fits.shadowInsert completes free
          refine ⟨some t, _, ?_, ?_, .update copy same completes.typed completed⟩
          · simp only [completeNewRow, resolved]
          · simp only [Nabla.maintainShadow, Change.isUpdate, Option.isNone_some, Bool.and_false,
              Bool.false_eq_true, if_false, shadowApply, Option.some_or, deleted, stored]
      | _ => cases tells

/-- A shadow that mirrors its table absorbs a change or is lost to the environment. -/
theorem ShadowRow.Fits.maintained (faults : Faults) (endLsn position : Nat) {newFull : Option Tuple}
    (completed : completeNewRow (S.relation s.relid)
      ((Nabla.readOldRow pf faults endLsn position s (S.relation s.relid) change).toOption.getD none) change = .ok newFull) :
    match Nabla.maintainShadow pf faults endLsn position s (S.relation s.relid) change
      (Nabla.readOldRow pf faults endLsn position s (S.relation s.relid) change) newFull with
    | .ok rows' => Absorbs S s cols s.rows rc change rows'
    | .error _ => faults ≠ Faults.none := by
  rcases fits.readOldRow ok mirrors valid here tells faults endLsn position with ⟨message, fault, unread⟩ | ⟨old, read, oldRead⟩
  · simp only [unread, Nabla.maintainShadow]
    rintro rfl
    cases fault
  · obtain ⟨newFull', rows', completed', stored, absorbs⟩ :=
      fits.maintainShadow ok mirrors valid here tells faults endLsn position oldRead
    obtain rfl : newFull' = newFull := by
      rw [read, show (Except.ok old : Except String _).toOption.getD none = old from rfl, completed', Except.ok.injEq] at completed
      exact completed
    rw [read, stored]
    cases fault : faults.writeShadow s.relid endLsn position with
    | none => exact absorbs
    | some message =>
        rintro rfl
        cases fault

end Change

end Nabla
