import Nabla.Mirror
import Nabla.Storage

/-! Planning one row change for a join view: the planned rows move the view from its
query over the tables before the change to its query over the tables after it. -/
namespace Nabla
open Bags

variable {pf : Platform} {S : Schema pf} {spec : ViewSpec}

/-- Planned rows that take the view's row combinations from `M` to `M'`. -/
inductive RowDelta (spec : ViewSpec) (M M' : List Env) : List Op → Prop where
  | same (unchanged : M.Perm M') : RowDelta spec M M' []
  | contribute {sign : Sign} {K : List Env} (moves : Moves sign K M M') : RowDelta spec M M' (spec.deltaOps sign K)
  | replace {K L N : List Env} (removes : Moves .minus K M N) (adds : Moves .plus L N M') :
      RowDelta spec M M' (spec.deltaOps .minus K ++ spec.deltaOps .plus L)

theorem ViewSpec.Tabled.output_perm (tabled : spec.Tabled) {M M' : List Env} (same : M.Perm M') : (spec.output M).Perm (spec.output M') := by
  unfold ViewSpec.output
  cases shape : spec.shape with
  | projection => exact same.map _
  | aggregate =>
      have law := (tabled.isAggregate shape).aggregation
      have grouped := (grouped_iff_perm law).mpr (List.Perm.refl (spec.groupRows M))
      exact (grouped_iff_perm law).mp (grouped.perm_bag law same)

theorem RowDelta.execute {M M' : List Env} {ops : List Op} (delta : RowDelta spec M M' ops) (pf : Platform)
    (tabled : spec.Tabled) (unique : spec.Unique M) (unique' : spec.Unique M')
    (storable : ∀ ρ ∈ M, spec.Storable ρ) (storable' : ∀ ρ ∈ M', spec.Storable ρ) {storage : List Record}
    (stored : storage.Perm (spec.output M)) :
    ∃ storage' deltas, execute pf spec storage ops = .ok (storage', deltas) ∧ storage'.Perm (spec.output M') := by
  have inner : ∀ {sign : Sign} {K N N' : List Env}, Moves sign K N N' → (∀ ρ ∈ N, spec.Storable ρ) →
      (∀ ρ ∈ N', spec.Storable ρ) → ∀ ρ ∈ K, spec.Storable ρ := by
    intro sign K N N' moves before after ρ member
    cases sign with
    | plus => exact after ρ (List.Perm.mem_iff moves |>.mpr (List.mem_append_left _ member))
    | minus => exact before ρ (List.Perm.mem_iff moves |>.mpr (List.mem_append_left _ member))
  cases delta with
  | same unchanged => exact ⟨storage, [], rfl, stored.trans (tabled.output_perm unchanged)⟩
  | contribute moves =>
      exact tabled.execute_delta pf stored moves unique unique' (inner moves storable storable') storable
  | @replace K L N removes adds =>
      have part : M.Perm (K ++ N) := removes
      have storableN : ∀ ρ ∈ N, spec.Storable ρ := fun ρ member =>
        storable ρ (part.mem_iff.mpr (List.mem_append_right _ member))
      have uniqueN : spec.Unique N := (unique.perm part).of_append
      obtain ⟨between, removed, first, stored'⟩ := tabled.execute_delta pf stored removes unique uniqueN
        (inner removes storable storableN) storable
      obtain ⟨storage', added, second, stored''⟩ := tabled.execute_delta pf stored' adds uniqueN unique'
        (inner adds storableN storable') storableN
      refine ⟨storage', removed ++ added, ?_, stored''⟩
      simp only [execute_append, first, second, Except.map]

/-- The shadows that a row of `relid` is joined with hold their base tables, as far as the
used columns go. -/
def ViewSpec.Sees (spec : ViewSpec) (relid : Nat) (shadowTables : Nat → Option (List BaseRow)) (db : Database) : Prop :=
  ∀ b ∈ spec.relations, b.oid ≠ relid → ∃ rows, shadowTables b.oid = some rows ∧
    (rows.map (narrowRow b.usedColumns)).Perm ((db b.oid).map (narrowRow b.usedColumns))

theorem joinSources_ok {shadowTables : Nat → Option (List BaseRow)} {relations : List BaseRelation}
    {tables : Nat → List BaseRow} (relIndex : Nat) (row : BaseRow) (start : Nat)
    (known : ∀ k b, relations[k]? = some b → start + k ≠ relIndex → shadowTables b.oid = some (tables b.oid)) :
    joinSources shadowTables relIndex row start relations =
      .ok (if start ≤ relIndex then (relations.map fun b => tables b.oid).set (relIndex - start) [row]
        else relations.map fun b => tables b.oid) := by
  induction relations generalizing start with
  | nil => simp only [joinSources, List.map_nil, List.set_nil, ite_self]
  | cons b relations ih =>
      have rest := ih (start + 1) fun k c at_k other =>
        known (k + 1) c at_k (by rwa [Nat.add_right_comm] at other)
      simp only [joinSources, rest]
      by_cases here : start = relIndex
      · subst here
        simp only [if_true, Nat.le_refl, Nat.sub_self, List.map_cons, List.set_cons_zero,
          Nat.not_succ_le_self, if_false]
      · have head := known 0 b rfl here
        by_cases before : start ≤ relIndex
        · have later : start + 1 ≤ relIndex := by omega
          have gap : relIndex - start = (relIndex - (start + 1)) + 1 := by omega
          simp only [here, head, before, later, if_true, if_false, List.map_cons, gap, List.set_cons_succ]
        · have past : ¬ start + 1 ≤ relIndex := by omega
          simp only [here, head, before, past, if_false, List.map_cons]

theorem ViewSpec.Fits.index_unique (fits : spec.Fits S) {i j : Nat} {b c : BaseRelation}
    (at_i : spec.relations[i]? = some b) (at_j : spec.relations[j]? = some c) (same : b.oid = c.oid) : i = j := by
  apply (List.getElem?_inj (by rw [List.length_map]; exact (List.getElem?_eq_some_iff.mp at_i).1) fits.oids).mp
  rw [List.getElem?_map, List.getElem?_map, at_i, at_j, Option.map_some, Option.map_some, same]

theorem ViewSpec.Fits.planJoin (fits : spec.Fits S) {shadowTables : Nat → Option (List BaseRow)} {db : Database}
    {i : Nat} {b : BaseRelation} (at_i : spec.relations[i]? = some b) (sees : spec.Sees b.oid shadowTables db)
    {rel : Relation} {tuple : Tuple} {bound row : BaseRow} (binds : bindRow pf rel tuple = .ok bound)
    (same : narrowRow b.usedColumns bound = narrowRow b.usedColumns row) (sign : Sign) :
    ∃ K, planJoin pf shadowTables spec i rel tuple sign = .ok (spec.deltaOps sign K) ∧
      K.Perm (spec.contents ((spec.tablesOf db).set i [row])) := by
  -- the table of the row itself is not read, so its shadow may stand anywhere
  let tables : Nat → List BaseRow := fun r => if r = b.oid then db r else (shadowTables r).getD []
  have other : ∀ c ∈ spec.relations, c.oid ≠ b.oid → shadowTables c.oid = some (tables c.oid) := by
    intro c member apart
    obtain ⟨rows, eq, _⟩ := sees c member apart
    simp only [tables, if_neg apart, eq, Option.getD_some]
  have sources := @joinSources_ok shadowTables spec.relations tables i bound 0 (by
    intro k c at_k apart
    refine other c (List.mem_of_getElem? at_k) fun equal => apart ?_
    rw [Nat.zero_add]
    exact fits.index_unique at_k at_i equal)
  rw [if_pos (Nat.zero_le i), Nat.sub_zero] at sources
  refine ⟨spec.contents ((spec.tablesOf tables).set i [bound]), ?_, ?_⟩
  · simp only [Nabla.planJoin, binds, sources, Except.map]
    rw [fits.closed.deltaRows_eq]
    · rfl
    · rw [List.length_set, List.length_map]
  · apply ViewSpec.contents_perm
    rw [narrowTables_set spec at_i, narrowTables_set spec at_i]
    apply forall₂_set
    · rw [ViewSpec.narrowTables_tablesOf, ViewSpec.narrowTables_tablesOf, List.forall₂_map_left_iff,
        List.forall₂_map_right_iff]
      apply List.forall₂_same.mpr
      intro c member
      by_cases here : c.oid = b.oid
      · simp only [tables, if_pos here, List.Perm.refl]
      · obtain ⟨rows, eq, agree⟩ := sees c member here
        obtain rfl : tables c.oid = rows := Option.some.inj ((other c member here).symm.trans eq)
        exact agree
    · rw [List.map_singleton, List.map_singleton, same]

section Moves

variable (fits : spec.Fits S) {i : Nat} {b : BaseRelation} (at_i : spec.relations[i]? = some b) {db : Database}
include fits at_i

theorem ViewSpec.Fits.contents_set_rows {rows : List BaseRow} :
    spec.contents (spec.tablesOf (db.set b.oid rows)) = spec.contents ((spec.tablesOf db).set i rows) := by
  rw [ViewSpec.tablesOf_set fits.oids at_i fun r other => Database.set_other db rows other, Database.set_same]

theorem ViewSpec.Fits.contents_split (db : Database) {whole left right : List BaseRow} (split : whole.Perm (left ++ right)) :
    (spec.contents (spec.tablesOf (db.set b.oid whole))).Perm
      (spec.contents ((spec.tablesOf db).set i left) ++ spec.contents (spec.tablesOf (db.set b.oid right))) := by
  rw [fits.contents_set_rows at_i, fits.contents_set_rows at_i]
  exact spec.contents_split at_i (List.length_map _) split

omit fits at_i in
theorem Database.set_self (db : Database) (relid : Nat) : db.set relid (db relid) = db := by
  funext r
  by_cases same : r = relid
  · rw [same, Database.set_same]
  · rw [Database.set_other db _ same]

theorem ViewSpec.Fits.insert_moves {K : List Env} {new : BaseRow}
    (adds : K.Perm (spec.contents ((spec.tablesOf db).set i [new]))) :
    Moves .plus K (spec.contents (spec.tablesOf db))
      (spec.contents (spec.tablesOf (S.step db (.insert b.oid new)))) := by
  have front : (db b.oid ++ [new]).Perm ([new] ++ db b.oid) := List.perm_append_comm
  have split := fits.contents_split at_i db front
  rw [Database.set_self] at split
  exact split.trans (adds.symm.append_right _)

theorem ViewSpec.Fits.delete_moves {K : List Env} {old : BaseRow} (ok : S.DatabaseOk db) (member : old ∈ db b.oid)
    (removes : K.Perm (spec.contents ((spec.tablesOf db).set i [old]))) :
    Moves .minus K (spec.contents (spec.tablesOf db))
      (spec.contents (spec.tablesOf (S.step db (.delete b.oid old)))) := by
  have front : (db b.oid).Perm ([old] ++ S.others b.oid old (db b.oid)) := S.others_perm (ok.keyed b.oid) member
  have split := fits.contents_split at_i db front
  rw [Database.set_self] at split
  exact split.trans (removes.symm.append_right _)

theorem ViewSpec.Fits.contents_rows_perm (db : Database) {rows rows' : List BaseRow}
    (same : (rows.map (narrowRow b.usedColumns)).Perm (rows'.map (narrowRow b.usedColumns))) :
    (spec.contents (spec.tablesOf (db.set b.oid rows))).Perm
      (spec.contents (spec.tablesOf (db.set b.oid rows'))) := by
  rw [fits.contents_set_rows at_i, fits.contents_set_rows at_i]
  apply ViewSpec.contents_perm
  rw [narrowTables_set spec at_i, narrowTables_set spec at_i]
  exact forall₂_set (List.forall₂_same.mpr fun _ _ => List.Perm.refl _) same i

omit fits at_i in
theorem Schema.step_update (S : Schema pf) (db : Database) (relid : Nat) (old new : BaseRow) :
    S.step db (.update relid old new) = S.step (S.step db (.delete relid old)) (.insert relid new) := by
  funext r
  by_cases same : r = relid
  · subst same
    simp only [Schema.step, Database.set_same]
  · simp only [Schema.step, Database.set_other _ _ same]

theorem ViewSpec.Fits.update_moves {K L : List Env} {old new : BaseRow} (ok : S.DatabaseOk db)
    (member : old ∈ db b.oid) (removes : K.Perm (spec.contents ((spec.tablesOf db).set i [old])))
    (adds : L.Perm (spec.contents ((spec.tablesOf db).set i [new]))) :
    ∃ N, Moves .minus K (spec.contents (spec.tablesOf db)) N ∧
      Moves .plus L N (spec.contents (spec.tablesOf (S.step db (.update b.oid old new)))) := by
  refine ⟨_, fits.delete_moves at_i ok member removes, ?_⟩
  rw [S.step_update]
  apply fits.insert_moves at_i
  rwa [Schema.step, ViewSpec.tablesOf_set fits.oids at_i fun r other => Database.set_other db _ other,
    List.set_set]

theorem ViewSpec.Fits.update_same {old new : BaseRow} (ok : S.DatabaseOk db) (member : old ∈ db b.oid)
    (same : narrowRow b.usedColumns old = narrowRow b.usedColumns new) :
    (spec.contents (spec.tablesOf db)).Perm
      (spec.contents (spec.tablesOf (S.step db (.update b.oid old new)))) := by
  have rows : ((db b.oid).map (narrowRow b.usedColumns)).Perm
      ((S.others b.oid old (db b.oid) ++ [new]).map (narrowRow b.usedColumns)) := by
    have front := (S.others_perm (ok.keyed b.oid) member).map (narrowRow b.usedColumns)
    rw [List.map_cons, same] at front
    rw [List.map_append, List.map_singleton]
    exact front.trans (List.perm_append_singleton _ _).symm
  have moved := fits.contents_rows_perm at_i db rows
  rwa [Database.set_self] at moved

end Moves

/-- The rows a change of a base table owes to the view: the changed row joined with the
other base tables as they are at the change. -/
inductive JoinDelta (spec : ViewSpec) (db : Database) : RowChange → List Op → Prop where
  | elsewhere {rc : RowChange} (unused : ∀ r ∈ rc.relids, spec.relationIndex r = none) : JoinDelta spec db rc []
  | unseen {relid i : Nat} {b : BaseRelation} {old new : BaseRow} (index : spec.relationIndex relid = some i)
      (at_i : spec.relations[i]? = some b) (same : narrowRow b.usedColumns old = narrowRow b.usedColumns new) :
      JoinDelta spec db (.update relid old new) []
  | insert {relid i : Nat} {new : BaseRow} {K : List Env} (index : spec.relationIndex relid = some i)
      (joined : K.Perm (spec.contents ((spec.tablesOf db).set i [new]))) :
      JoinDelta spec db (.insert relid new) (spec.deltaOps .plus K)
  | delete {relid i : Nat} {old : BaseRow} {K : List Env} (index : spec.relationIndex relid = some i)
      (joined : K.Perm (spec.contents ((spec.tablesOf db).set i [old]))) :
      JoinDelta spec db (.delete relid old) (spec.deltaOps .minus K)
  | update {relid i : Nat} {old new : BaseRow} {K L : List Env} (index : spec.relationIndex relid = some i)
      (removed : K.Perm (spec.contents ((spec.tablesOf db).set i [old])))
      (added : L.Perm (spec.contents ((spec.tablesOf db).set i [new]))) :
      JoinDelta spec db (.update relid old new) (spec.deltaOps .minus K ++ spec.deltaOps .plus L)

theorem Schema.step_elsewhere (S : Schema pf) (db : Database) {rc : RowChange} {r : Nat} (elsewhere : r ∉ rc.relids) :
    S.step db rc r = db r := by
  cases rc with
  | insert relid new | delete relid old | update relid old new =>
      exact Database.set_other db _ fun same => elsewhere (List.mem_singleton.mpr same)
  | truncate relids => exact if_neg elsewhere

/-- The join delta of a change brings the view's row combinations to the tables after it. -/
theorem JoinDelta.rowDelta {db : Database} {rc : RowChange} {ops : List Op} (delta : JoinDelta spec db rc ops)
    (fits : spec.Fits S) (ok : S.DatabaseOk db) (valid : S.Valid db rc) :
    RowDelta spec (spec.contents (spec.tablesOf db)) (spec.contents (spec.tablesOf (S.step db rc))) ops := by
  cases delta with
  | elsewhere unused =>
      have same : spec.tablesOf (S.step db rc) = spec.tablesOf db := by
        apply List.map_congr_left
        intro b member
        exact S.step_elsewhere db fun touched => ViewSpec.relationIndex_none (unused b.oid touched) member rfl
      rw [same]
      exact .same (List.Perm.refl _)
  | unseen index at_i same =>
      obtain ⟨c, at_c, rfl⟩ := ViewSpec.relationIndex_some index
      obtain rfl := Option.some.inj (at_c.symm.trans at_i)
      exact .same (fits.update_same at_i ok valid.1 same)
  | insert index joined =>
      obtain ⟨b, at_i, rfl⟩ := ViewSpec.relationIndex_some index
      exact .contribute (fits.insert_moves (S := S) at_i joined)
  | delete index joined =>
      obtain ⟨b, at_i, rfl⟩ := ViewSpec.relationIndex_some index
      exact .contribute (fits.delete_moves (S := S) at_i ok valid joined)
  | update index removed added =>
      obtain ⟨b, at_i, rfl⟩ := ViewSpec.relationIndex_some index
      obtain ⟨N, removes, adds⟩ := fits.update_moves (S := S) at_i ok valid.1 removed added
      exact .replace removes adds

theorem Schema.relation_index (S : Schema pf) {spec : ViewSpec} {relid i : Nat}
    (index : spec.relationIndex relid = some i) :
    spec.relationIndex (S.relation relid).id = some i := by rwa [S.relation_id]

/-- A tuple that completes to a row binds to it on the used columns. -/
theorem Completes.bindRow {relid : Nat} {tuple : Tuple} {full : BaseRow} (completes : Completes S relid tuple full)
    {used : List String} (known : used ⊆ (S.relation relid).columns.map RelationColumn.name) {row : BaseRow}
    (same : ∀ name ∈ used, full name = row name) :
    ∃ bound, bindRow pf (S.relation relid) tuple = .ok bound ∧ narrowRow used bound = narrowRow used row := by
  obtain ⟨bound, binds, reads⟩ := bindRow_reads (S.distinct relid) completes.reads
  refine ⟨bound, binds, narrowRow_congr ?_⟩
  intro name member
  obtain ⟨c, inRel, rfl⟩ := List.mem_map.mp (known member)
  rw [reads c inRel, same _ member]

theorem completes_copy {s : ShadowRow} {row : BaseRow}
    (typed : ∀ c ∈ (S.relation s.relid).columns, c.name ∈ s.columns →
      ∀ ty, c.typeName = some ty → pf.Holds ty (row c.name)) :
    Completes S s.relid ((S.relation s.relid).columns.map (s.oldValue pf row)) (narrowRow s.columns row) where
  reads := by
    rw [TupleReads, List.forall₂_map_right_iff]
    apply List.forall₂_same.mpr
    intro c member
    unfold ShadowRow.oldValue narrowRow
    split
    · rename_i active
      exact bindValue_cast (S.resolved s.relid c member) (typed c member active)
    · exact bindValue_null (S.resolved s.relid c member)
  typed := by
    intro c member ty resolved
    unfold narrowRow
    split
    · rename_i active
      exact typed c member active ty resolved
    · exact Or.inl rfl

theorem unchanged_of_not_touched {s : ShadowRow} {used : List String} (active : used ⊆ s.columns)
    (known : used ⊆ (S.relation s.relid).columns.map RelationColumn.name) {i : Nat} {b : BaseRelation}
    (index : spec.relationIndex s.relid = some i) (at_i : spec.relations[i]? = some b)
    (usedColumns : b.usedColumns = used) {row old new : BaseRow}
    (same : narrowRow used row = narrowRow used old)
    (typed : ∀ c ∈ (S.relation s.relid).columns, c.name ∈ s.columns →
      ∀ ty, c.typeName = some ty → pf.Holds ty (row c.name)) (newOk : S.RowOk s.relid new)
    {sent : List String} {tuple : Tuple} (encodes : EncodesNew pf (S.relation s.relid) sent old new tuple)
    (untouched : spec.touchesUsedColumns s.relid (S.relation s.relid)
      (some ((S.relation s.relid).columns.map (s.oldValue pf row))) tuple = false) :
    narrowRow used old = narrowRow used new := by
  apply narrowRow_congr
  intro name member
  obtain ⟨j, c, columnIndex, at_j, named⟩ := Relation.columnIndex_of_mem (known member)
  subst named
  have inRel := List.mem_of_getElem? at_j
  obtain ⟨below, eq⟩ := List.getElem?_eq_some_iff.mp at_j
  have long : j < tuple.length := encodes.length_eq ▸ below
  have value := List.Forall₂.get encodes below long
  simp only [List.get_eq_getElem, eq] at value
  simp only [ViewSpec.touchesUsedColumns, index, Option.bind_some, at_i, usedColumns] at untouched
  have equal := List.any_eq_false.mp untouched c.name member
  simp only [columnIndex, List.getElem?_map, at_j, Option.map_some, List.getElem?_eq_getElem long] at equal
  have copied : s.oldValue pf row c = castValue pf (row c.name) := if_pos (active member)
  rcases value with encoded | ⟨_, unchanged, _⟩
  · have matching : castValue pf (row c.name) = encodeValue pf (new c.name) := by
      rw [copied, encoded] at equal
      have sentValue := encodeValue_sent pf (new c.name)
      split at equal
      · rename_i marker
        exact absurd (Option.some.inj marker) sentValue
      · rename_i o n _ left right
        rw [Option.some.injEq] at left right
        rw [left, right]
        simpa only [bne_iff_ne, ne_eq, Decidable.not_not] using equal
      · exact absurd rfl equal
    have left := bindValue_cast (S.resolved s.relid c inRel) (typed c inRel (active member))
    have right := bindValue_encode (S.resolved s.relid c inRel) (newOk.typed c inRel)
    rw [matching, right, Except.ok.injEq] at left
    rw [← eq_of_narrowRow_eq same member, ← left]
  · exact unchanged

/-- The used columns of a base table are columns of its description. -/
theorem ViewSpec.Fits.known (fits : spec.Fits S) {b : BaseRelation} (member : b ∈ spec.relations) :
    b.usedColumns ⊆ (S.relation b.oid).columns.map RelationColumn.name := by
  intro name used
  obtain ⟨ty, paired⟩ := exists_zip (fits.used b member) used
  obtain ⟨c, inRel, named, _⟩ := provides_iff.mp (fits.provided b member (name, ty) paired)
  exact List.mem_map.mpr ⟨c, inRel, named⟩

/-- An inserted row is joined with the shadows of the other tables; where its own shadow
stands does not matter. -/
theorem ViewSpec.Fits.planInsert {view : LiveView} (fits : view.row.spec.Fits S) {db : Database} {relid i : Nat}
    (index : view.row.spec.relationIndex relid = some i) {shadowTables : Nat → Option (List BaseRow)}
    (sees : view.row.spec.Sees relid shadowTables db) {new : BaseRow} (newOk : S.RowOk relid new) (oldFull : Option Tuple) :
    ∃ ops, planJoinChange pf shadowTables view (S.relation relid) (.insert relid (encodeRow pf (S.relation relid) new)) oldFull =
        .ok (.ops ops) ∧ JoinDelta view.row.spec db (.insert relid new) ops := by
  obtain ⟨b, at_i, rfl⟩ := ViewSpec.relationIndex_some index
  obtain ⟨bound, binds, same⟩ := (completes_encodeRow newOk).bindRow (fits.known (List.mem_of_getElem? at_i)) fun _ _ => rfl
  obtain ⟨K, planned, joined⟩ := fits.planJoin at_i sees binds same .plus
  refine ⟨_, ?_, .insert index joined⟩
  simp only [Nabla.planJoinChange, S.relation_index index, resolveUnchanged_sent _ _ (encodeRow_sent pf _ new), withResolved,
    planned, Except.map]

theorem ViewSpec.Fits.planJoinChange {view : LiveView} (fits : view.row.spec.Fits S) {s : ShadowRow}
    (shadowFits : s.Fits S) {cols : List String} {db : Database}
    (mirrors : Mirrors S cols s s.rows (db s.relid)) {i : Nat} {b : BaseRelation}
    (index : view.row.spec.relationIndex s.relid = some i) (at_i : view.row.spec.relations[i]? = some b)
    (used : b.usedColumns ⊆ cols) {shadowTables : Nat → Option (List BaseRow)}
    (sees : view.row.spec.Sees s.relid shadowTables db) {rc : RowChange} (valid : S.Valid db rc)
    (kind : ∀ relids, rc ≠ .truncate relids) {change : Change} (encodes : Encodes S rc change)
    {oldFull : Option Tuple} (read : OldRead S s cols rc oldFull) :
    ∃ ops, planJoinChange pf shadowTables view (S.relation s.relid) change oldFull = .ok (.ops ops) ∧
      JoinDelta view.row.spec db rc ops := by
  obtain ⟨b', at_b, oid⟩ := ViewSpec.relationIndex_some index
  obtain rfl : b' = b := Option.some.inj (at_b.symm.trans at_i)
  have relIndex := S.relation_index index
  have active : b'.usedColumns ⊆ s.columns := fun _ member => mirrors.active (used member)
  have known : b'.usedColumns ⊆ (S.relation s.relid).columns.map RelationColumn.name := fun _ member =>
    shadowFits.active (active member)
  have narrowed : ∀ {r r' : BaseRow}, narrowRow cols r = narrowRow cols r' →
      narrowRow b'.usedColumns r = narrowRow b'.usedColumns r' := fun same =>
    narrowRow_congr fun _ member => eq_of_narrowRow_eq same (used member)
  have beside : view.row.spec.Sees b'.oid shadowTables db := oid ▸ sees
  cases read with
  | @insert new =>
      cases encodes
      exact fits.planInsert index sees valid.1 _
  | truncate => exact absurd rfl (kind _)
  | @delete old row copy same =>
      obtain ⟨bound, binds, equal⟩ := (completes_copy (mirrors.typed row copy)).bindRow known
        fun name member => narrowRow_of_mem (active member) row
      obtain ⟨K, planned, joined⟩ := fits.planJoin at_i beside binds (equal.trans (narrowed same)) .minus
      refine ⟨_, ?_, .delete index joined⟩
      cases change with
      | delete relid kind tuple => simp only [Nabla.planJoinChange, relIndex, planned, Except.map]
      | _ => cases encodes
  | @update old new row copy same =>
      cases change with
      | update relid oldT tuple =>
          obtain ⟨sent, encodesNew⟩ : ∃ sent, EncodesNew pf (S.relation s.relid) sent old new tuple := by
            cases encodes with
            | update _ encodes => exact ⟨_, encodes⟩
            | updateKey encodes => exact ⟨_, encodes⟩
            | updateFull encodes => exact ⟨_, encodes⟩
          have typed := mirrors.typed row copy
          cases touched : view.row.spec.touchesUsedColumns s.relid (S.relation s.relid)
              (some ((S.relation s.relid).columns.map (s.oldValue pf row))) tuple with
          | false =>
              have unchanged := unchanged_of_not_touched active known index at_i rfl (narrowed same) typed
                valid.2.1 encodesNew touched
              refine ⟨[], ?_, .unseen index at_i unchanged⟩
              simp only [Nabla.planJoinChange, S.relation_id, index, touched, Bool.not_false, if_true]
          | true =>
              obtain ⟨bound, binds, equal⟩ := (completes_copy typed).bindRow known
                fun name member => narrowRow_of_mem (active member) row
              obtain ⟨K, removed, joined⟩ := fits.planJoin at_i beside binds (equal.trans (narrowed same)) .minus
              obtain ⟨t, full, resolved, completes, completed⟩ := completes_new encodesNew valid.2.1 typed
                (definitionMentions pf view.row.definition)
              have settled := settled_of_completed shadowFits mirrors.active same completed
              obtain ⟨bound', binds', equal'⟩ := completes.bindRow known
                fun name member => settled name (used member)
              obtain ⟨L, added, joined'⟩ := fits.planJoin at_i beside binds' equal' .plus
              refine ⟨_, ?_, .update index joined joined'⟩
              simp only [Nabla.planJoinChange, S.relation_id, index, touched, Bool.not_true, Bool.false_eq_true,
                if_false, removed, resolved, withResolved, added, Except.map]
      | _ => cases encodes

end Nabla
