import Nabla.Wire
import Nabla.Incremental

/-! Values that an update did not send: what `resolve_unchanged` lets `plan_change` insert
into a single-table view. -/
namespace Nabla
open Bags

variable {pf : Platform}

/-- The old tuple of an update: none, the replica identity's columns, or the whole row. -/
inductive SendsOld (pf : Platform) (rel : Relation) (key : List String) (old : BaseRow) : Option (UInt8 × Tuple) → Prop
  | none : SendsOld pf rel key old none
  | key : SendsOld pf rel key old (some (keyTuple, encodeKey pf rel key old))
  | full : SendsOld pf rel key old (some (fullOldTuple, encodeRow pf rel old))

/-- The column is sent as the marker for a value that did not change. -/
def Marked (rel : Relation) (new : Tuple) (c : RelationColumn) : Prop := (c, ColumnValue.unchanged) ∈ rel.columns.zip new

/-- The old tuple has the column's value. -/
def CarriesValue (key : List String) (sent : Option (UInt8 × Tuple)) (c : RelationColumn) : Prop :=
  match sent with
  | some (kind, _) => kind = fullOldTuple ∨ c.name ∈ key
  | none => False

/-- An update as pgoutput sends it, for rows of the table before and after it. A marker
stands for a value stored out of line, never for NULL. -/
structure SendsUpdate (pf : Platform) (rel : Relation) (key : List String) (before after : BaseRow) (sent : Option (UInt8 × Tuple)) (new : Tuple) :
    Prop where
  old : SendsOld pf rel key before sent
  encodes : EncodesNew pf rel [] before after new
  stored : ∀ c ∈ rel.columns, Marked rel new c → after c.name ≠ .null

/-- The columns of a description have names of their own and types, and the rows values of
these types. -/
structure DescribesRows (pf : Platform) (rel : Relation) (before after : BaseRow) : Prop where
  distinct : (rel.columns.map RelationColumn.name).Nodup
  resolved : ∀ c ∈ rel.columns, c.typeName.isSome
  typed : ∀ c ∈ rel.columns, ∀ ty, c.typeName = some ty → pf.Holds ty (before c.name) ∧ pf.Holds ty (after c.name)

def ViewSpec.deleteColumns (spec : ViewSpec) : List String := (spec.pkColumns.zip spec.pkViewColumns).map Prod.fst

structure ViewSpec.KeyedRows (spec : ViewSpec) (rel : Relation) (before after : BaseRow) : Prop where
  known : spec.deleteColumns ⊆ rel.columns.map RelationColumn.name
  present : ∀ name ∈ spec.deleteColumns, before name ≠ .null ∧ after name ≠ .null

/-- The change carries what the view deletes the old row by: a projection the primary key,
an aggregate the whole row. -/
def ViewSpec.Locates (spec : ViewSpec) (rel : Relation) (key : List String) (sent : Option (UInt8 × Tuple)) (new : Tuple) : Prop :=
  match spec.shape with
  | .projection => ∀ c ∈ rel.columns, c.name ∈ spec.deleteColumns →
      (sent = none → ¬ Marked rel new c) ∧ (sent ≠ none → CarriesValue key sent c)
  | .aggregate => ∃ old, sent = some (fullOldTuple, old)

/-- The delete `plan_change` plans for the old row, whose key is taken from the new one when
no old tuple was sent. -/
def LiveView.plannedDelete (pf : Platform) (view : LiveView) (rel : Relation) (sent : Option (UInt8 × Tuple)) (new : Tuple) :
    Except String Planned :=
  planSingleDelete pf view.row.spec rel (sent.getD (keyTuple, new)).1 (sent.getD (keyTuple, new)).2

def LiveView.untouched (view : LiveView) (rel : Relation) (sent : Option (UInt8 × Tuple)) (new : Tuple) : Bool :=
  sent.any fun o => o.1 = fullOldTuple && !view.row.spec.touchesUsedColumns rel.id rel (some o.2) new

/-- The row whose insertion `plan_change` plans for an update. -/
def LiveView.plannedRow (pf : Platform) (view : LiveView) (rel : Relation) (sent : Option (UInt8 × Tuple)) (new : Tuple) : Option BaseRow :=
  if view.untouched rel sent new then none
  else match view.plannedDelete pf rel sent new,
      resolveUnchanged (definitionMentions pf view.row.definition) rel.columns new (sent.map Prod.snd) with
    | .ok (.ops _), .ok complete => (bindRow pf rel complete).toOption
    | _, _ => none

theorem planChange_update {view : LiveView} (single : view.row.spec.isJoin = false) (tables : Nat → Option (List BaseRow)) (rel : Relation)
    (relid : Nat) (sent : Option (UInt8 × Tuple)) (new : Tuple) (oldFull : Option Tuple) :
    planChange pf tables view rel (.update relid sent new) oldFull =
      if view.untouched rel sent new then .ok (.ops [])
      else match view.plannedDelete pf rel sent new with
        | .error e => .error e
        | .ok (.stale reason) => .ok (.stale reason)
        | .ok (.ops removed) =>
          withResolved (resolveUnchanged (definitionMentions pf view.row.definition) rel.columns new (sent.map Prod.snd)) fun new =>
            (planSingleInsert pf view.row.spec rel new).map fun added => .ops (removed ++ added) := by
  rw [planChange, single]
  rfl

section Update

variable {rel : Relation} {key : List String} {before after : BaseRow} {sent : Option (UInt8 × Tuple)} {new : Tuple}

theorem SendsUpdate.length (update : SendsUpdate pf rel key before after sent new) : rel.columns.length = new.length :=
  List.Forall₂.length_eq update.encodes

/-- A value of the new tuple: the row's, as text or NULL, or the marker. -/
theorem SendsUpdate.value (update : SendsUpdate pf rel key before after sent new) {c : RelationColumn} {v : ColumnValue}
    (within : (c, v) ∈ rel.columns.zip new) :
    v = encodeValue pf (after c.name) ∨ v = .unchanged ∧ before c.name = after c.name := by
  rcases (List.forall₂_iff_zip.mp update.encodes).2 within with value | ⟨marker, same, _⟩
  · exact Or.inl value
  · exact Or.inr ⟨marker, same⟩

section Delete

variable (update : SendsUpdate pf rel key before after sent new) (rows : DescribesRows pf rel before after)
include update

theorem SendsUpdate.deleteLength : rel.columns.length = (sent.getD (keyTuple, new)).2.length := by
  cases update.old with
  | none => exact update.length
  | key | full => exact (List.length_map _).symm

include rows

/-- The tuple the key is taken from has a text for a key column unless it was not sent. -/
theorem SendsUpdate.keyText {c : RelationColumn} {v : ColumnValue}
    (within : (c, v) ∈ rel.columns.zip (sent.getD (keyTuple, new)).2)
    (present : before c.name ≠ .null ∧ after c.name ≠ .null) :
    (∃ s, v = .text s) ↔ (sent = none → ¬ Marked rel new c) ∧ (sent ≠ none → CarriesValue key sent c) := by
  cases update.old with
  | none =>
      rw [Option.getD_none] at within
      constructor
      · rintro ⟨s, rfl⟩
        refine ⟨fun _ marked => ?_, fun other => absurd rfl other⟩
        cases zip_functional update.length (List.Nodup.of_map _ rows.distinct) within marked
      · intro ⟨sentText, _⟩
        rcases update.value within with rfl | ⟨rfl, _⟩
        · exact ⟨_, encodeValue_text present.2⟩
        · exact absurd within (sentText rfl)
  | key =>
      rw [Option.getD_some] at within
      obtain ⟨_, rfl⟩ := mem_zip_map_iff within
      by_cases inKey : c.name ∈ key
      · rw [if_pos inKey]
        exact ⟨fun _ => ⟨nofun, fun _ => Or.inr inKey⟩, fun _ => ⟨_, encodeValue_text present.1⟩⟩
      · rw [if_neg inKey]
        refine ⟨nofun, fun carried => ?_⟩
        rcases carried.2 nofun with full | named
        · exact absurd full (by decide)
        · exact absurd named inKey
  | full =>
      rw [Option.getD_some] at within
      obtain ⟨_, rfl⟩ := mem_zip_map_iff within
      exact ⟨fun _ => ⟨nofun, fun _ => Or.inl rfl⟩, fun _ => ⟨_, encodeValue_text present.1⟩⟩

variable {view : LiveView} (keyed : view.row.spec.KeyedRows rel before after)
include keyed

theorem LiveView.plannedDelete_located (located : view.row.spec.Locates rel key sent new) :
    ∃ ops, view.plannedDelete pf rel sent new = .ok (.ops ops) := by
  unfold ViewSpec.Locates at located
  cases shape : view.row.spec.shape with
  | projection =>
      rw [shape] at located
      obtain ⟨conds, eq⟩ := keyConditions_text rows.resolved update.deleteLength keyed.known fun c v within named =>
        (update.keyText rows within (keyed.present c.name named)).mpr (located c (List.of_mem_zip within).1 named)
      refine ⟨[.deleteByKey (conds.map Prod.fst) (conds.map Prod.snd)], ?_⟩
      simp only [LiveView.plannedDelete, planSingleDelete, shape, eq, Except.map]
  | aggregate =>
      rw [shape] at located
      obtain ⟨old, rfl⟩ := located
      cases update.old with
      | full =>
          have reads : TupleReads pf rel (encodeRow pf rel before) before := by
            rw [TupleReads, encodeRow, List.forall₂_map_right_iff]
            exact List.forall₂_same.mpr fun c member =>
              bindValue_encode (rows.resolved c member) fun ty typed => (rows.typed c member ty typed).1
          obtain ⟨row, bound, _⟩ := bindRow_reads rows.distinct reads
          refine ⟨deltaRows view.row.spec [[row]] .minus, ?_⟩
          simp only [LiveView.plannedDelete, planSingleDelete, shape, Option.getD_some, bound, Except.map, bne_self_eq_false]
          rfl

theorem LiveView.plannedDelete_unlocated (unlocated : ¬ view.row.spec.Locates rel key sent new) :
    ∃ reason, view.plannedDelete pf rel sent new = .ok (.stale reason) := by
  unfold ViewSpec.Locates at unlocated
  cases shape : view.row.spec.shape with
  | projection =>
      simp only [shape, not_forall] at unlocated
      obtain ⟨c, member, named, missing⟩ := unlocated
      obtain ⟨v, within⟩ := exists_zip update.deleteLength member
      obtain ⟨reason, eq⟩ := keyConditions_missing rows.resolved rows.distinct update.deleteLength keyed.known within named
        fun s text => missing ((update.keyText rows within (keyed.present c.name named)).mp ⟨s, text⟩)
      refine ⟨reason, ?_⟩
      simp only [LiveView.plannedDelete, planSingleDelete, shape, eq, Except.map]
  | aggregate =>
      simp only [shape] at unlocated
      have kind : ((sent.getD (keyTuple, new)).1 != fullOldTuple) = true := by
        cases update.old with
        | none | key => rfl
        | full => exact absurd ⟨_, rfl⟩ unlocated
      refine ⟨"old row not available; the base table needs REPLICA IDENTITY FULL", ?_⟩
      simp only [LiveView.plannedDelete, planSingleDelete, shape, kind, if_true]

end Delete

theorem resolveUnchanged_unsent {mentions : String → Bool} {columns : List RelationColumn} {tuple : Tuple}
    (length : columns.length = tuple.length)
    (silent : ∀ c, (c, ColumnValue.unchanged) ∈ columns.zip tuple → mentions c.name = false) :
    resolveUnchanged mentions columns tuple none = .ok (tuple.map fun v => if v = .unchanged then .null else v) := by
  induction tuple generalizing columns with
  | nil => rfl
  | cons v tuple ih =>
      cases columns with
      | nil => contradiction
      | cons c columns =>
          have rest := ih (Nat.succ.inj length) fun d within => silent d (List.mem_cons_of_mem _ within)
          cases v with
          | unchanged =>
              have here := silent c List.mem_cons_self
              simp only [resolveUnchanged, List.tail_cons, Option.map_none, rest, Option.bind_none, here, Bool.false_eq_true,
                if_false, Except.map, List.map_cons, if_true]
          | _ =>
              simp only [resolveUnchanged, List.tail_cons, Option.map_none, rest, Except.map, List.map_cons, reduceCtorEq,
                if_false]

theorem resolveUnchanged_mentioned {mentions : String → Bool} {columns : List RelationColumn} {tuple : Tuple} {c : RelationColumn}
    (marked : (c, ColumnValue.unchanged) ∈ columns.zip tuple) (mentioned : mentions c.name = true) :
    ∃ reason, resolveUnchanged mentions columns tuple none = .error (.stale reason) := by
  induction tuple generalizing columns with
  | nil =>
      rw [List.zip_nil_right] at marked
      exact absurd marked List.not_mem_nil
  | cons v tuple ih =>
      cases columns with
      | nil => exact absurd marked List.not_mem_nil
      | cons d columns =>
          by_cases here : v = .unchanged ∧ mentions d.name = true
          · obtain ⟨rfl, mentioned⟩ := here
            refine ⟨s!"unchanged TOAST value for column {d.name} could not be recovered (REPLICA IDENTITY FULL is required)", ?_⟩
            simp only [resolveUnchanged, Option.bind_none, mentioned, if_true]
          · rw [List.zip_cons_cons, List.mem_cons] at marked
            rcases marked with head | tail
            · cases head
              exact absurd ⟨rfl, mentioned⟩ here
            · obtain ⟨reason, rest⟩ := ih tail
              refine ⟨reason, ?_⟩
              cases v with
              | unchanged =>
                  have quiet : mentions d.name = false := by
                    rw [← Bool.not_eq_true]
                    exact fun mentioned => here ⟨rfl, mentioned⟩
                  simp only [resolveUnchanged, List.tail_cons, Option.map_none, rest, Option.bind_none, quiet,
                    Bool.false_eq_true, if_false, Except.map]
              | _ => simp only [resolveUnchanged, List.tail_cons, Option.map_none, rest, Except.map]

/-- What stands for a column in the row to insert: NULL where its value was not sent. -/
def StandsFor (rel : Relation) (key : List String) (after : BaseRow) (sent : Option (UInt8 × Tuple)) (new : Tuple)
    (c : RelationColumn) (d : Datum) : Prop :=
  (Marked rel new c ∧ ¬ CarriesValue key sent c → d = .null) ∧ (¬ (Marked rel new c ∧ ¬ CarriesValue key sent c) → d = after c.name)

section Completion

variable (update : SendsUpdate pf rel key before after sent new) (rows : DescribesRows pf rel before after)
include update rows

/-- A value of the new tuple or, for a marker, what the old tuple has in its place. -/
theorem SendsUpdate.completed {c : RelationColumn} {v : ColumnValue} (within : (c, v) ∈ rel.columns.zip new) :
    (∃ d, bindValue pf c v = .ok d ∧ StandsFor rel key after sent new c d) ∧ v ≠ .unchanged ∨ v = .unchanged ∧
      (CarriesValue key sent c → ∃ d, bindValue pf c (encodeValue pf (before c.name)) = .ok d ∧ StandsFor rel key after sent new c d) ∧
      (¬ CarriesValue key sent c → ∃ d, bindValue pf c .null = .ok d ∧ StandsFor rel key after sent new c d) := by
  have member := (List.of_mem_zip within).1
  have typed := fun ty is => (rows.typed c member ty is).2
  by_cases marker : v = .unchanged
  · subst marker
    refine Or.inr ⟨rfl, fun carried => ?_, fun missing => ?_⟩
    · have same : before c.name = after c.name := by
        rcases update.value within with value | ⟨_, same⟩
        · exact absurd value.symm (encodeValue_sent pf _)
        · exact same
      exact ⟨after c.name, same ▸ bindValue_encode (rows.resolved c member) (same ▸ typed),
        fun unsent => absurd carried unsent.2, fun _ => rfl⟩
    · exact ⟨.null, bindValue_null (rows.resolved c member), fun _ => rfl, fun sent => absurd ⟨within, missing⟩ sent⟩
  · refine Or.inl ⟨⟨after c.name, ?_, fun unsent => ?_, fun _ => rfl⟩, marker⟩
    · rcases update.value within with rfl | ⟨rfl, _⟩
      · exact bindValue_encode (rows.resolved c member) typed
      · exact absurd rfl marker
    · exact absurd (zip_functional update.length (List.Nodup.of_map _ rows.distinct) within unsent.1) marker

/-- Unless the definition mentions a column whose marker has no old tuple, the tuple is
completed, with NULL for what was not sent. -/
theorem SendsUpdate.resolves {mentions : String → Bool}
    (silent : sent = none → ∀ c, Marked rel new c → mentions c.name = false) :
    ∃ complete row, resolveUnchanged mentions rel.columns new (sent.map Prod.snd) = .ok complete ∧ bindRow pf rel complete = .ok row ∧
      ∀ c ∈ rel.columns, StandsFor rel key after sent new c (row c.name) := by
  suffices done : ∃ complete, resolveUnchanged mentions rel.columns new (sent.map Prod.snd) = .ok complete ∧
      List.Forall₂ (fun c v => ∃ d, bindValue pf c v = .ok d ∧ StandsFor rel key after sent new c d) rel.columns complete by
    obtain ⟨complete, resolved, values⟩ := done
    obtain ⟨full, reads, all⟩ := tupleReads_of_values rows.distinct values
    obtain ⟨row, bound, same⟩ := bindRow_reads rows.distinct reads
    exact ⟨complete, row, resolved, bound, fun c member => same c member ▸ all c member⟩
  have completed := fun {c v} => update.completed rows (c := c) (v := v)
  cases old : update.old with
  | none =>
      refine ⟨_, resolveUnchanged_unsent update.length (silent rfl), ?_⟩
      rw [List.forall₂_map_right_iff]
      refine List.forall₂_iff_zip.mpr ⟨update.length, fun {c v} within => ?_⟩
      rcases completed within with ⟨value, known⟩ | ⟨rfl, _, missing⟩
      · rw [if_neg known]
        exact value
      · rw [if_pos rfl]
        exact missing id
  | key =>
      apply @resolveUnchanged_ok mentions _ _ fun c => if c.name ∈ key then encodeValue pf (before c.name) else .null
      · intro c member
        split
        · exact encodeValue_sent pf _
        · exact nofun
      · refine List.forall₂_iff_zip.mpr ⟨update.length, fun {c v} within => ?_⟩
        rcases completed within with value | ⟨marker, carried, missing⟩
        · exact Or.inl value
        · refine Or.inr ⟨marker, ?_⟩
          split
          · exact carried (Or.inr ‹_›)
          · refine missing fun has => ?_
            rcases has with full | named
            · exact absurd full (by decide)
            · contradiction
  | full =>
      apply @resolveUnchanged_ok mentions _ _ fun c => encodeValue pf (before c.name)
      · exact fun c _ => encodeValue_sent pf _
      · refine List.forall₂_iff_zip.mpr ⟨update.length, fun {c v} within => ?_⟩
        rcases completed within with value | ⟨marker, carried, _⟩
        · exact Or.inl value
        · exact Or.inr ⟨marker, carried (Or.inl rfl)⟩

end Completion

/-- The columns of a relation a view uses. -/
def ViewSpec.Uses (spec : ViewSpec) (relid : Nat) (name : String) : Prop :=
  ∃ base ∈ spec.relations, base.oid = relid ∧ name ∈ base.usedColumns

/-- The plan inserts the view's query over the planned row, after a delete, or goes stale, or
has nothing to do. -/
def LiveView.Plans (pf : Platform) (view : LiveView) (rel : Relation) (sent : Option (UInt8 × Tuple)) (new : Tuple)
    (outcome : Except String Planned) : Prop :=
  match view.plannedRow pf rel sent new with
  | some row => ∃ removed, outcome = .ok (.ops (removed ++ deltaRows view.row.spec [[row]] .plus))
  | none => (∃ reason, outcome = .ok (.stale reason)) ∨ outcome = .ok (.ops [])

/-- No used column of the row to insert has another value than the table for want of one
sent. -/
def LiveView.WritesKnown (pf : Platform) (view : LiveView) (rel : Relation) (after : BaseRow) (sent : Option (UInt8 × Tuple)) (new : Tuple) :
    Prop :=
  ∀ row, view.plannedRow pf rel sent new = some row →
    ∀ c ∈ rel.columns, view.row.spec.Uses rel.id c.name → Marked rel new c → row c.name = after c.name

/-- The old row cannot be located; or a column is marked, without an old tuple, whose name
is in the definition's text; or the old tuple has every used column that is marked. -/
def LiveView.Recovers (pf : Platform) (view : LiveView) (rel : Relation) (key : List String) (sent : Option (UInt8 × Tuple)) (new : Tuple) :
    Prop :=
  ¬ view.row.spec.Locates rel key sent new ∨
    (sent = none ∧ ∃ c, Marked rel new c ∧ definitionMentions pf view.row.definition c.name = true) ∨
    ∀ c ∈ rel.columns, view.row.spec.Uses rel.id c.name → Marked rel new c → CarriesValue key sent c

section Planned

variable {view : LiveView} (update : SendsUpdate pf rel key before after sent new) (rows : DescribesRows pf rel before after)
  (keyed : view.row.spec.KeyedRows rel before after)
include update rows keyed

theorem LiveView.plans_of_single (single : view.row.spec.isJoin = false) (tables : Nat → Option (List BaseRow))
    (oldFull : Option Tuple) (relid : Nat) :
    view.Plans pf rel sent new (planChange pf tables view rel (.update relid sent new) oldFull) := by
  rw [planChange_update single, LiveView.Plans, LiveView.plannedRow]
  by_cases skipped : view.untouched rel sent new = true
  · rw [if_pos skipped, if_pos skipped]
    exact Or.inr rfl
  rw [if_neg skipped, if_neg skipped]
  by_cases located : view.row.spec.Locates rel key sent new
  · obtain ⟨removed, deletes⟩ := view.plannedDelete_located update rows keyed located
    rw [deletes]
    by_cases silent : sent = none → ∀ c, Marked rel new c → definitionMentions pf view.row.definition c.name = false
    · obtain ⟨complete, row, resolved, bound, _⟩ := update.resolves rows silent
      simp only [resolved, bound, Except.toOption, withResolved, planSingleInsert, Except.map]
      exact ⟨removed, rfl⟩
    · push Not at silent
      obtain ⟨rfl, c, marked, mentioned⟩ := silent
      obtain ⟨reason, resolved⟩ := resolveUnchanged_mentioned marked (Bool.eq_true_of_not_eq_false mentioned)
      rw [Option.map_none, resolved]
      exact Or.inl ⟨reason, rfl⟩
  · obtain ⟨reason, deletes⟩ := view.plannedDelete_unlocated update rows keyed located
    rw [deletes]
    exact Or.inl ⟨reason, rfl⟩

theorem LiveView.plannedRow_some {row : BaseRow} (planned : view.plannedRow pf rel sent new = some row) :
    view.row.spec.Locates rel key sent new ∧
      (sent = none → ∀ c, Marked rel new c → definitionMentions pf view.row.definition c.name = false) ∧
      ∀ c ∈ rel.columns, StandsFor rel key after sent new c (row c.name) := by
  rw [LiveView.plannedRow] at planned
  split at planned
  · contradiction
  by_cases located : view.row.spec.Locates rel key sent new
  · obtain ⟨removed, deletes⟩ := view.plannedDelete_located update rows keyed located
    rw [deletes] at planned
    by_cases silent : sent = none → ∀ c, Marked rel new c → definitionMentions pf view.row.definition c.name = false
    · obtain ⟨complete, completed, resolved, bound, stands⟩ := update.resolves rows silent
      simp only [resolved, bound, Except.toOption, Option.some.injEq] at planned
      subst planned
      exact ⟨located, silent, stands⟩
    · push Not at silent
      obtain ⟨rfl, c, marked, mentioned⟩ := silent
      obtain ⟨reason, resolved⟩ := resolveUnchanged_mentioned marked (Bool.eq_true_of_not_eq_false mentioned)
      rw [Option.map_none, resolved] at planned
      contradiction
  · obtain ⟨reason, deletes⟩ := view.plannedDelete_unlocated update rows keyed located
    rw [deletes] at planned
    contradiction

theorem LiveView.plannedRow_exists (touched : view.untouched rel sent new = false) (located : view.row.spec.Locates rel key sent new)
    (silent : sent = none → ∀ c, Marked rel new c → definitionMentions pf view.row.definition c.name = false) :
    ∃ row, view.plannedRow pf rel sent new = some row := by
  obtain ⟨removed, deletes⟩ := view.plannedDelete_located update rows keyed located
  obtain ⟨complete, row, resolved, bound, _⟩ := update.resolves rows silent
  refine ⟨row, ?_⟩
  simp only [LiveView.plannedRow, touched, Bool.false_eq_true, if_false, deletes, resolved, bound, Except.toOption]

end Planned

theorem LiveView.carries_of_untouched {view : LiveView} (skipped : view.untouched rel sent new = true) (c : RelationColumn) :
    CarriesValue key sent c := by
  rw [LiveView.untouched, Option.any_eq_true] at skipped
  obtain ⟨⟨kind, old⟩, rfl, whole⟩ := skipped
  rw [Bool.and_eq_true, decide_eq_true_eq] at whole
  exact Or.inl whole.1

theorem LiveView.writesKnown_iff {view : LiveView} (update : SendsUpdate pf rel key before after sent new)
    (rows : DescribesRows pf rel before after) (keyed : view.row.spec.KeyedRows rel before after) :
    view.WritesKnown pf rel after sent new ↔ view.Recovers pf rel key sent new := by
  constructor
  · intro known
    by_contra lost
    simp only [LiveView.Recovers, not_or, not_and, not_exists, not_forall, not_not] at lost
    obtain ⟨located, quiet, c, member, uses, marked, missing⟩ := lost
    have touched : view.untouched rel sent new = false := by
      rw [← Bool.not_eq_true]
      exact fun skipped => missing (LiveView.carries_of_untouched skipped c)
    obtain ⟨row, planned⟩ := view.plannedRow_exists update rows keyed touched located
      fun unsent e marked => Bool.eq_false_of_not_eq_true (quiet unsent e marked)
    have null := ((view.plannedRow_some update rows keyed planned).2.2 c member).1 ⟨marked, missing⟩
    exact update.stored c member marked ((known row planned c member uses marked).symm.trans null)
  · intro recovers row planned c member uses marked
    obtain ⟨located, silent, stands⟩ := view.plannedRow_some update rows keyed planned
    apply (stands c member).2
    rcases recovers with unlocated | ⟨unsent, e, marked, mentioned⟩ | carried
    · exact absurd located unlocated
    · rw [silent unsent e marked] at mentioned
      contradiction
    · exact fun unsent => unsent.2 (carried c member uses marked)

/-- `plan_change` inserts no unknown value exactly when the old row cannot be located, the
text of the definition gives a missing value away, or the old tuple has them all. -/
theorem LiveView.inserts_known_iff {view : LiveView} (single : view.row.spec.isJoin = false)
    (update : SendsUpdate pf rel key before after sent new) (rows : DescribesRows pf rel before after)
    (keyed : view.row.spec.KeyedRows rel before after) :
    (∀ tables oldFull relid, view.Plans pf rel sent new (planChange pf tables view rel (.update relid sent new) oldFull)) ∧
      (view.WritesKnown pf rel after sent new ↔ view.Recovers pf rel key sent new) :=
  ⟨fun tables oldFull relid => view.plans_of_single update rows keyed single tables oldFull relid, view.writesKnown_iff update rows keyed⟩

end Update

/-- `SELECT id, ref FROM orders`. -/
def ordersSpec : ViewSpec where
  shape := .projection
  predicate := none
  columns := [⟨.column 0 "id" .text, "id"⟩, ⟨.column 0 "ref" .text, "ref"⟩]
  pkColumns := ["id"]
  pkViewColumns := ["id"]
  countAlias := none
  counts := []
  sums := []
  relations := [⟨1, 1, "public.orders", ["id"], ["id", "ref"], ["text", "text"], []⟩]
  selectList := [⟨.column 0 "id" .text, "id"⟩, ⟨.column 0 "ref" .text, "ref"⟩]
  hiddenColumns := []

def ordersView : LiveView := .load { shopView 0 [] with definition := "select id, ref from orders", spec := ordersSpec }

def orderBefore : BaseRow := shopRow (.text "a") (.text "c") .null

def orderAfter : BaseRow := shopRow (.text "b") (.text "c") .null

def orderSent : Option (UInt8 × Tuple) := some (keyTuple, [.text "a", .null, .null])

def orderNew : Tuple := [.text "b", .unchanged, .null]

theorem orderSent_update : SendsUpdate .basic (shopRelation 1) ["id"] orderBefore orderAfter orderSent orderNew where
  old := .key
  encodes := .cons (Or.inl rfl) (.cons (Or.inr ⟨rfl, rfl, List.not_mem_nil⟩) (.cons (Or.inl rfl) .nil))
  stored := by
    intro c _ marked
    simp only [Marked, shopRelation, orderNew, List.zip_cons_cons, List.zip_nil_right, List.mem_cons, Prod.mk.injEq, reduceCtorEq,
      and_false, and_true, List.not_mem_nil, or_false, false_or] at marked
    subst marked
    intro same
    cases same

theorem orders_described : DescribesRows .basic (shopRelation 1) orderBefore orderAfter where
  distinct := shop.distinct 1
  resolved := shop.resolved 1
  typed := by
    intro c member ty typed
    simp only [shopRelation, List.mem_cons, List.not_mem_nil, or_false] at member
    rcases member with rfl | rfl | rfl
    · cases typed
      exact ⟨Or.inr rfl, Or.inr rfl⟩
    · cases typed
      exact ⟨Or.inr rfl, Or.inr rfl⟩
    · exact ⟨Or.inl rfl, Or.inl rfl⟩

theorem orders_keyed : ordersView.row.spec.KeyedRows (shopRelation 1) orderBefore orderAfter where
  known := show ["id"] ⊆ ["id", "ref", "doc"] by decide
  present := by
    intro name member
    obtain rfl := List.mem_singleton.mp member
    exact ⟨nofun, nofun⟩

/-- The customer comes out as NULL: the key tuple's placeholder is taken for its value. -/
theorem orders_inserts_null :
    planChange .basic (fun _ => none) ordersView (shopRelation 1) (.update 1 orderSent orderNew) none =
        .ok (.ops [.deleteByKey [("id", "text")] ["a"], .row .plus (.obj [("id", .str "b"), ("ref", .null)])]) ∧
      orderAfter "ref" = .text "c" ∧ ¬ ordersView.WritesKnown .basic (shopRelation 1) orderAfter orderSent orderNew := by
  refine ⟨rfl, rfl, fun known => ?_⟩
  have uses : ordersView.row.spec.Uses 1 "ref" :=
    ⟨_, List.mem_singleton_self _, rfl, List.mem_cons_of_mem _ (List.mem_singleton_self _)⟩
  have marked : Marked (shopRelation 1) orderNew ⟨"ref", false, 25, -1, some "text"⟩ :=
    List.mem_cons_of_mem _ List.mem_cons_self
  have planned : ∃ row, ordersView.plannedRow .basic (shopRelation 1) orderSent orderNew = some row ∧ row "ref" = .null := ⟨_, rfl, rfl⟩
  obtain ⟨row, planned, lost⟩ := planned
  have kept := known row planned _ (List.mem_cons_of_mem _ List.mem_cons_self) uses marked
  rw [lost] at kept
  contradiction

theorem orders_inserts_known_iff :
    ordersView.WritesKnown .basic (shopRelation 1) orderAfter orderSent orderNew ↔
      ordersView.Recovers .basic (shopRelation 1) ["id"] orderSent orderNew :=
  (LiveView.inserts_known_iff rfl orderSent_update orders_described orders_keyed).2

end Nabla
