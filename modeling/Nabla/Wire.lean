import Nabla.Join
import Nabla.Lib.Related

/-! Reading decoded tuples: the values a tuple binds to, the marker for an unchanged
value, and the primary key of a change. -/
namespace Nabla
open Bags

variable {pf : Platform}

theorem bindValue_null {c : RelationColumn} (resolved : c.typeName.isSome) : bindValue pf c .null = .ok .null := by
  obtain ⟨ty, eq⟩ := Option.isSome_iff_exists.mp resolved
  simp only [bindValue, eq]

theorem bindValue_encode {c : RelationColumn} {d : Datum} (resolved : c.typeName.isSome)
    (holds : ∀ ty, c.typeName = some ty → pf.Holds ty d) : bindValue pf c (encodeValue pf d) = .ok d := by
  obtain ⟨ty, eq⟩ := Option.isSome_iff_exists.mp resolved
  by_cases null : d = .null
  · subst null
    exact bindValue_null resolved
  · have text : encodeValue pf d = .text (pf.output d) := by
      cases d with
      | null => exact absurd rfl null
      | _ => rfl
    have typed := (holds ty eq).resolve_left null
    simp only [bindValue, eq, text, pf.input_output typed null]

def castValue (pf : Platform) : Datum → ColumnValue
  | .null => .null
  | d => .text (pf.textCast d)

theorem castValue_text {d : Datum} (present : d ≠ .null) : castValue pf d = .text (pf.textCast d) := by
  cases d with
  | null => exact absurd rfl present
  | _ => rfl

theorem encodeValue_text {d : Datum} (present : d ≠ .null) : encodeValue pf d = .text (pf.output d) := by
  cases d with
  | null => exact absurd rfl present
  | _ => rfl

theorem bindValue_cast {c : RelationColumn} {d : Datum} (resolved : c.typeName.isSome)
    (holds : ∀ ty, c.typeName = some ty → pf.Holds ty d) : bindValue pf c (castValue pf d) = .ok d := by
  obtain ⟨ty, eq⟩ := Option.isSome_iff_exists.mp resolved
  by_cases null : d = .null
  · subst null
    exact bindValue_null resolved
  · have typed := (holds ty eq).resolve_left null
    simp only [bindValue, eq, castValue_text null, pf.input_textCast typed null]

/-- A tuple that reads as the row `full`. -/
def TupleReads (pf : Platform) (rel : Relation) (tuple : Tuple) (full : BaseRow) : Prop :=
  List.Forall₂ (fun c v => bindValue pf c v = .ok (full c.name)) rel.columns tuple

theorem bindValues_reads {columns : List RelationColumn} {tuple : Tuple} {full : BaseRow}
    (reads : List.Forall₂ (fun c v => bindValue pf c v = .ok (full c.name)) columns tuple) :
    bindValues pf columns tuple = .ok (columns.map fun c => (c.name, full c.name)) := by
  induction reads with
  | nil => rfl
  | cons head _ ih => simp only [bindValues, head, ih, List.map_cons]

theorem bindRow_reads {rel : Relation} (distinct : (rel.columns.map RelationColumn.name).Nodup) {tuple : Tuple}
    {full : BaseRow} (reads : TupleReads pf rel tuple full) :
    ∃ row, bindRow pf rel tuple = .ok row ∧ ∀ c ∈ rel.columns, row c.name = full c.name := by
  refine ⟨_, by rw [bindRow, bindValues_reads reads]; rfl, ?_⟩
  intro c member
  have listed : (c.name, full c.name) ∈ rel.columns.map fun c => (c.name, full c.name) :=
    List.mem_map_of_mem (f := fun c : RelationColumn => (c.name, full c.name)) member
  have found := lookup_of_mem (by rwa [List.map_map]) listed
  simp only [found, Option.getD_some]

theorem tupleReads_of_values {rel : Relation} (distinct : (rel.columns.map RelationColumn.name).Nodup)
    {tuple : Tuple} {Q : RelationColumn → Datum → Prop}
    (values : List.Forall₂ (fun c v => ∃ d, bindValue pf c v = .ok d ∧ Q c d) rel.columns tuple) :
    ∃ full, TupleReads pf rel tuple full ∧ ∀ c ∈ rel.columns, Q c (full c.name) := by
  unfold TupleReads
  generalize rel.columns = columns at distinct values
  induction values with
  | nil => exact ⟨fun _ => .null, .nil, fun c member => absurd member List.not_mem_nil⟩
  | @cons c v columns tuple head tail ih =>
      obtain ⟨d, bound, holds⟩ := head
      rw [List.map_cons, List.nodup_cons] at distinct
      obtain ⟨full, reads, all⟩ := ih distinct.2
      have other : ∀ e ∈ columns, e.name ≠ c.name := by
        intro e member same
        exact distinct.1 (same ▸ List.mem_map_of_mem member)
      refine ⟨fun name => if name = c.name then d else full name, .cons ?_ ?_, ?_⟩
      · simp only [if_true, bound]
      · apply forall₂_imp_mem reads
        intro e member w read
        simp only [other e member, if_false, read]
      · intro e member
        rcases List.mem_cons.mp member with rfl | later
        · simp only [if_true, holds]
        · simp only [other e later, if_false, all e later]

theorem resolveUnchanged_ok (mentions : String → Bool) {columns : List RelationColumn} {tuple : Tuple}
    {old : RelationColumn → ColumnValue} {R : RelationColumn → ColumnValue → Prop}
    (known : ∀ c ∈ columns, old c ≠ .unchanged)
    (values : List.Forall₂ (fun c v => R c v ∧ v ≠ .unchanged ∨ v = .unchanged ∧ R c (old c)) columns tuple) :
    ∃ full, resolveUnchanged mentions columns tuple (some (columns.map old)) = .ok full ∧
      List.Forall₂ R columns full := by
  induction values with
  | nil => exact ⟨[], rfl, .nil⟩
  | @cons c v columns tuple head _ ih =>
      obtain ⟨rest, resolved, related⟩ := ih fun e member => known e (List.mem_cons_of_mem _ member)
      rcases head with ⟨holds, sent⟩ | ⟨rfl, holds⟩
      · refine ⟨v :: rest, ?_, .cons holds related⟩
        cases v with
        | unchanged => exact absurd rfl sent
        | _ => simp only [resolveUnchanged, List.tail_cons, List.map_cons, Option.map_some, resolved, Except.map]
      · refine ⟨old c :: rest, ?_, .cons holds related⟩
        have present := known c List.mem_cons_self
        cases value : old c with
        | unchanged => exact absurd value present
        | _ => simp only [resolveUnchanged, List.tail_cons, List.map_cons, Option.map_some, resolved, Except.map,
            Option.bind_some, List.head?_cons, value]

theorem resolveUnchanged_sent (mentions : String → Bool) (columns : List RelationColumn) {tuple : Tuple}
    (sent : ∀ v ∈ tuple, v ≠ .unchanged) (old : Option Tuple) :
    resolveUnchanged mentions columns tuple old = .ok tuple := by
  induction tuple generalizing columns old with
  | nil => rfl
  | cons v tuple ih =>
      have rest := ih columns.tail (fun w member => sent w (List.mem_cons_of_mem _ member)) (old.map List.tail)
      have head := sent v List.mem_cons_self
      cases v with
      | unchanged => exact absurd rfl head
      | _ => simp only [resolveUnchanged, rest, Except.map]

theorem encodeValue_sent (pf : Platform) (d : Datum) : encodeValue pf d ≠ .unchanged := by
  cases d <;> simp only [encodeValue, ne_eq, reduceCtorEq, not_false_eq_true]

theorem castValue_known (pf : Platform) (d : Datum) : castValue pf d ≠ .unchanged := by
  cases d <;> simp only [castValue, ne_eq, reduceCtorEq, not_false_eq_true]

theorem encodeRow_sent (pf : Platform) (rel : Relation) (row : BaseRow) :
    ∀ v ∈ encodeRow pf rel row, v ≠ .unchanged := by
  intro v member
  obtain ⟨c, _, rfl⟩ := List.mem_map.mp member
  exact encodeValue_sent pf _

theorem Relation.columnIndex_of_mem {rel : Relation} {name : String}
    (member : name ∈ rel.columns.map RelationColumn.name) :
    ∃ i c, rel.columnIndex name = some i ∧ rel.columns[i]? = some c ∧ c.name = name := by
  obtain ⟨c, within, rfl⟩ := List.mem_map.mp member
  cases found : rel.columnIndex c.name with
  | none =>
      have missing := List.findIdx?_eq_none_iff.mp found c within
      simp only [decide_true, Bool.true_eq_false] at missing
  | some i =>
      obtain ⟨below, holds, _⟩ := List.findIdx?_eq_some_iff_getElem.mp found
      exact ⟨i, rel.columns[i], rfl, List.getElem?_eq_getElem below, of_decide_eq_true holds⟩

/-- The text the change carries for each key column reads as the row's value. -/
def CarriesKey (pf : Platform) (rel : Relation) (key : List String) (old new : Option Tuple) (row : BaseRow) :
    Prop :=
  ∀ name ∈ key, ∀ i c, rel.columns[i]? = some c → c.name = name →
    ∃ s, keyText old new i = some s ∧ bindValue pf c (.text s) = .ok (row name)

theorem keyValuesFrom_ok {rel : Relation} {key : List String} {old new : Option Tuple} {row : BaseRow}
    (known : key ⊆ rel.columns.map RelationColumn.name) (carries : CarriesKey pf rel key old new row) :
    ∃ keys, keyValuesFrom rel old new key = .ok keys ∧
      keyPredicate pf rel keys = .ok (key.map fun name => (name, row name)) := by
  induction key with
  | nil => exact ⟨[], rfl, rfl⟩
  | cons name key ih =>
      obtain ⟨keys, found, read⟩ := ih (fun n member => known (List.mem_cons_of_mem _ member))
        (fun n member => carries n (List.mem_cons_of_mem _ member))
      obtain ⟨i, c, index, at_i, named⟩ := Relation.columnIndex_of_mem (known List.mem_cons_self)
      obtain ⟨s, text, bound⟩ := carries name List.mem_cons_self i c at_i named
      refine ⟨(i, s) :: keys, ?_, ?_⟩
      · simp only [keyValuesFrom, index, text, found, Except.map]
      · simp only [keyPredicate, at_i, bound, read, named, Except.map, List.map_cons]

theorem changeKey_ok {shadow : ShadowRow} {rel : Relation} {old new : Option Tuple} {row : BaseRow}
    (some : shadow.pkColumns ≠ []) (known : shadow.pkColumns ⊆ rel.columns.map RelationColumn.name)
    (carries : CarriesKey pf rel shadow.pkColumns old new row) :
    changeKey pf shadow rel old new = .ok (shadow.pkColumns.map fun name => (name, row name)) := by
  obtain ⟨keys, found, read⟩ := keyValuesFrom_ok known carries
  simp only [changeKey, keyValues, some, if_false, found, read]

theorem keyMatches_eq {key : List String} {row : BaseRow} (present : ∀ name ∈ key, row name ≠ .null)
    (r : BaseRow) : keyMatches (key.map fun name => (name, row name)) r = decide (key.map r = key.map row) := by
  rw [Bool.eq_iff_iff, decide_eq_true_eq]
  simp only [keyMatches, List.all_eq_true, List.forall_mem_map, sqlEq, Bool.and_eq_true, bne_iff_ne, beq_iff_eq,
    List.map_inj_left]
  constructor
  · intro equal name member
    exact (equal name member).2
  · intro equal name member
    exact ⟨equal name member ▸ present name member, equal name member⟩

theorem keyConditions_cons {rel : Relation} {old : Tuple} (resolved : ∀ c ∈ rel.columns, c.typeName.isSome)
    (length : rel.columns.length = old.length) {pk : String} (viewCol : String)
    (known : pk ∈ rel.columns.map RelationColumn.name) (rest : List (String × String)) :
    ∃ c ty v, (c, v) ∈ rel.columns.zip old ∧ c.name = pk ∧ c.typeName = some ty ∧ keyConditions rel old ((pk, viewCol) :: rest) =
      match v with
      | .text s => (keyConditions rel old rest).map (·.map (((viewCol, ty), s) :: ·))
      | _ => .ok (.error s!"primary key column {pk} missing from the decoded old row") := by
  obtain ⟨i, c, index, at_i, named⟩ := Relation.columnIndex_of_mem known
  have below := (List.getElem?_eq_some_iff.mp at_i).1
  have sent : old[i]? = some old[i] := List.getElem?_eq_getElem (length ▸ below)
  obtain ⟨ty, typed⟩ := Option.isSome_iff_exists.mp (resolved c (List.mem_of_getElem? at_i))
  refine ⟨c, ty, old[i], ?_, named, typed, ?_⟩
  · apply List.mem_of_getElem? (i := i)
    rw [List.getElem?_zip_eq_some]
    exact ⟨at_i, sent⟩
  · rw [Relation.columnIndex] at index
    rw [keyConditions, index]
    simp only [at_i, Option.bind_some, typed, sent]
    cases old[i] <;> rfl

theorem keyConditions_text {rel : Relation} {old : Tuple} (resolved : ∀ c ∈ rel.columns, c.typeName.isSome)
    (length : rel.columns.length = old.length) {pairs : List (String × String)}
    (known : pairs.map Prod.fst ⊆ rel.columns.map RelationColumn.name)
    (text : ∀ c v, (c, v) ∈ rel.columns.zip old → c.name ∈ pairs.map Prod.fst → ∃ s, v = .text s) :
    ∃ conds, keyConditions rel old pairs = .ok (.ok conds) := by
  induction pairs with
  | nil => exact ⟨[], rfl⟩
  | cons pair pairs ih =>
      obtain ⟨pk, viewCol⟩ := pair
      rw [List.map_cons, List.cons_subset] at known
      obtain ⟨conds, rest⟩ := ih known.2 fun c v sent member => text c v sent (List.mem_cons_of_mem _ member)
      obtain ⟨c, ty, v, sent, named, _, eq⟩ := keyConditions_cons resolved length viewCol known.1 pairs
      obtain ⟨s, rfl⟩ := text c v sent (named ▸ List.mem_cons_self)
      exact ⟨_, by rw [eq, rest]; rfl⟩

/-- The key columns of a row that were sent are the typed values the delete goes by. -/
theorem keyConditions_row {rel : Relation} {old : Tuple} {row : BaseRow} (resolved : ∀ c ∈ rel.columns, c.typeName.isSome)
    (length : rel.columns.length = old.length) (typed : ∀ c ∈ rel.columns, ∀ ty, c.typeName = some ty → pf.Holds ty (row c.name))
    {pairs : List (String × String)} (known : pairs.map Prod.fst ⊆ rel.columns.map RelationColumn.name)
    (present : ∀ name ∈ pairs.map Prod.fst, row name ≠ .null)
    (sent : ∀ c v, (c, v) ∈ rel.columns.zip old → c.name ∈ pairs.map Prod.fst → v = encodeValue pf (row c.name)) :
    ∃ conds, keyConditions rel old pairs = .ok (.ok conds) ∧
      keyDatums pf (conds.map Prod.fst) (conds.map Prod.snd) = .ok (pairs.map fun p => (p.2, row p.1)) := by
  induction pairs with
  | nil => exact ⟨[], rfl, rfl⟩
  | cons pair pairs ih =>
      obtain ⟨pk, viewCol⟩ := pair
      rw [List.map_cons, List.cons_subset] at known
      rw [List.map_cons, List.forall_mem_cons] at present
      obtain ⟨conds, rest, datums⟩ := ih known.2 present.2 fun c v read member => sent c v read (List.mem_cons_of_mem _ member)
      obtain ⟨c, ty, v, read, named, is, eq⟩ := keyConditions_cons resolved length viewCol known.1 pairs
      have text : v = .text (pf.output (row pk)) := by
        rw [sent c v read (named ▸ List.mem_cons_self), named, encodeValue_text present.1]
      have holds := (typed c (List.of_mem_zip read).1 ty is).resolve_left (named ▸ present.1)
      rw [named] at holds
      subst text
      refine ⟨((viewCol, ty), pf.output (row pk)) :: conds, by rw [eq, rest]; rfl, ?_⟩
      rw [List.map_cons, List.map_cons, keyDatums, pf.input_output holds present.1, datums]
      rfl

theorem keyConditions_missing {rel : Relation} {old : Tuple} (resolved : ∀ c ∈ rel.columns, c.typeName.isSome)
    (distinct : (rel.columns.map RelationColumn.name).Nodup) (length : rel.columns.length = old.length)
    {pairs : List (String × String)} (known : pairs.map Prod.fst ⊆ rel.columns.map RelationColumn.name)
    {c : RelationColumn} {v : ColumnValue} (sent : (c, v) ∈ rel.columns.zip old)
    (member : c.name ∈ pairs.map Prod.fst) (missing : ∀ s, v ≠ .text s) :
    ∃ reason, keyConditions rel old pairs = .ok (.error reason) := by
  induction pairs with
  | nil => exact absurd member List.not_mem_nil
  | cons pair pairs ih =>
      obtain ⟨pk, viewCol⟩ := pair
      rw [List.map_cons, List.cons_subset] at known
      obtain ⟨d, ty, w, read, named, _, eq⟩ := keyConditions_cons resolved length viewCol known.1 pairs
      rw [eq]
      rcases List.mem_cons.mp member with same | later
      · have columns : c = d := by
          apply List.inj_on_of_nodup_map distinct (List.of_mem_zip sent).1 (List.of_mem_zip read).1
          exact same.trans named.symm
        have values : v = w := zip_functional length (List.Nodup.of_map _ distinct) sent (columns ▸ read)
        cases w with
        | text s => exact absurd values (missing s)
        | _ => exact ⟨_, rfl⟩
      · obtain ⟨reason, rest⟩ := ih known.2 later
        cases w with
        | text s => exact ⟨reason, by rw [rest]; rfl⟩
        | _ => exact ⟨_, rfl⟩

end Nabla
