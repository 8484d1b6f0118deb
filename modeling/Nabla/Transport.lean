import Nabla.Incremental

/-! A view row between planning and execution: written by `to_jsonb`, read by
`jsonb_populate_record`. -/
namespace Nabla
open Bags

variable {pf : Platform} {spec : ViewSpec}

theorem populateField_self {d : Datum} {k : Kind} (typed : d.HasKind k) :
    populateField k d.toJsonb = some d ↔ d ≠ .jsonNull := by
  constructor
  · rintro kept rfl
    obtain rfl : k = .jsonb := typed
    exact absurd (Option.some.inj kept) (by decide)
  · exact populateField_toJsonb typed

theorem Record.Matches.names {cols : List (String × Kind)} {r : Record} (fits : r.Matches cols) :
    r.map Prod.fst = cols.map Prod.fst := by
  induction fits with
  | nil => rfl
  | cons head _ ih => exact congrArg₂ List.cons head.1.symm ih

theorem populateRecord_part_self {r : Record} (distinct : (r.map Prod.fst).Nodup) {cols : List (String × Kind)} {part : Record}
    (within : part ⊆ r) (fits : part.Matches cols) :
    populateRecord cols r.toJsonb = some part ↔ ∀ p ∈ part, p.2 ≠ .jsonNull := by
  induction fits with
  | nil => exact ⟨fun _ p member => absurd member List.not_mem_nil, fun _ => rfl⟩
  | @cons c p cols part head _ ih =>
      obtain ⟨name, k⟩ := c
      obtain ⟨name', d⟩ := p
      obtain ⟨rfl, typed⟩ := head
      have found := Record.field_toJsonb distinct (within List.mem_cons_self)
      have rest := ih fun x member => within (List.mem_cons_of_mem _ member)
      rw [List.forall_mem_cons, ← rest, ← populateField_self typed, populateRecord, found, Option.getD_some]
      cases populateField k d.toJsonb <;> cases populateRecord cols r.toJsonb <;> simp

/-- The `jsonb` detour of a row of the view's columns is the identity exactly when no column
holds the JSON null. -/
theorem populateRecord_self {r : Record} {cols : List (String × Kind)} (distinct : (cols.map Prod.fst).Nodup) (fits : r.Matches cols) :
    populateRecord cols r.toJsonb = some r ↔ ∀ p ∈ r, p.2 ≠ .jsonNull :=
  populateRecord_part_self (fits.names ▸ distinct) (fun _ member => member) fits

theorem projectionRow_inserted {r : Json} {storage last : List Record} {deltas : List Delta}
    (done : projectionRow spec .plus r storage = .ok (last, deltas)) :
    ∃ row, populateRecord spec.tableColumns r = some row ∧ last = storage ++ [row] := by
  unfold projectionRow at done
  cases read : populateRecord spec.tableColumns r with
  | none =>
      simp only [read] at done
      cases done
  | some row =>
      simp only [read] at done
      split at done
      · cases done
      · obtain ⟨rfl, -⟩ := Prod.mk.inj (Except.ok.inj done)
        exact ⟨row, rfl, rfl⟩

theorem execute_inserted (shape : spec.shape = .projection) {rows : List Record} {storage last : List Record} {deltas : List Delta}
    (done : execute pf spec storage (rows.map fun r => .row .plus r.toJsonb) = .ok (last, deltas)) :
    ∃ rows', List.Forall₂ (fun r r' => populateRecord spec.tableColumns r.toJsonb = some r') rows rows' ∧ last = storage ++ rows' := by
  induction rows generalizing storage last deltas with
  | nil =>
      obtain ⟨rfl, -⟩ := Prod.mk.inj (Except.ok.inj done)
      exact ⟨[], .nil, (List.append_nil _).symm⟩
  | cons r rows ih =>
      rw [List.map_cons, execute, executeOp, shape] at done
      cases one : projectionRow spec .plus r.toJsonb storage with
      | error e =>
          simp only [one] at done
          cases done
      | ok result =>
          obtain ⟨storage₁, first⟩ := result
          simp only [one] at done
          cases rest : execute pf spec storage₁ (rows.map fun r => .row .plus r.toJsonb) with
          | error e =>
              rw [rest] at done
              cases done
          | ok result =>
              obtain ⟨last', more⟩ := result
              rw [rest] at done
              obtain ⟨rfl, -⟩ := Prod.mk.inj (Except.ok.inj done)
              obtain ⟨row, read, rfl⟩ := projectionRow_inserted one
              obtain ⟨rows', reads, rfl⟩ := ih rest
              exact ⟨row :: rows', .cons read reads, by rw [List.append_assoc, List.singleton_append]⟩

theorem execute_inserts (shape : spec.shape = .projection) {rows storage : List Record}
    (free : (storage ++ rows).Pairwise fun v r => sameKey spec v r = false)
    (reads : ∀ r ∈ rows, populateRecord spec.tableColumns r.toJsonb = some r) :
    execute pf spec storage (rows.map fun r => .row .plus r.toJsonb) = .ok (storage ++ rows, rows.map fun r => ⟨.I, r.toJsonb⟩) := by
  induction rows generalizing storage with
  | nil => rw [List.append_nil]; rfl
  | cons r rows ih =>
      have fresh : storage.any (sameKey spec · r) = false := by
        rw [List.any_eq_false]
        intro v member taken
        rw [(List.pairwise_append.mp free).2.2 v member r List.mem_cons_self] at taken
        cases taken
      have later : (storage ++ [r] ++ rows).Pairwise fun v r => sameKey spec v r = false := by
        rwa [List.append_assoc, List.singleton_append]
      have one : projectionRow spec .plus r.toJsonb storage = .ok (storage ++ [r], [⟨.I, r.toJsonb⟩]) := by
        simp only [projectionRow, reads r List.mem_cons_self, fresh, Bool.false_eq_true, if_false]
      have rest := ih later fun x member => reads x (List.mem_cons_of_mem r member)
      simp only [List.map_cons, execute, executeOp, shape, one, rest, Except.map, List.singleton_append, List.append_assoc]

/-- The rows a projection's query returns are inserted as they are exactly when none of them
holds the JSON null. -/
theorem ViewSpec.transports_iff (pf : Platform) {spec : ViewSpec} (distinct : (spec.tableColumns.map Prod.fst).Nodup) :
    (∀ r : Record, r.Matches spec.tableColumns →
      (populateRecord spec.tableColumns r.toJsonb = some r ↔ ∀ p ∈ r, p.2 ≠ .jsonNull)) ∧
    (spec.shape = .projection → ∀ (tables : List (List BaseRow)) (storage : List Record),
      (∀ r ∈ spec.evalQuery tables, r.Matches spec.tableColumns) →
      ((storage ++ spec.evalQuery tables).Pairwise fun v r => sameKey spec v r = false) →
      (execute pf spec storage (deltaRows spec tables .plus) =
          .ok (storage ++ spec.evalQuery tables, (spec.evalQuery tables).map fun r => ⟨.I, r.toJsonb⟩) ↔
        ∀ r ∈ spec.evalQuery tables, ∀ p ∈ r, p.2 ≠ .jsonNull)) := by
  refine ⟨fun r fits => populateRecord_self distinct fits, ?_⟩
  intro shape tables storage fits free
  constructor
  · intro done r member
    obtain ⟨rows', reads, same⟩ := execute_inserted shape done
    obtain rfl := List.append_cancel_left same
    exact (populateRecord_self distinct (fits r member)).mp (List.forall₂_same.mp reads r member)
  · intro kept
    exact execute_inserts shape free fun r member => (populateRecord_self distinct (fits r member)).mpr (kept r member)

def documentTables (doc : Datum) : List (List BaseRow) := [[shopRow (.text "o") (.text "c") doc], [shopRow (.text "c") .null .null]]

def documentRow (doc : Datum) : Record := [("id", .text "o"), ("customer", .text "c"), ("doc", doc)]

/-- A document is carried as it is. -/
theorem documents_carried : execute .basic shopSpec [] (deltaRows shopSpec (documentTables (.jsonb (.arr [.null]))) .plus) =
    .ok ([documentRow (.jsonb (.arr [.null]))], [⟨.I, (documentRow (.jsonb (.arr [.null]))).toJsonb⟩]) := by
  have distinct : (shopSpec.tableColumns.map Prod.fst).Nodup := show ["id", "customer", "doc"].Nodup by decide
  have rows : shopSpec.evalQuery (documentTables (.jsonb (.arr [.null]))) = [documentRow (.jsonb (.arr [.null]))] := rfl
  have transports := (ViewSpec.transports_iff .basic distinct).2 rfl (documentTables (.jsonb (.arr [.null]))) []
  rw [rows] at transports
  refine (transports ?_ (List.pairwise_singleton _ _)).mpr ?_
  · intro r member
    obtain rfl := List.mem_singleton.mp member
    exact .cons ⟨rfl, rfl⟩ (.cons ⟨rfl, rfl⟩ (.cons ⟨rfl, rfl⟩ .nil))
  · intro r member
    obtain rfl := List.mem_singleton.mp member
    exact show ∀ p ∈ documentRow (.jsonb (.arr [.null])), p.2 ≠ .jsonNull by decide

/-- A document that is the JSON null is stored as NULL. -/
theorem documents_nulled : shopSpec.evalQuery (documentTables .jsonNull) = [documentRow .jsonNull] ∧
    execute .basic shopSpec [] (deltaRows shopSpec (documentTables .jsonNull) .plus) =
      .ok ([documentRow .null], [⟨.I, (documentRow .null).toJsonb⟩]) ∧
    documentRow .null ≠ documentRow .jsonNull :=
  ⟨rfl, rfl, by decide⟩

end Nabla
