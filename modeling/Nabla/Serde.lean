import Nabla.Netting

/-! The numbers of a delta row on their way through `serde_json`, and what netting keeps of
the rows. Which number comes back for a number is not decided here: `number` stands for
`serde_json` without `arbitrary_precision`. -/
namespace Nabla
open Bags

mutual
def Json.numbers : Json → List ℚ
  | .num q => [q]
  | .arr items => Json.numbersItems items
  | .obj fields => Json.numbersFields fields
  | _ => []

def Json.numbersItems : List Json → List ℚ
  | [] => []
  | j :: items => Json.numbers j ++ Json.numbersItems items

def Json.numbersFields : List (String × Json) → List ℚ
  | [] => []
  | (_, j) :: fields => Json.numbers j ++ Json.numbersFields fields
end

mutual
/-- `from_str` and `to_string` of a value, number by number; one number that does not parse
fails the whole text. -/
def Json.renumber (number : ℚ → Option ℚ) : Json → Option Json
  | .num q => (number q).map .num
  | .arr items => (Json.renumberItems number items).map .arr
  | .obj fields => (Json.renumberFields number fields).map .obj
  | j => some j

def Json.renumberItems (number : ℚ → Option ℚ) : List Json → Option (List Json)
  | [] => some []
  | j :: items =>
    match Json.renumber number j, Json.renumberItems number items with
    | some j', some items' => some (j' :: items')
    | _, _ => none

def Json.renumberFields (number : ℚ → Option ℚ) : List (String × Json) → Option (List (String × Json))
  | [] => some []
  | (name, j) :: fields =>
    match Json.renumber number j, Json.renumberFields number fields with
    | some j', some fields' => some ((name, j') :: fields')
    | _, _ => none
end

theorem Json.renumber_self (number : ℚ → Option ℚ) : ∀ j : Json, j.renumber number = some j ↔ ∀ q ∈ j.numbers, number q = some q := by
  have both {xs ys : List ℚ} : (∀ q ∈ xs ++ ys, number q = some q) ↔ (∀ q ∈ xs, number q = some q) ∧ ∀ q ∈ ys, number q = some q :=
    List.forall_mem_append
  refine Json.rec
    (motive_1 := fun j => j.renumber number = some j ↔ ∀ q ∈ j.numbers, number q = some q)
    (motive_2 := fun items => Json.renumberItems number items = some items ↔ ∀ q ∈ Json.numbersItems items, number q = some q)
    (motive_3 := fun fields => Json.renumberFields number fields = some fields ↔ ∀ q ∈ Json.numbersFields fields, number q = some q)
    (motive_4 := fun field => field.2.renumber number = some field.2 ↔ ∀ q ∈ field.2.numbers, number q = some q)
    ?null ?bool ?num ?str ?arr ?obj ?nil ?cons ?fnil ?fcons ?field
  case null => simp [Json.renumber, Json.numbers]
  case bool => simp [Json.renumber, Json.numbers]
  case num => simp [Json.renumber, Json.numbers]
  case str => simp [Json.renumber, Json.numbers]
  case arr => intro items ih; simp [Json.renumber, Json.numbers, ← ih]
  case obj => intro fields ih; simp [Json.renumber, Json.numbers, ← ih]
  case nil => simp [Json.renumberItems, Json.numbersItems]
  case cons =>
    intro j items head tail
    rw [Json.numbersItems, both, ← head, ← tail, Json.renumberItems]
    cases j.renumber number <;> cases Json.renumberItems number items <;> simp
  case fnil => simp [Json.renumberFields, Json.numbersFields]
  case fcons =>
    rintro ⟨name, j⟩ fields head tail
    rw [Json.numbersFields, both, ← head, ← tail, Json.renumberFields]
    cases j.renumber number <;> cases Json.renumberFields number fields <;> simp
  case field => intro name j ih; exact ih

/-- A platform whose rows go through `serde_json`. -/
def Platform.serde (pf : Platform) (number : ℚ → Option ℚ) : Platform := { pf with serdeParse := Json.renumber number }

variable {pf : Platform} {spec : ViewSpec}

/-- Every emitted row is one of the input rows, rows of different keys stay apart, and no
event is passed over. -/
structure NetLossless (pf : Platform) (spec : ViewSpec) (deltas : List Delta) : Prop where
  rows : ∀ d ∈ net pf spec deltas, ∃ e ∈ deltas, e.rowJson = d.rowJson
  keys : ∀ d ∈ deltas, ∀ e ∈ deltas, ∀ row row', pf.serdeParse d.rowJson = some row → pf.serdeParse e.rowJson = some row' →
    spec.identityOf row = spec.identityOf row' → spec.identityOf d.rowJson = spec.identityOf e.rowJson
  taken : ∀ d ∈ deltas, ∃ row, pf.serdeParse d.rowJson = some row

theorem netLossless_of_reads {deltas : List Delta} (reads : ReadsBack pf deltas) : NetLossless pf spec deltas where
  rows := by
    intro d member
    rw [net_events reads] at member
    obtain ⟨e, within, rfl⟩ := List.mem_map.mp member
    rw [deltaOf_row]
    refine @netEvents_rows _ _ _ _ _ _ _ _ (fun row => ∃ e ∈ deltas, e.rowJson = row) ?_ e within
    intro e within
    obtain ⟨d, inDeltas, rfl⟩ := List.mem_map.mp within
    exact ⟨d, inDeltas, d.event_row.symm⟩
  keys := by
    intro d inDeltas e inDeltas' row row' read read' same
    obtain rfl := Option.some.inj ((reads d inDeltas).symm.trans read)
    obtain rfl := Option.some.inj ((reads e inDeltas').symm.trans read')
    exact same
  taken := fun d member => ⟨d.rowJson, reads d member⟩

theorem net_single {row row' : Json} (read : pf.serdeParse row = some row') : net pf spec [⟨.D, row⟩] = [⟨.D, row'⟩] := by
  simp only [net, netStates, read]
  rfl

/-- Netting loses nothing of any list of these rows exactly when every number in them is read
as it was written. -/
theorem net_lossless_iff (pf : Platform) (number : ℚ → Option ℚ) (spec : ViewSpec) (Row : Json → Prop) :
    (∀ deltas, (∀ d ∈ deltas, Row d.rowJson) → NetLossless (pf.serde number) spec deltas) ↔
      ∀ row, Row row → ∀ q ∈ row.numbers, number q = some q := by
  constructor
  · intro lossless row within
    have single : NetLossless (pf.serde number) spec [⟨.D, row⟩] := by
      apply lossless
      intro d member
      obtain rfl := List.mem_singleton.mp member
      exact within
    obtain ⟨row', read⟩ := single.taken _ (List.mem_singleton_self _)
    have emitted : ∃ e ∈ [Delta.mk .D row], e.rowJson = row' :=
      single.rows ⟨.D, row'⟩ (net_single read ▸ List.mem_singleton_self _)
    obtain ⟨e, member, same⟩ := emitted
    obtain rfl := List.mem_singleton.mp member
    exact (Json.renumber_self number row).mp (read.trans (congrArg some same.symm))
  · intro numbers deltas within
    exact netLossless_of_reads fun d member => (Json.renumber_self number d.rowJson).mpr (numbers d.rowJson (within d member))

/-- Integers of 64 bits are read as they are, so rows that have no other numbers lose nothing. -/
theorem netLossless_of_integers {number : ℚ → Option ℚ} (integers : ∀ z : ℤ, -(2 ^ 63) ≤ z → z < 2 ^ 64 → number z = some (z : ℚ))
    {deltas : List Delta} (fits : ∀ d ∈ deltas, ∀ q ∈ d.rowJson.numbers, ∃ z : ℤ, -(2 ^ 63) ≤ z ∧ z < 2 ^ 64 ∧ q = z) :
    NetLossless (pf.serde number) spec deltas := by
  apply netLossless_of_reads
  intro d member
  apply (Json.renumber_self number d.rowJson).mpr
  intro q inside
  obtain ⟨z, lower, upper, rfl⟩ := fits d member q inside
  exact integers z lower upper

/-- Two integers beyond 64 bits have 2^64 for their nearest double, which is printed as
18446744073709552000. -/
def roundedNumber (q : ℚ) : Option ℚ :=
  if q = 18446744073709551616 ∨ q = 18446744073709551617 then some 18446744073709552000 else some q

def groupRow (a : ℚ) : Json := .obj [("a", .num a), ("n", .num 1), ("total", .num 1), ("nabla_total_nn", .num 1)]

def wideDeltas : List Delta := [⟨.I, groupRow 18446744073709551616⟩, ⟨.I, groupRow 18446744073709551617⟩]

theorem wide_groups_conflated : net (Platform.serde .basic roundedNumber) totalsSpec wideDeltas = [⟨.I, groupRow 18446744073709552000⟩] ∧
    ¬ NetLossless (Platform.serde .basic roundedNumber) totalsSpec wideDeltas := by
  have first : roundedNumber 18446744073709551616 = some 18446744073709552000 := if_pos (.inl rfl)
  have second : roundedNumber 18446744073709551617 = some 18446744073709552000 := if_pos (.inr rfl)
  have one : roundedNumber 1 = some 1 := by
    apply if_neg
    norm_num
  have read {a : ℚ} (rounds : roundedNumber a = some 18446744073709552000) :
      (Platform.serde .basic roundedNumber).serdeParse (groupRow a) = some (groupRow 18446744073709552000) := by
    simp only [Platform.serde, Json.renumber, groupRow, Json.renumberFields, rounds, one, Option.map_some]
  have netted : net (Platform.serde .basic roundedNumber) totalsSpec wideDeltas = [⟨.I, groupRow 18446744073709552000⟩] := by
    simp only [net, wideDeltas, netStates, read first, read second, netEvent, if_true, List.flatMap_cons, List.flatMap_nil]
    rfl
  refine ⟨netted, fun lossless => ?_⟩
  have same := lossless.keys ⟨.I, groupRow 18446744073709551616⟩ List.mem_cons_self ⟨.I, groupRow 18446744073709551617⟩
    (List.mem_cons_of_mem _ List.mem_cons_self) _ _ (read first) (read second) rfl
  have keys : [Json.num 18446744073709551616] = [Json.num 18446744073709551617] := same
  norm_num at keys

end Nabla
