import Nabla.Netting
import Nabla.Transport
import Nabla.Lib.Copies

/-! What the deltas of executed operations say of the storage table: played on the rows
before they give the rows after, and their net effect patches a copy of what the view shows. -/
namespace Nabla
open Bags

variable {pf : Platform} {spec : ViewSpec}

def ViewSpec.jsonKey (spec : ViewSpec) (r : Record) : List Json := spec.identityOf r.toJsonb

/-- A row that its key identifies: no part of it is the JSON null, nor NULL in a projection. -/
def ViewSpec.Keyable (spec : ViewSpec) (r : Record) : Prop :=
  ∀ c ∈ identityColumns spec, r.get c ≠ .jsonNull ∧ (spec.shape = .projection → r.get c ≠ .null)

theorem Datum.toJsonb_inj {d e : Datum} {k : Kind} (typed : d.HasKind k) (typed' : e.HasKind k) (kept : d ≠ .jsonNull)
    (kept' : e ≠ .jsonNull) (same : d.toJsonb = e.toJsonb) : d = e := by
  have read := populateField_toJsonb typed kept
  rw [same, populateField_toJsonb typed' kept'] at read
  exact (Option.some.inj read).symm

theorem Record.field_get (r : Record) (name : String) : (r.toJsonb.field name).getD .null = (r.get name).toJsonb := by
  have found : r.toJsonb.field name = (r.lookup name).map Datum.toJsonb := by
    rw [Record.toJsonb, Json.field]
    induction r with
    | nil => rfl
    | cons p r ih =>
        obtain ⟨name', d⟩ := p
        rw [List.map_cons, List.lookup_cons, List.lookup_cons]
        cases name == name' with
        | true => rfl
        | false => exact ih
  rw [found, Record.get]
  cases r.lookup name <;> rfl

theorem ViewSpec.jsonKey_eq (spec : ViewSpec) (r : Record) :
    spec.jsonKey r = (identityColumns spec).map fun c => (r.get c).toJsonb := by
  rw [ViewSpec.jsonKey, ViewSpec.identityOf]
  exact List.map_congr_left fun c _ => r.field_get c

/-- Two rows of one table have the same type in each column. -/
theorem Record.Matches.kinds {cols : List (String × Kind)} {r r' : Record} (fits : r.Matches cols) (fits' : r'.Matches cols) (name : String) :
    ∃ k, (r.get name).HasKind k ∧ (r'.get name).HasKind k := by
  induction fits generalizing r' with
  | nil =>
      cases fits'
      exact ⟨.bool, trivial, trivial⟩
  | @cons c p cols r head _ ih =>
      cases fits' with
      | @cons _ p' _ r' head' tail' =>
          obtain ⟨column, k⟩ := c
          obtain ⟨_, d⟩ := p
          obtain ⟨_, d'⟩ := p'
          obtain ⟨rfl, typed⟩ := head
          obtain ⟨rfl, typed'⟩ := head'
          by_cases here : name = column
          · subst here
            refine ⟨k, ?_, ?_⟩
            · rw [Record.get, List.lookup_cons_self]
              exact typed
            · rw [Record.get, List.lookup_cons_self]
              exact typed'
          · obtain ⟨k', typed₁, typed₂⟩ := ih tail'
            have other : (name == column) = false := beq_false_of_ne here
            refine ⟨k', ?_, ?_⟩
            · rw [Record.get, List.lookup_cons, other]
              exact typed₁
            · rw [Record.get, List.lookup_cons, other]
              exact typed₂

theorem ViewSpec.jsonKey_iff {r r' : Record} (fits : r.Matches spec.tableColumns) (fits' : r'.Matches spec.tableColumns)
    (keyable : spec.Keyable r) (keyable' : spec.Keyable r') :
    spec.jsonKey r = spec.jsonKey r' ↔ ∀ c ∈ identityColumns spec, r.get c = r'.get c := by
  rw [spec.jsonKey_eq, spec.jsonKey_eq, List.map_inj_left]
  constructor
  · intro same c member
    obtain ⟨k, typed, typed'⟩ := fits.kinds fits' c
    exact Datum.toJsonb_inj typed typed' (keyable c member).1 (keyable' c member).1 (same c member)
  · intro same c member
    rw [same c member]

def ViewSpec.Counted (spec : ViewSpec) (r : Record) : Prop :=
  spec.shape = .aggregate → ∀ count, spec.countAlias = some count → ∃ q, r.get count = .num (.fin q) ∧ 0 < q

/-- What the indexes and the operations keep of a storage table. -/
structure ViewSpec.Held (spec : ViewSpec) (storage : List Record) : Prop where
  fits : ∀ r ∈ storage, r.Matches spec.tableColumns
  keyable : ∀ r ∈ storage, spec.Keyable r
  keyed : Keyed spec.jsonKey storage
  counted : ∀ r ∈ storage, spec.Counted r

/-- A contribution to a group has a `count(*)`. -/
def Op.Counts (spec : ViewSpec) : Op → Prop
  | .row _ rowJson => spec.shape = .aggregate → ∀ count, spec.countAlias = some count → ∀ r, populateRecord spec.tableColumns rowJson = some r →
      ∃ n, r.get count = .num n
  | .deleteByKey _ _ => True

def Op.HasKey (spec : ViewSpec) : Op → Prop
  | .row .plus rowJson => spec.shape = .projection → ∀ r, populateRecord spec.tableColumns rowJson = some r →
      ∀ c ∈ spec.pkViewColumns, r.get c ≠ .null
  | _ => True

/-- The deltas are the events that take one table to another, which is still one of the view's. -/
structure ViewSpec.Plays (spec : ViewSpec) (storage : List Record) (deltas : List Delta) (storage' : List Record) : Prop where
  events : ∃ events : List (Bags.Event Record), deltas = (events.map (Bags.Event.map Record.toJsonb)).map deltaOf ∧
    AllFit spec.jsonKey storage events ∧ (playAll spec.jsonKey storage events).Perm storage'
  held : spec.Held storage'

theorem ViewSpec.Held.perm {storage storage' : List Record} (held : spec.Held storage) (same : storage.Perm storage') : spec.Held storage' where
  fits := fun r member => held.fits r (same.mem_iff.mpr member)
  keyable := fun r member => held.keyable r (same.mem_iff.mpr member)
  keyed := held.keyed.perm same
  counted := fun r member => held.counted r (same.mem_iff.mpr member)

theorem ViewSpec.Held.filter {storage : List Record} (held : spec.Held storage) (p : Record → Bool) : spec.Held (storage.filter p) where
  fits := fun r member => held.fits r (List.mem_of_mem_filter member)
  keyable := fun r member => held.keyable r (List.mem_of_mem_filter member)
  keyed := held.keyed.filter p
  counted := fun r member => held.counted r (List.mem_of_mem_filter member)

theorem ViewSpec.Plays.nil {storage : List Record} (held : spec.Held storage) : spec.Plays storage [] storage :=
  ⟨⟨[], rfl, trivial, .refl _⟩, held⟩

theorem ViewSpec.Plays.trans {storage storage' storage'' : List Record} {first second : List Delta} (left : spec.Plays storage first storage')
    (right : spec.Plays storage' second storage'') : spec.Plays storage (first ++ second) storage'' := by
  obtain ⟨events, rfl, fits, same⟩ := left.events
  obtain ⟨events', rfl, fits', same'⟩ := right.events
  refine ⟨⟨events ++ events', ?_, fits.append (fits'.perm same.symm), ?_⟩, right.held⟩
  · rw [List.map_append, List.map_append]
  · rw [playAll_both]
    exact (playAll_perm same events').trans same'

theorem ViewSpec.Held.deletes {storage : List Record} (held : spec.Held storage) (hit : Record → Bool) :
    spec.Plays storage ((storage.filter hit).map fun v => ⟨.D, v.toJsonb⟩) (storage.filter fun v => !hit v) := by
  obtain ⟨fits, left⟩ := held.keyed.removals hit
  refine ⟨⟨(storage.filter hit).map .remove, ?_, fits, .of_eq left⟩, held.filter _⟩
  rw [List.map_map, List.map_map]
  rfl

/-- A row under a free key is inserted. -/
theorem ViewSpec.Held.inserts {storage : List Record} (held : spec.Held storage) {row : Record} (free : spec.jsonKey row ∉ storage.map spec.jsonKey)
    (fits : row.Matches spec.tableColumns) (keyable : spec.Keyable row) (counted : spec.Counted row) :
    spec.Plays storage [⟨.I, row.toJsonb⟩] (storage ++ [row]) := by
  refine ⟨⟨[.add row], rfl, ⟨free, trivial⟩, .refl _⟩, ?_⟩
  constructor
  · exact fun r member => (List.mem_append.mp member).elim (held.fits r) fun new => List.mem_singleton.mp new ▸ fits
  · exact fun r member => (List.mem_append.mp member).elim (held.keyable r) fun new => List.mem_singleton.mp new ▸ keyable
  · exact held.keyed.concat free
  · exact fun r member => (List.mem_append.mp member).elim (held.counted r) fun new => List.mem_singleton.mp new ▸ counted

theorem ViewSpec.Held.replaces {storage : List Record} (held : spec.Held storage) {row row' : Record} (member : row ∈ storage)
    (same : spec.jsonKey row' = spec.jsonKey row) (fits : row'.Matches spec.tableColumns) (keyable : spec.Keyable row') (counted : spec.Counted row') :
    spec.Plays storage [⟨.D, row.toJsonb⟩, ⟨.I, row'.toJsonb⟩] (storage.map fun r => if spec.jsonKey r = spec.jsonKey row then row' else r) := by
  obtain ⟨fit, played⟩ := held.keyed.replacement member same
  refine ⟨⟨[.remove row, .add row'], rfl, fit, played⟩, ?_⟩
  have among : ∀ r ∈ storage.map (fun r => if spec.jsonKey r = spec.jsonKey row then row' else r), r ∈ storage ∨ r = row' := by
    intro r within
    obtain ⟨r₀, inStorage, rfl⟩ := List.mem_map.mp within
    split
    · exact .inr rfl
    · exact .inl inStorage
  constructor
  · exact fun r within => (among r within).elim (held.fits r) fun new => new ▸ fits
  · exact fun r within => (among r within).elim (held.keyable r) fun new => new ▸ keyable
  · exact (fit.keyed held.keyed).perm played
  · exact fun r within => (among r within).elim (held.counted r) fun new => new ▸ counted

theorem ViewSpec.Held.sameKey_eq {storage : List Record} (held : spec.Held storage) (shape : spec.shape = .projection) {row : Record}
    (fits : row.Matches spec.tableColumns) (keyable : spec.Keyable row) {v : Record} (member : v ∈ storage) :
    sameKey spec v row = decide (spec.jsonKey v = spec.jsonKey row) := by
  have columns : identityColumns spec = spec.pkViewColumns := by rw [identityColumns, shape]
  have present : ∀ c ∈ spec.pkViewColumns, row.get c ≠ .null := fun c within => (keyable c (columns ▸ within)).2 shape
  rw [Nabla.sameKey_eq present, ViewSpec.viewKey, ViewSpec.viewKey]
  refine decide_eq_decide.mpr ?_
  rw [ViewSpec.jsonKey_iff (held.fits v member) fits (held.keyable v member) keyable, columns, List.map_inj_left]

theorem ViewSpec.Held.projectionRow {storage storage' : List Record} (held : spec.Held storage) (shape : spec.shape = .projection)
    {sign : Sign} {rowJson : Json} {deltas : List Delta} (keys : Op.HasKey spec (.row sign rowJson))
    (done : projectionRow spec sign rowJson storage = .ok (storage', deltas)) : spec.Plays storage deltas storage' := by
  unfold Nabla.projectionRow at done
  cases read : populateRecord spec.tableColumns rowJson with
  | none => simp only [read, reduceCtorEq] at done
  | some row =>
      obtain ⟨fits, kept⟩ := populateRecord_some read
      simp only [read] at done
      cases sign with
      | minus =>
          obtain ⟨rfl, rfl⟩ := Prod.mk.inj (Except.ok.inj done)
          exact held.deletes _
      | plus =>
          have keyable : spec.Keyable row := by
            intro c member
            refine ⟨Record.get_ne kept c, fun _ => keys shape row read c ?_⟩
            rwa [identityColumns, shape] at member
          by_cases taken : storage.any (sameKey spec · row) = true
          · simp only [taken, if_true, reduceCtorEq] at done
          · simp only [taken, if_false, Except.ok.injEq, Prod.mk.injEq, Bool.false_eq_true] at done
            obtain ⟨rfl, rfl⟩ := done
            refine held.inserts ?_ fits keyable fun aggregate _ _ => absurd (shape.symm.trans aggregate) Shape.noConfusion
            intro there
            obtain ⟨v, member, same⟩ := List.mem_map.mp there
            refine taken (List.any_eq_true.mpr ⟨v, member, ?_⟩)
            rw [held.sameKey_eq shape fits keyable member]
            exact decide_eq_true same

theorem Record.Matches.get_kind {cols : List (String × Kind)} {r : Record} (fits : r.Matches cols) (distinct : (cols.map Prod.fst).Nodup)
    {name : String} {k : Kind} (column : (name, k) ∈ cols) : (r.get name).HasKind k := by
  have names : (r.map Prod.fst).Nodup := fits.names ▸ distinct
  obtain ⟨p, member, rfl, typed⟩ := mem_of_forall₂ fits column
  rw [Record.get_of_mem names member]
  exact typed

theorem Datum.signed_kind (d : Datum) (sign : Sign) : (d.signed sign).HasKind .numeric := by
  cases d with
  | num n => exact rfl
  | _ => trivial

theorem Datum.add_kind (a b : Datum) : (a.add b).HasKind .numeric := by
  cases a with
  | num n =>
      cases b with
      | num m => exact rfl
      | _ => trivial
  | _ => trivial

theorem mergeSum_kind {v excluded : Datum} (typed : v.HasKind .numeric) (typed' : excluded.HasKind .numeric) (vnn exnn : Datum) :
    (mergeSum v excluded vnn exnn).HasKind .numeric := by
  unfold mergeSum
  split
  · trivial
  · split
    · exact typed
    · split
      · exact typed'
      · exact v.add_kind excluded

theorem filter_replaced {α : Type} {hit keep : α → Bool} {new : α} (gone : keep new = false) {rows : List α} (kept : ∀ r ∈ rows, keep r = true) :
    (rows.map fun r => if hit r = true then new else r).filter keep = rows.filter fun r => !hit r := by
  induction rows with
  | nil => rfl
  | cons r rows ih =>
      have rest := ih fun s member => kept s (List.mem_cons_of_mem r member)
      rw [List.map_cons]
      by_cases here : hit r = true
      · rw [if_pos here, List.filter_cons_of_neg (by rw [gone]; exact Bool.false_ne_true), rest,
          List.filter_cons_of_neg (by rw [here]; exact Bool.false_ne_true)]
      · rw [Bool.not_eq_true] at here
        rw [here, if_neg Bool.false_ne_true, List.filter_cons_of_pos (kept r List.mem_cons_self), rest,
          List.filter_cons_of_pos (by rw [here]; rfl)]

section Aggregate

variable {count : String} (view : spec.IsAggregate count)
include view

theorem ViewSpec.IsAggregate.identity : identityColumns spec = spec.columns.map OutputColumn.aliasName := by
  rw [identityColumns, view.shape]

theorem ViewSpec.IsAggregate.layout_matches {keys : List Datum} (typed : List.Forall₂ (fun o d => d.HasKind o.expr.kind) spec.columns keys)
    {n : Datum} {counts : OutputColumn → Datum} {sums : SumSpec → Datum × Datum} (number : n.HasKind .numeric)
    (counted : ∀ c ∈ spec.counts, (counts c).HasKind .numeric)
    (summed : ∀ su ∈ spec.sums, (sums su).1.HasKind .numeric ∧ (sums su).2.HasKind .numeric) :
    (spec.layout count keys n counts sums).Matches spec.tableColumns := by
  have front : List.Forall₂ (fun (c : String × Kind) (p : String × Datum) => c.1 = p.1 ∧ p.2.HasKind c.2)
      (spec.columns.map fun o => (o.aliasName, o.expr.kind)) ((spec.columns.map OutputColumn.aliasName).zip keys) := by
    generalize spec.columns = columns at typed
    induction typed with
    | nil => exact .nil
    | cons head _ ih => exact .cons ⟨rfl, head⟩ ih
  have back : List.Forall₂ (fun (c : String × Kind) (p : String × Datum) => c.1 = p.1 ∧ p.2.HasKind c.2)
      (spec.sums.flatMap fun su => [(su.aliasName, Kind.numeric), (su.counter, Kind.numeric)])
      (spec.sums.flatMap fun su => [(su.aliasName, (sums su).1), (su.counter, (sums su).2)]) := by
    generalize spec.sums = list at summed
    induction list with
    | nil => exact .nil
    | cons su list ih =>
        obtain ⟨first, second⟩ := summed su List.mem_cons_self
        exact .cons ⟨rfl, first⟩ (.cons ⟨rfl, second⟩ (ih fun s member => summed s (List.mem_cons_of_mem _ member)))
  rw [Record.Matches, view.tableColumns_eq]
  refine List.rel_append (List.rel_append front (.cons ⟨rfl, number⟩ ?_)) back
  rw [List.forall₂_map_left_iff, List.forall₂_map_right_iff]
  exact List.forall₂_same.mpr fun c member => ⟨rfl, counted c member⟩

omit view in
theorem ViewSpec.rowKeys_zip (r : Record) :
    (spec.columns.map OutputColumn.aliasName).zip (spec.rowKeys r) = spec.columns.map fun c => (c.aliasName, r.get c.aliasName) :=
  List.zip_map'

omit view in
theorem signedRow_eq (sign : Sign) (src : Record) : signedRow spec count sign src =
    spec.layout count (spec.rowKeys src) ((src.get count).signed sign) (fun c => (src.get c.aliasName).signed sign)
      fun su => ((src.get su.aliasName).signed sign, (src.get su.counter).signed sign) := by
  rw [signedRow, ViewSpec.layout, ViewSpec.rowKeys_zip]

omit view in
theorem mergeRow_eq (v excluded : Record) : mergeRow spec count v excluded =
    spec.layout count (spec.rowKeys v) ((v.get count).add (excluded.get count))
      (fun c => (v.get c.aliasName).add (excluded.get c.aliasName))
      fun su => (mergeSum (v.get su.aliasName) (excluded.get su.aliasName) (v.get su.counter) (excluded.get su.counter),
        (v.get su.counter).add (excluded.get su.counter)) := by
  rw [mergeRow, ViewSpec.layout, ViewSpec.rowKeys_zip]

omit view in
theorem ViewSpec.rowKeys_length (r : Record) : (spec.rowKeys r).length = spec.columns.length := List.length_map _

theorem ViewSpec.IsAggregate.keys_typed {r : Record} (fits : r.Matches spec.tableColumns) :
    List.Forall₂ (fun o d => d.HasKind o.expr.kind) spec.columns (spec.rowKeys r) := by
  rw [ViewSpec.rowKeys, List.forall₂_map_right_iff]
  refine List.forall₂_same.mpr fun o member => fits.get_kind view.distinct ?_
  rw [view.tableColumns_eq]
  exact List.mem_append_left _ (List.mem_append_left _ (List.mem_map_of_mem (f := fun o : OutputColumn => (o.aliasName, o.expr.kind)) member))

theorem ViewSpec.IsAggregate.sum_kind {r : Record} (fits : r.Matches spec.tableColumns) {su : SumSpec} (member : su ∈ spec.sums) :
    (r.get su.aliasName).HasKind .numeric := by
  refine fits.get_kind view.distinct ?_
  rw [view.tableColumns_eq]
  exact List.mem_append_right _ (List.mem_flatMap.mpr ⟨su, member, List.mem_cons_self⟩)

theorem ViewSpec.IsAggregate.signedRow_matches (sign : Sign) {src : Record} (fits : src.Matches spec.tableColumns) :
    (signedRow spec count sign src).Matches spec.tableColumns := by
  rw [signedRow_eq]
  exact view.layout_matches (view.keys_typed fits) (Datum.signed_kind _ _) (fun _ _ => Datum.signed_kind _ _)
    fun _ _ => ⟨Datum.signed_kind _ _, Datum.signed_kind _ _⟩

theorem ViewSpec.IsAggregate.mergeRow_matches {v excluded : Record} (fits : v.Matches spec.tableColumns)
    (fits' : excluded.Matches spec.tableColumns) : (mergeRow spec count v excluded).Matches spec.tableColumns := by
  rw [mergeRow_eq]
  exact view.layout_matches (view.keys_typed fits) (Datum.add_kind _ _) (fun _ _ => Datum.add_kind _ _)
    fun su member => ⟨mergeSum_kind (view.sum_kind fits member) (view.sum_kind fits' member) _ _, Datum.add_kind _ _⟩

theorem ViewSpec.IsAggregate.same_group {r r' : Record} (same : spec.rowKeys r = spec.rowKeys r') :
    spec.jsonKey r = spec.jsonKey r' ∧ (spec.Keyable r → spec.Keyable r') := by
  rw [ViewSpec.rowKeys, ViewSpec.rowKeys, List.map_inj_left] at same
  have equal : ∀ c ∈ identityColumns spec, r.get c = r'.get c := by
    intro c member
    rw [view.identity, List.mem_map] at member
    obtain ⟨o, within, rfl⟩ := member
    exact same o within
  constructor
  · rw [spec.jsonKey_eq, spec.jsonKey_eq]
    exact List.map_congr_left fun c member => congrArg Datum.toJsonb (equal c member)
  · exact fun keyable c member => equal c member ▸ keyable c member

theorem ViewSpec.IsAggregate.sameGroup_key {storage : List Record} (held : spec.Held storage) {src : Record} (fits : src.Matches spec.tableColumns)
    (keyable : spec.Keyable src) {v : Record} (member : v ∈ storage) :
    sameGroup spec v src = decide (spec.jsonKey v = spec.jsonKey src) := by
  rw [sameGroup_eq]
  refine decide_eq_decide.mpr ⟨fun same => (view.same_group same).1, fun same => ?_⟩
  have equal := (ViewSpec.jsonKey_iff (held.fits v member) fits (held.keyable v member) keyable).mp same
  rw [view.identity] at equal
  exact List.map_congr_left fun o within => equal o.aliasName (List.mem_map_of_mem within)

omit view in
theorem upsert_cases {row : Record} {m : Numeric} (number : row.get count = .num m) {upserted storage' : List Record} {removed deltas : List Delta}
    (done : (match row.get count with
      | .num (.fin newCount) =>
        if 0 < newCount then .ok (upserted, removed ++ [⟨.I, row.toJsonb⟩])
        else .ok (upserted.filter fun w => !countExhausted count w, removed)
      | .null => .ok (upserted, [])
      | _ => .error "bad count") = Except.ok (ε := String) (storage', deltas)) :
    ∃ q, row.get count = .num (.fin q) ∧ ((0 < q ∧ storage' = upserted ∧ deltas = removed ++ [⟨.I, row.toJsonb⟩]) ∨
      (countExhausted count row = true ∧ storage' = upserted.filter (fun w => !countExhausted count w) ∧ deltas = removed)) := by
  rw [number] at done ⊢
  cases m with
  | fin q =>
      refine ⟨q, rfl, ?_⟩
      by_cases some : 0 < q
      · simp only [some, if_true, Except.ok.injEq, Prod.mk.injEq] at done
        exact .inl ⟨some, done.1.symm, done.2.symm⟩
      · simp only [some, if_false, Except.ok.injEq, Prod.mk.injEq] at done
        refine .inr ⟨?_, done.1.symm, done.2.symm⟩
        rw [countExhausted, number]
        exact decide_eq_true (not_lt.mp some)
  | nan | posInf | negInf => simp only [reduceCtorEq] at done

theorem ViewSpec.IsAggregate.not_exhausted {storage : List Record} (held : spec.Held storage) : ∀ w ∈ storage, (!countExhausted count w) = true := by
  intro w member
  obtain ⟨q, number, some⟩ := held.counted w member view.shape count view.countAlias
  rw [countExhausted, number]
  simpa using some

theorem ViewSpec.IsAggregate.counted {row : Record} {q : ℚ} (number : row.get count = .num (.fin q)) (some : 0 < q) : spec.Counted row := by
  intro _ count' named
  obtain rfl := Option.some.inj (view.countAlias.symm.trans named)
  exact ⟨q, number, some⟩

/-- A group that was not there: its row comes in, unless its count is not positive. -/
theorem ViewSpec.IsAggregate.arrives_plays {storage storage' : List Record} (held : spec.Held storage) {row : Record}
    (free : spec.jsonKey row ∉ storage.map spec.jsonKey) (fits : row.Matches spec.tableColumns) (keyable : spec.Keyable row)
    {q : ℚ} (number : row.get count = .num (.fin q)) {deltas : List Delta}
    (outcome : (0 < q ∧ storage' = storage ++ [row] ∧ deltas = [⟨.I, row.toJsonb⟩]) ∨
      (countExhausted count row = true ∧ storage' = (storage ++ [row]).filter (fun w => !countExhausted count w) ∧ deltas = [])) :
    spec.Plays storage deltas storage' := by
  rcases outcome with ⟨some, rfl, rfl⟩ | ⟨exhausted, rfl, rfl⟩
  · exact held.inserts free fits keyable (view.counted number some)
  · have left : (storage ++ [row]).filter (fun w => !countExhausted count w) = storage := by
      rw [List.filter_append, List.filter_eq_self.mpr (view.not_exhausted held),
        List.filter_cons_of_neg (by rw [exhausted]; exact Bool.false_ne_true), List.filter_nil, List.append_nil]
    rw [left]
    exact .nil held

theorem ViewSpec.IsAggregate.merges_plays {storage storage' : List Record} (held : spec.Held storage) {v row : Record} (member : v ∈ storage)
    (keys : spec.rowKeys row = spec.rowKeys v) (fits : row.Matches spec.tableColumns) {hit : Record → Bool}
    (hits : ∀ w ∈ storage, hit w = decide (spec.jsonKey w = spec.jsonKey v)) {q : ℚ} (number : row.get count = .num (.fin q))
    {deltas : List Delta}
    (outcome : (0 < q ∧ storage' = (storage.map fun w => if hit w = true then row else w) ∧ deltas = [⟨.D, v.toJsonb⟩, ⟨.I, row.toJsonb⟩]) ∨
      (countExhausted count row = true ∧
        storage' = (storage.map fun w => if hit w = true then row else w).filter (fun w => !countExhausted count w) ∧ deltas = [⟨.D, v.toJsonb⟩])) :
    spec.Plays storage deltas storage' := by
  have same := view.same_group keys
  have keyable := (view.same_group keys.symm).2 (held.keyable v member)
  rcases outcome with ⟨some, rfl, rfl⟩ | ⟨exhausted, rfl, rfl⟩
  · have upserted : (storage.map fun w => if hit w = true then row else w) =
        storage.map fun w => if spec.jsonKey w = spec.jsonKey v then row else w := by
      refine List.map_congr_left fun w within => ?_
      rw [hits w within]
      simp only [decide_eq_true_eq]
    rw [upserted]
    exact held.replaces member same.1 fits keyable (view.counted number some)
  · have gone : (!countExhausted count row) = false := by rw [exhausted, Bool.not_true]
    rw [@filter_replaced _ hit (fun w => !countExhausted count w) row gone _ (view.not_exhausted held)]
    have only : storage.filter hit = [v] := by
      rw [List.filter_congr hits]
      exact held.keyed.group_of_mem member
    have deletes := held.deletes hit
    rwa [only] at deletes

theorem ViewSpec.IsAggregate.aggregateRow_plays {storage storage' : List Record} (held : spec.Held storage) {sign : Sign} {rowJson : Json}
    {deltas : List Delta} (counts : Op.Counts spec (.row sign rowJson))
    (done : aggregateRow spec sign rowJson storage = .ok (storage', deltas)) : spec.Plays storage deltas storage' := by
  unfold aggregateRow at done
  cases read : populateRecord spec.tableColumns rowJson with
  | none => simp only [view.countAlias, read, reduceCtorEq] at done
  | some src =>
      obtain ⟨fits, kept⟩ := populateRecord_some read
      obtain ⟨n, number⟩ := counts view.shape count view.countAlias src read
      have keyable : spec.Keyable src := fun c _ => ⟨Record.get_ne kept c, fun shape => absurd (view.shape.symm.trans shape) Shape.noConfusion⟩
      simp only [view.countAlias, read] at done
      generalize excludedEq : signedRow spec count sign src = excluded at done
      have excludedFits : excluded.Matches spec.tableColumns := excludedEq ▸ view.signedRow_matches sign fits
      have excludedKeys : spec.rowKeys excluded = spec.rowKeys src := by
        rw [← excludedEq, signedRow_eq]
        exact view.rowKeys_layout (ViewSpec.rowKeys_length src) _ _ _
      have excludedCount : excluded.get count = (Datum.num n).signed sign := by
        rw [← excludedEq, signedRow_eq, view.layout_count (ViewSpec.rowKeys_length src), number]
      have groups : storage.filter (sameGroup spec · src) = Bags.group spec.jsonKey (spec.jsonKey src) storage :=
        List.filter_congr fun v member => view.sameGroup_key held fits keyable member
      cases previous : Bags.group spec.jsonKey (spec.jsonKey src) storage with
      | nil =>
          simp only [groups, previous, List.map_nil] at done
          have same := view.same_group excludedKeys
          have free : spec.jsonKey excluded ∉ storage.map spec.jsonKey := by
            intro there
            obtain ⟨v, member, key⟩ := List.mem_map.mp there
            exact group_eq_nil.mp previous v member (key.trans same.1)
          obtain ⟨q, counted, outcome⟩ := upsert_cases excludedCount done
          exact view.arrives_plays held free excludedFits ((view.same_group excludedKeys.symm).2 keyable) counted outcome
      | cons v others =>
          obtain ⟨member, key⟩ := mem_group.mp (previous ▸ List.mem_cons_self : v ∈ Bags.group spec.jsonKey (spec.jsonKey src) storage)
          have single := held.keyed.group_of_mem member
          rw [key, previous] at single
          obtain rfl : others = [] := (List.cons.inj single).2
          simp only [groups, previous, List.map_cons, List.map_nil] at done
          have mergedFits := view.mergeRow_matches (held.fits v member) excludedFits
          have mergedKeys : spec.rowKeys (mergeRow spec count v excluded) = spec.rowKeys v := by
            rw [mergeRow_eq]
            exact view.rowKeys_layout (ViewSpec.rowKeys_length v) _ _ _
          have mergedCount : ∃ m, (mergeRow spec count v excluded).get count = .num m := by
            obtain ⟨q, number', _⟩ := held.counted v member view.shape count view.countAlias
            rw [mergeRow_eq, view.layout_count (ViewSpec.rowKeys_length v), number', excludedCount]
            exact ⟨_, rfl⟩
          obtain ⟨m, merge⟩ := mergedCount
          have hits : ∀ w ∈ storage, sameGroup spec w src = decide (spec.jsonKey w = spec.jsonKey v) := by
            intro w within
            rw [view.sameGroup_key held fits keyable within, key]
          obtain ⟨q, counted, outcome⟩ := upsert_cases merge done
          exact view.merges_plays held member mergedKeys mergedFits hits counted outcome

end Aggregate

theorem ViewSpec.Tabled.executeOp_plays (tabled : spec.Tabled) {storage storage' : List Record} (held : spec.Held storage) {op : Op}
    {deltas : List Delta} (counts : op.Counts spec) (keys : op.HasKey spec) (done : executeOp pf spec storage op = .ok (storage', deltas)) :
    spec.Plays storage deltas storage' := by
  cases op with
  | deleteByKey conds values =>
      obtain ⟨key, _, same⟩ := ok_of_map done
      obtain ⟨rfl, rfl⟩ := Prod.mk.inj same
      exact held.deletes _
  | row sign rowJson =>
      rw [executeOp] at done
      cases shape : spec.shape with
      | projection =>
          rw [shape] at done
          exact held.projectionRow shape keys done
      | aggregate =>
          rw [shape] at done
          exact (tabled.isAggregate shape).aggregateRow_plays held counts done

/-- Executed operations return the events that take the table to the one they leave. -/
theorem ViewSpec.Tabled.execute_plays (tabled : spec.Tabled) {ops : List Op} {storage storage' : List Record} (held : spec.Held storage)
    {deltas : List Delta} (counts : ∀ op ∈ ops, op.Counts spec) (keys : ∀ op ∈ ops, op.HasKey spec)
    (done : execute pf spec storage ops = .ok (storage', deltas)) : spec.Plays storage deltas storage' := by
  induction ops generalizing storage deltas with
  | nil =>
      obtain ⟨rfl, rfl⟩ := Prod.mk.inj (Except.ok.inj done)
      exact .nil held
  | cons op ops ih =>
      rw [execute] at done
      cases one : executeOp pf spec storage op with
      | error message => simp only [one, reduceCtorEq] at done
      | ok result =>
          obtain ⟨between, first⟩ := result
          simp only [one] at done
          obtain ⟨⟨last, more⟩, rest, same⟩ := ok_of_map done
          obtain ⟨rfl, rfl⟩ := Prod.mk.inj same
          have plays := tabled.executeOp_plays held (counts op List.mem_cons_self) (keys op List.mem_cons_self) one
          exact plays.trans (ih plays.held (fun o member => counts o (List.mem_cons_of_mem _ member))
            (fun o member => keys o (List.mem_cons_of_mem _ member)) rest)

def ViewSpec.shown (spec : ViewSpec) (storage : List Record) : List Json := storage.map fun r => visible spec r.toJsonb

def ViewSpec.shownEvent (spec : ViewSpec) (d : Delta) : Bags.Event Json := d.event.map (visible spec)

theorem ViewSpec.Plays.consistent {storage storage' : List Record} {deltas : List Delta} (plays : spec.Plays storage deltas storage')
    (held : spec.Held storage) : spec.Consistent (storage.map Record.toJsonb) deltas ∧
      (spec.played (storage.map Record.toJsonb) deltas).Perm (storage'.map Record.toJsonb) := by
  obtain ⟨events, rfl, fits, same⟩ := plays.events
  have back : ((events.map (Bags.Event.map Record.toJsonb)).map deltaOf).map Delta.event = events.map (Bags.Event.map Record.toJsonb) := by
    rw [List.map_map]
    exact (List.map_congr_left fun e _ => event_deltaOf e).trans (List.map_id _)
  refine ⟨⟨?_, ?_⟩, ?_⟩
  · rw [Keyed, List.map_map]
    exact held.keyed
  · rw [back]
    exact AllFit.map fits
  · rw [ViewSpec.played, back, ← playAll_map]
    exact same.map _

/-- The net deltas, applied to a copy of what the view shows, leave what it shows after. -/
theorem ViewSpec.Plays.patches {storage storage' : List Record} {deltas : List Delta} (plays : spec.Plays storage deltas storage')
    (held : spec.Held storage) (reads : ReadsBack pf deltas) :
    Patches (spec.shown storage) ((net pf spec deltas).map spec.shownEvent) (spec.shown storage') := by
  obtain ⟨⟨keyed, fits⟩, same⟩ := plays.consistent held
  have events : (net pf spec deltas).map spec.shownEvent =
      (netEvents spec.identityOf (visible spec) (deltas.map Delta.event)).map (Bags.Event.map (visible spec)) := by
    rw [net_events reads, List.map_map]
    refine List.map_congr_left fun e _ => ?_
    rw [Function.comp_apply, ViewSpec.shownEvent, event_deltaOf]
  have patches := @patches_net _ _ _ _ _ _ (visible spec) _ _ keyed fits
  rw [← events] at patches
  refine patches.perm (.of_eq ?_) ?_
  · rw [List.map_map]
    rfl
  · have shown := same.map (visible spec)
    rwa [List.map_map] at shown

/-- Executing operations on a table that a view holds: the deltas are consistent with the rows
before and lead to the rows after, the view holds these too, and a copy of what it showed
becomes one of what it shows when every row is read back as written. -/
theorem ViewSpec.Tabled.execute_patches (tabled : spec.Tabled) {ops : List Op} {storage storage' : List Record} (held : spec.Held storage)
    {deltas : List Delta} (counts : ∀ op ∈ ops, op.Counts spec) (keys : ∀ op ∈ ops, op.HasKey spec)
    (done : execute pf spec storage ops = .ok (storage', deltas)) :
    spec.Held storage' ∧ spec.Consistent (storage.map Record.toJsonb) deltas ∧
      (spec.played (storage.map Record.toJsonb) deltas).Perm (storage'.map Record.toJsonb) ∧
      (ReadsBack pf deltas → Patches (spec.shown storage) ((net pf spec deltas).map spec.shownEvent) (spec.shown storage')) := by
  have plays := tabled.execute_plays held counts keys done
  obtain ⟨consistent, same⟩ := plays.consistent held
  exact ⟨plays.held, consistent, same, plays.patches held⟩

def paperOrder (doc : Json) : Record := [("id", .text "o1"), ("customer", .text "c1"), ("doc", .jsonb doc)]

theorem paper_held : shopSpec.Held [paperOrder (.bool true)] := by
  refine ⟨?_, ?_, List.nodup_singleton _, fun r _ aggregate => absurd aggregate Shape.noConfusion⟩
  · intro r member
    obtain rfl := List.mem_singleton.mp member
    exact .cons ⟨rfl, rfl⟩ (.cons ⟨rfl, rfl⟩ (.cons ⟨rfl, rfl⟩ .nil))
  · intro r member
    obtain rfl := List.mem_singleton.mp member
    intro c key
    rcases List.mem_cons.mp key with rfl | key
    · exact ⟨Datum.noConfusion, fun _ => Datum.noConfusion⟩
    · obtain rfl := List.mem_singleton.mp key
      exact ⟨Datum.noConfusion, fun _ => Datum.noConfusion⟩

def sumsRow (a n nn : ℚ) (total : Datum) : Record := [("a", .num (.fin a)), ("n", .num (.fin n)), ("total", total), ("nabla_total_nn", .num (.fin nn))]

theorem sums_held : totalsSpec.Held [sumsRow 1 2 1 (.num (.fin 5))] := by
  refine ⟨?_, ?_, List.nodup_singleton _, ?_⟩
  · intro r member
    obtain rfl := List.mem_singleton.mp member
    exact .cons ⟨rfl, rfl⟩ (.cons ⟨rfl, rfl⟩ (.cons ⟨rfl, rfl⟩ (.cons ⟨rfl, rfl⟩ .nil)))
  · intro r member
    obtain rfl := List.mem_singleton.mp member
    intro c key
    obtain rfl := List.mem_singleton.mp key
    exact ⟨Datum.noConfusion, fun projection => absurd projection Shape.noConfusion⟩
  · intro r member _ count counted
    obtain rfl := List.mem_singleton.mp member
    obtain rfl := Option.some.inj counted
    exact ⟨2, rfl, two_pos⟩

theorem sums_counts (sign : Sign) (a n nn : ℚ) (total : ℚ) : (Op.row sign (sumsRow a n nn (.num (.fin total))).toJsonb).Counts totalsSpec := by
  intro _ count counted r read
  obtain rfl := Option.some.inj counted
  obtain rfl : sumsRow a n nn (.num (.fin total)) = r := Option.some.inj read
  exact ⟨.fin n, rfl⟩

/-- The document of an order changes; of a group of two rows the one with an argument leaves,
and the first row of another group comes. -/
theorem paper_patches :
    (∃ storage' deltas, execute .basic shopSpec [paperOrder (.bool true)]
        [.row .minus (paperOrder (.bool true)).toJsonb, .row .plus (paperOrder (.bool false)).toJsonb] = .ok (storage', deltas) ∧
      shopSpec.Held storage' ∧ Patches (shopSpec.shown [paperOrder (.bool true)]) ((net .basic shopSpec deltas).map shopSpec.shownEvent)
        (shopSpec.shown storage')) ∧
    ∃ deltas, execute .basic totalsSpec [sumsRow 1 2 1 (.num (.fin 5))]
        [.row .minus (sumsRow 1 1 1 (.num (.fin 5))).toJsonb, .row .plus (sumsRow 2 1 1 (.num (.fin 3))).toJsonb] =
          .ok ([sumsRow 1 1 0 .null, sumsRow 2 1 1 (.num (.fin 3))], deltas) ∧
      Patches (totalsSpec.shown [sumsRow 1 2 1 (.num (.fin 5))]) ((net .basic totalsSpec deltas).map totalsSpec.shownEvent)
        (totalsSpec.shown [sumsRow 1 1 0 .null, sumsRow 2 1 1 (.num (.fin 3))]) := by
  constructor
  · have tabled : shopSpec.Tabled := ⟨by decide, fun aggregate => absurd aggregate Shape.noConfusion⟩
    have done : execute .basic shopSpec [paperOrder (.bool true)]
        [.row .minus (paperOrder (.bool true)).toJsonb, .row .plus (paperOrder (.bool false)).toJsonb] =
          .ok ([paperOrder (.bool false)], [⟨.D, (paperOrder (.bool true)).toJsonb⟩, ⟨.I, (paperOrder (.bool false)).toJsonb⟩]) := rfl
    have patched := tabled.execute_patches paper_held ?_ ?_ done
    · exact ⟨_, _, done, patched.1, patched.2.2.2 fun d _ => rfl⟩
    · intro op member
      rcases List.mem_cons.mp member with rfl | member
      · exact fun aggregate => absurd aggregate Shape.noConfusion
      · obtain rfl := List.mem_singleton.mp member
        exact fun aggregate => absurd aggregate Shape.noConfusion
    · intro op member
      rcases List.mem_cons.mp member with rfl | member
      · trivial
      · obtain rfl := List.mem_singleton.mp member
        intro _ r read c key
        obtain rfl : paperOrder (.bool false) = r := Option.some.inj read
        rcases List.mem_cons.mp key with rfl | key
        · exact Datum.noConfusion
        · obtain rfl := List.mem_singleton.mp key
          exact Datum.noConfusion
  · have tabled : totalsSpec.Tabled := ⟨by decide, fun _ => rfl⟩
    have done : execute .basic totalsSpec [sumsRow 1 2 1 (.num (.fin 5))]
        [.row .minus (sumsRow 1 1 1 (.num (.fin 5))).toJsonb, .row .plus (sumsRow 2 1 1 (.num (.fin 3))).toJsonb] =
          .ok ([sumsRow 1 1 0 .null, sumsRow 2 1 1 (.num (.fin 3))],
            [⟨.D, (sumsRow 1 2 1 (.num (.fin 5))).toJsonb⟩, ⟨.I, (sumsRow 1 1 0 .null).toJsonb⟩, ⟨.I, (sumsRow 2 1 1 (.num (.fin 3))).toJsonb⟩]) := by
      decide +kernel
    have patched := tabled.execute_patches sums_held ?_ ?_ done
    · exact ⟨_, done, patched.2.2.2 fun d _ => rfl⟩
    · intro op member
      rcases List.mem_cons.mp member with rfl | member
      · exact sums_counts .minus 1 1 1 5
      · obtain rfl := List.mem_singleton.mp member
        exact sums_counts .plus 2 1 1 3
    · intro op member
      rcases List.mem_cons.mp member with rfl | member
      · trivial
      · obtain rfl := List.mem_singleton.mp member
        exact fun projection => absurd projection Shape.noConfusion

end Nabla
