import Nabla.Planning

/-! One source transaction of a round. While phase 1 goes through the changes, every
shadow that absorbs them mirrors the tables as they stand, and the rows planned for a
join view so far bring its storage table to its query over them. -/
namespace Nabla
open Bags

variable {pf : Platform} {S : Schema pf}

/-- The shadow has yet to absorb the transaction that ends at `e`. -/
def ShadowRow.Active (e : Nat) (s : ShadowRow) : Prop := s.failed = false ∧ s.frontier < e

theorem activeShadow_some {shadows : List ShadowRow} {relid e : Nat} {s : ShadowRow}
    (found : activeShadow shadows relid e = some s) : s ∈ shadows ∧ s.relid = relid ∧ s.Active e := by
  obtain ⟨first, active⟩ := Option.filter_eq_some_iff.mp found
  rw [Bool.and_eq_true, Bool.not_eq_true', decide_eq_true_eq] at active
  have here := List.find?_some first
  rw [decide_eq_true_eq] at here
  exact ⟨List.mem_of_find?_eq_some first, here, active⟩

theorem find_relid {shadows : List ShadowRow} (keyed : Keyed ShadowRow.relid shadows) {s : ShadowRow}
    (member : s ∈ shadows) : shadows.find? (·.relid = s.relid) = some s := keyed.find_of_mem member

theorem activeShadow_of_mem {shadows : List ShadowRow} (keyed : Keyed ShadowRow.relid shadows) {s : ShadowRow}
    (member : s ∈ shadows) {e : Nat} (active : s.Active e) : activeShadow shadows s.relid e = some s := by
  rw [activeShadow, find_relid keyed member, Option.filter_eq_some_iff]
  refine ⟨rfl, ?_⟩
  rw [Bool.and_eq_true, Bool.not_eq_true', decide_eq_true_eq]
  exact active

theorem activeShadow_none {shadows : List ShadowRow} (keyed : Keyed ShadowRow.relid shadows) {relid e : Nat}
    (missing : activeShadow shadows relid e = none) {s : ShadowRow} (member : s ∈ shadows)
    (here : s.relid = relid) : ¬ s.Active e := by
  intro active
  subst here
  rw [activeShadow_of_mem keyed member active] at missing
  exact Option.some_ne_none s missing

/-- The columns of each shadow that are settled at a frontier, and what else is kept of
its rows while it absorbs changes that are permitted. -/
structure Tracking (S : Schema pf) where
  cols : (relid frontier : Nat) → List String
  Extra : (relid frontier : Nat) → (rows base : List BaseRow) → Prop
  Permits : (relid frontier : Nat) → RowChange → Change → Prop
  absorbs : ∀ {s : ShadowRow} {db : Database} {rc : RowChange} {change : Change} {rows' : List BaseRow},
    s.Fits S → S.DatabaseOk db → Mirrors S (cols s.relid s.frontier) s s.rows (db s.relid) → S.Valid db rc →
    (∀ relids, rc ≠ .truncate relids) → Encodes S rc change → Permits s.relid s.frontier rc change →
    Absorbs S s (cols s.relid s.frontier) s.rows rc change rows' →
    Extra s.relid s.frontier s.rows (db s.relid) → Extra s.relid s.frontier rows' (S.step db rc s.relid)

/-- The shadow's rows are those of the base table. -/
structure Tracking.Follows (K : Tracking S) (s : ShadowRow) (base : List BaseRow) : Prop where
  mirrors : Mirrors S (K.cols s.relid s.frontier) s s.rows base
  extra : K.Extra s.relid s.frontier s.rows base

/-- Active shadows of tables in `good` follow them. -/
structure Tracking.Shadows (K : Tracking S) (e : Nat) (good : Nat → Prop) (db : Database)
    (shadows : List ShadowRow) : Prop where
  keyed : Keyed ShadowRow.relid shadows
  fits : ∀ s ∈ shadows, s.Fits S
  follows : ∀ s ∈ shadows, s.Active e → good s.relid → K.Follows s (db s.relid)

/-- A join view that is about to absorb the transaction that ends at `e`. -/
structure LiveView.Owes (e : Nat) (v : LiveView) : Prop where
  join : v.row.spec.isJoin = true
  alive : v.dead = false
  fresh : v.stale = none
  sound : v.failed = none
  behind : v.frontier < e

/-- Every shadow the view reads absorbs the transaction with it. -/
def LiveView.Fresh (K : Tracking S) (e : Nat) (shadows : List ShadowRow) (v : LiveView) : Prop :=
  ∀ b ∈ v.row.spec.relations,
    ∃ s ∈ shadows, s.relid = b.oid ∧ s.Active e ∧ b.usedColumns ⊆ K.cols b.oid s.frontier

/-- What a source transaction does to the base tables. -/
structure Footprint where
  touches : Nat → Prop
  inserts : Nat → Prop

/-- The transaction inserts nothing into the view's tables, and changes none whose
shadow has yet to absorb it. -/
def LiveView.Behind (e : Nat) (footprint : Footprint) (shadows : List ShadowRow) (v : LiveView) : Prop :=
  ∀ b ∈ v.row.spec.relations, ¬ footprint.inserts b.oid ∧
    (footprint.touches b.oid → ∀ s ∈ shadows, s.relid = b.oid → ¬ s.Active e)

/-- Executing the rows planned so far gives the view's query over `db`. -/
def LiveView.Pending (pf : Platform) (db : Database) (v : LiveView) : Prop :=
  ∃ storage deltas, execute pf v.row.spec v.row.storage v.ops = .ok (storage, deltas) ∧
    storage.Perm (v.row.spec.output (v.row.spec.contents (v.row.spec.tablesOf db)))

/-- The shadow of a base table shows it at every change of the transaction: it absorbs the
transaction with the view, or it has gone on and the transaction leaves the table as the
shadow holds it. -/
def BaseRelation.Shown (K : Tracking S) (e : Nat) (footprint : Footprint) (db : Database) (shadows : List ShadowRow)
    (b : BaseRelation) : Prop :=
  ∃ s ∈ shadows, s.relid = b.oid ∧ ((s.Active e ∧ b.usedColumns ⊆ K.cols b.oid s.frontier) ∨
    (¬ s.Active e ∧ ¬ footprint.touches b.oid ∧
      (s.rows.map (narrowRow b.usedColumns)).Perm ((db b.oid).map (narrowRow b.usedColumns))))

/-- Of the view's tables the transaction touches at most this one, whose shadow has gone on. -/
def LiveView.Alone (e : Nat) (footprint : Footprint) (shadows : List ShadowRow) (v : LiveView) (b : BaseRelation) : Prop :=
  (∀ s ∈ shadows, s.relid = b.oid → ¬ s.Active e) ∧ ∀ c ∈ v.row.spec.relations, footprint.touches c.oid → c.oid = b.oid

/-- The shadows show the view's tables as far as the transaction's rows are joined with them. -/
def LiveView.Placed (K : Tracking S) (e : Nat) (footprint : Footprint) (db : Database) (shadows : List ShadowRow)
    (v : LiveView) : Prop :=
  ∀ b ∈ v.row.spec.relations, b.Shown K e footprint db shadows ∨ v.Alone e footprint shadows b

theorem LiveView.Fresh.placed {K : Tracking S} {e : Nat} {footprint : Footprint} {db : Database} {shadows : List ShadowRow}
    {v : LiveView} (fresh : v.Fresh K e shadows) : v.Placed K e footprint db shadows := by
  intro b member
  obtain ⟨s, inShadows, here, active, used⟩ := fresh b member
  exact Or.inl ⟨s, inShadows, here, Or.inl ⟨active, used⟩⟩

theorem LiveView.Placed.congr {K : Tracking S} {e : Nat} {footprint : Footprint} {db db' : Database}
    {shadows : List ShadowRow} {v : LiveView} (placed : v.Placed K e footprint db shadows)
    (same : ∀ b ∈ v.row.spec.relations, ¬ footprint.touches b.oid → db' b.oid = db b.oid) :
    v.Placed K e footprint db' shadows := by
  intro b member
  refine (placed b member).imp_left fun ⟨s, inShadows, here, shows⟩ => ⟨s, inShadows, here, shows.imp_right ?_⟩
  rintro ⟨idle, untouched, rows⟩
  exact ⟨idle, untouched, by rwa [same b member untouched]⟩

structure Tracking.View (K : Tracking S) (e : Nat) (good : Nat → Prop) (footprint : Footprint) (db : Database)
    (shadows : List ShadowRow) (v : LiveView) : Prop where
  fits : v.row.spec.Fits S
  intact : ∀ b ∈ v.row.spec.relations, good b.oid
  reads : v.Placed K e footprint db shadows ∨ v.Behind e footprint shadows
  pending : v.Pending pf db

/-- No row of the view's query holds what `jsonb` does not carry, and its sums are exact. -/
def ViewSpec.Carried (spec : ViewSpec) (db : Database) : Prop :=
  ∀ ρ ∈ spec.contents (spec.tablesOf db), spec.Carries ρ ∧ spec.ExactSums ρ

theorem ViewSpec.Fits.storableAll {spec : ViewSpec} (fits : spec.Fits S) {db : Database} (ok : S.DatabaseOk db)
    (carried : spec.Carried db) : ∀ ρ ∈ spec.contents (spec.tablesOf db), spec.Storable ρ :=
  fun ρ member => fits.storable ok member (carried ρ member).1 (carried ρ member).2

/-- The rows planned for one more change bring the view to the next tables. -/
theorem LiveView.Pending.next {v : LiveView} {db db' : Database} (pending : v.Pending pf db)
    (fits : v.row.spec.Fits S) (ok : S.DatabaseOk db) (ok' : S.DatabaseOk db') (carried : v.row.spec.Carried db)
    (carried' : v.row.spec.Carried db') {ops : List Op}
    (delta : RowDelta v.row.spec (v.row.spec.contents (v.row.spec.tablesOf db))
      (v.row.spec.contents (v.row.spec.tablesOf db')) ops) :
    LiveView.Pending pf db' { v with ops := v.ops ++ ops } := by
  obtain ⟨storage, deltas, executed, stored⟩ := pending
  obtain ⟨storage', more, added, stored'⟩ := delta.execute pf fits.tabled (fits.unique ok) (fits.unique ok')
    (fits.storableAll ok carried) (fits.storableAll ok' carried') stored
  refine ⟨storage', deltas ++ more, ?_, stored'⟩
  simp only [execute_append, executed, added, Except.map]

theorem ViewSpec.contents_other {spec : ViewSpec} {relid : Nat} (unused : spec.relationIndex relid = none)
    {db db' : Database} (others : ∀ r, r ≠ relid → db' r = db r) :
    spec.contents (spec.tablesOf db') = spec.contents (spec.tablesOf db) := by
  have same : spec.tablesOf db' = spec.tablesOf db := by
    apply List.map_congr_left
    intro b member
    exact others b.oid (ViewSpec.relationIndex_none unused member)
  rw [same]

theorem LiveView.Pending.other {v : LiveView} {relid : Nat} (unused : v.row.spec.relationIndex relid = none)
    {db db' : Database} (others : ∀ r, r ≠ relid → db' r = db r) (pending : v.Pending pf db) :
    v.Pending pf db' := by
  obtain ⟨storage, deltas, executed, stored⟩ := pending
  exact ⟨storage, deltas, executed, by rwa [ViewSpec.contents_other unused others]⟩

theorem Schema.step_other (S : Schema pf) (db : Database) {rc : RowChange} {relid r : Nat}
    (relids : rc.relids = [relid]) (kind : ∀ relids, rc ≠ .truncate relids) (other : r ≠ relid) :
    S.step db rc r = db r := by
  cases rc with
  | insert relid' new | delete relid' old | update relid' old new =>
      obtain rfl : relid' = relid := (List.cons.inj relids).1
      exact Database.set_other db _ other
  | truncate _ => exact absurd rfl (kind _)

/-- A changed row of a view's table is joined with the other tables as they stand. -/
theorem LiveView.Placed.sees {K : Tracking S} {e : Nat} {good : Nat → Prop} {footprint : Footprint} {db : Database}
    {shadows : List ShadowRow} (tracked : K.Shadows e good db shadows) {v : LiveView}
    (intact : ∀ b ∈ v.row.spec.relations, good b.oid) (placed : v.Placed K e footprint db shadows) {b : BaseRelation}
    (reads : b ∈ v.row.spec.relations) (touched : footprint.touches b.oid) :
    v.row.spec.Sees b.oid (shadowTable shadows) db := by
  intro c member other
  rcases placed c member with ⟨s, inShadows, oid, shows⟩ | alone
  · refine ⟨s.rows, ?_, ?_⟩
    · rw [shadowTable, ← oid, find_relid tracked.keyed inShadows, Option.map_some]
    · rcases shows with ⟨active, used⟩ | ⟨_, _, rows⟩
      · have mirrors := (tracked.follows s inShadows active (oid ▸ intact c member)).1
        rw [oid] at mirrors
        have narrowed := mirrors.rows.map (narrowRow c.usedColumns)
        rw [List.map_map, List.map_map] at narrowed
        have compose : narrowRow c.usedColumns ∘ narrowRow (K.cols c.oid s.frontier) = narrowRow c.usedColumns := by
          funext row
          exact narrowRow_narrowRow used row
        rwa [compose] at narrowed
      · exact rows
  · exact absurd (alone.2 b reads touched).symm other

structure LiveView.Kept (e : Nat) (v v' : LiveView) : Prop where
  same : v' = { v with ops := v'.ops, stale := v'.stale, failed := v'.failed }
  stale : v'.stale = none → v.stale = none
  failed : v'.failed = none → v.failed = none
  idle : v.dead = true ∨ e ≤ v.frontier → v'.ops = v.ops ∧ v'.failed = v.failed

theorem LiveView.Kept.refl (e : Nat) (v : LiveView) : v.Kept e v := ⟨rfl, id, id, fun _ => ⟨rfl, rfl⟩⟩

theorem LiveView.Kept.row {e : Nat} {v v' : LiveView} (kept : v.Kept e v') : v'.row = v.row := by
  rw [kept.same]

theorem LiveView.Kept.frontier {e : Nat} {v v' : LiveView} (kept : v.Kept e v') : v'.frontier = v.frontier := by
  rw [kept.same]

theorem LiveView.Kept.dead {e : Nat} {v v' : LiveView} (kept : v.Kept e v') : v'.dead = v.dead := by
  rw [kept.same]

theorem LiveView.Kept.trans {e : Nat} {v v' v'' : LiveView} (first : v.Kept e v') (second : v'.Kept e v'') :
    v.Kept e v'' where
  same := by
    rw [second.same, first.same]
  stale := first.stale ∘ second.stale
  failed := first.failed ∘ second.failed
  idle := by
    intro idle
    have before := first.idle idle
    have after := second.idle (by rwa [first.dead, first.frontier])
    exact ⟨after.1.trans before.1, after.2.trans before.2⟩

theorem LiveView.Kept.owes {e : Nat} {v v' : LiveView} (kept : v.Kept e v') (owes : v'.Owes e) : v.Owes e where
  join := kept.row ▸ owes.join
  alive := kept.dead ▸ owes.alive
  fresh := kept.stale owes.fresh
  sound := kept.failed owes.sound
  behind := kept.frontier ▸ owes.behind

theorem LiveView.activeFor_eq {v : LiveView} {e : Nat} (owes : v.Owes e) (relid : Nat) :
    v.activeFor relid e = (v.row.spec.relationIndex relid).isSome := by
  simp only [LiveView.activeFor, owes.sound, owes.fresh, Option.isNone_none, owes.behind, decide_true, Bool.and_self,
    Bool.true_and]

section PlanView

variable {faults : Faults} {e position relid : Nat} {shadowTables : Nat → Option (List BaseRow)} {rel : Relation}
  {change : Change} {oldFull : Except String (Option Tuple)} {v : LiveView}

theorem planView_kept (pf : Platform) (faults : Faults) (e position relid : Nat)
    (shadowTables : Nat → Option (List BaseRow)) (rel : Relation) (change : Change)
    (oldFull : Except String (Option Tuple)) (v : LiveView) :
    v.Kept e (planView pf faults e position relid shadowTables rel change oldFull v) := by
  unfold planView
  by_cases skipped : (v.dead || !v.activeFor relid e) = true
  · rw [if_pos skipped]
    exact LiveView.Kept.refl e v
  · rw [if_neg skipped]
    rw [Bool.not_eq_true, Bool.or_eq_false_iff, Bool.not_eq_false', LiveView.activeFor] at skipped
    simp only [Bool.and_eq_true, Option.isNone_iff_eq_none, decide_eq_true_eq] at skipped
    obtain ⟨alive, ⟨⟨sound, fresh⟩, behind⟩, _⟩ := skipped
    have busy : ¬ (v.dead = true ∨ e ≤ v.frontier) := by
      rintro (dead | ahead)
      · rw [alive] at dead
        exact Bool.false_ne_true dead
      · omega
    split
    · exact ⟨rfl, fun _ => fresh, fun _ => sound, fun idle => absurd idle busy⟩
    · split
      · exact ⟨rfl, fun _ => fresh, fun _ => sound, fun idle => absurd idle busy⟩
      · exact ⟨rfl, fun _ => fresh, fun _ => sound, fun idle => absurd idle busy⟩
      · exact ⟨rfl, fun _ => fresh, fun _ => sound, fun idle => absurd idle busy⟩

theorem planView_ahead (ahead : e ≤ v.frontier) :
    planView pf faults e position relid shadowTables rel change oldFull v = v := by
  simp only [planView, LiveView.activeFor, decide_eq_false (Nat.not_lt.mpr ahead), Bool.and_false, Bool.false_and,
    Bool.not_false, Bool.or_true, if_true]

theorem planView_other (owes : v.Owes e) (unused : v.row.spec.relationIndex relid = none) :
    planView pf faults e position relid shadowTables rel change oldFull v = v := by
  simp only [planView, owes.alive, LiveView.activeFor_eq owes, unused, Option.isSome_none, Bool.not_false,
    Bool.or_true, if_true]

/-- A view that is active for the relation plans the change, in its own subtransaction. -/
theorem planView_active (active : (v.dead || !v.activeFor relid e) = false) (old : Option Tuple) :
    planView pf faults e position relid shadowTables rel change (.ok old) v =
      match inSubtransaction (faults.plan v.row.id e position relid) (planChange pf shadowTables v rel change old) with
      | .ok (.ops ops) => { v with ops := v.ops ++ ops }
      | .ok (.stale reason) => { v with stale := some reason }
      | .error message => { v with failed := some message } := by
  cases outcome : inSubtransaction (faults.plan v.row.id e position relid) (planChange pf shadowTables v rel change old) with
  | error message =>
      simp only [planView, active, Bool.false_eq_true, if_false, Except.toOption, Option.getD_some, outcome]
  | ok planned =>
      cases planned with
      | ops ops => simp only [planView, active, Bool.false_eq_true, if_false, Except.toOption, Option.getD_some, outcome]
      | stale reason => simp only [planView, active, Bool.false_eq_true, if_false, Except.toOption, Option.getD_some, outcome]

theorem planView_unread (owes : v.Owes e) {i : Nat} (index : v.row.spec.relationIndex relid = some i)
    (message : String) :
    ¬ (planView pf faults e position relid shadowTables rel change (.error message) v).Owes e := by
  intro after
  have active : (v.dead || !v.activeFor relid e) = false := by
    rw [owes.alive, LiveView.activeFor_eq owes, index, Option.isSome_some, Bool.not_true, Bool.or_false]
  simp only [planView, active, Bool.false_eq_true, if_false, owes.join] at after
  exact Option.some_ne_none _ after.fresh

theorem planView_read (owes : v.Owes e) {i : Nat} (index : v.row.spec.relationIndex relid = some i)
    (old : Option Tuple) :
    planView pf faults e position relid shadowTables rel change (.ok old) v =
      match inSubtransaction (faults.plan v.row.id e position relid)
          (planJoinChange pf shadowTables v rel change old) with
      | .ok (.ops ops) => { v with ops := v.ops ++ ops }
      | .ok (.stale reason) => { v with stale := some reason }
      | .error message => { v with failed := some message } := by
  have active : (v.dead || !v.activeFor relid e) = false := by
    rw [owes.alive, LiveView.activeFor_eq owes, index, Option.isSome_some, Bool.not_true, Bool.or_false]
  have planned : planChange pf shadowTables v rel change old = planJoinChange pf shadowTables v rel change old := if_pos owes.join
  rw [← planned]
  exact planView_active active old

/-- A planned change that leaves the view without a failure added the planned rows. -/
theorem planView_planned (owes : v.Owes e) {i : Nat} (index : v.row.spec.relationIndex relid = some i)
    {old : Option Tuple}
    (after : (planView pf faults e position relid shadowTables rel change (.ok old) v).Owes e) :
    ∃ ops, planJoinChange pf shadowTables v rel change old = .ok (.ops ops) ∧
      planView pf faults e position relid shadowTables rel change (.ok old) v = { v with ops := v.ops ++ ops } := by
  rw [planView_read owes index] at after ⊢
  cases planned : inSubtransaction (faults.plan v.row.id e position relid)
      (planJoinChange pf shadowTables v rel change old) with
  | error message =>
      rw [planned] at after
      exact absurd after.sound (Option.some_ne_none _)
  | ok result =>
      rw [planned] at after
      cases result with
      | stale reason => exact absurd after.fresh (Option.some_ne_none _)
      | ops ops => exact ⟨ops, inSubtransaction_ok planned, rfl⟩

end PlanView

/-- What phase 1 hands to the views about the old row of a change. -/
structure Tracking.Read (K : Tracking S) (e : Nat) (good : Nat → Prop) (shadows : List ShadowRow) (relid : Nat)
    (rc : RowChange) (oldFull : Except String (Option Tuple)) : Prop where
  active : ∀ s, activeShadow shadows relid e = some s → good relid →
    (∃ message, oldFull = .error message) ∨
      ∃ old, oldFull = .ok old ∧ OldRead S s (K.cols relid s.frontier) rc old
  inactive : activeShadow shadows relid e = none → oldFull = .ok none

section Next

variable {K : Tracking S} {e : Nat} {good : Nat → Prop} {footprint : Footprint} {db : Database}
  {shadows : List ShadowRow} {v : LiveView}

theorem LiveView.Fresh.found (fresh : v.Fresh K e shadows) (keyed : Keyed ShadowRow.relid shadows)
    {relid i : Nat} (index : v.row.spec.relationIndex relid = some i) :
    ∃ s, activeShadow shadows relid e = some s := by
  obtain ⟨b, at_i, oid⟩ := ViewSpec.relationIndex_some index
  obtain ⟨s, inShadows, here, active, _⟩ := fresh b (List.mem_of_getElem? at_i)
  rw [oid] at here
  subst here
  exact ⟨s, activeShadow_of_mem keyed inShadows active⟩

theorem Tracking.View.planRead (view : K.View e good footprint db shadows v) (tracked : K.Shadows e good db shadows)
    (placed : v.Placed K e footprint db shadows) {rc : RowChange} (valid : S.Valid db rc)
    (kind : ∀ relids, rc ≠ .truncate relids) {change : Change} (encodes : Encodes S rc change) {relid i : Nat}
    (index : v.row.spec.relationIndex relid = some i) (touched : footprint.touches relid) {s : ShadowRow}
    (found : activeShadow shadows relid e = some s) {old : Option Tuple}
    (read : OldRead S s (K.cols relid s.frontier) rc old) :
    ∃ ops, planJoinChange pf (shadowTable shadows) v (S.relation relid) change old = .ok (.ops ops) ∧
      JoinDelta v.row.spec db rc ops := by
  obtain ⟨b, at_i, rfl⟩ := ViewSpec.relationIndex_some index
  have member := List.mem_of_getElem? at_i
  obtain ⟨inShadows, here, active⟩ := activeShadow_some found
  have used : b.usedColumns ⊆ K.cols b.oid s.frontier := by
    rcases placed b member with ⟨s', inShadows', here', shows⟩ | alone
    · obtain rfl : s' = s := tracked.keyed.eq_of_mem inShadows' inShadows (here'.trans here.symm)
      rcases shows with ⟨_, used⟩ | ⟨idle, _⟩
      · exact used
      · exact absurd active idle
    · exact absurd active (alone.1 s inShadows here)
  have sees := placed.sees tracked view.intact member touched
  have mirrors := (tracked.follows s inShadows active (here ▸ view.intact b member)).1
  rw [← here] at index used read sees ⊢
  exact view.fits.planJoinChange (tracked.fits s inShadows) mirrors index at_i used sees valid kind encodes read

/-- A row change is planned for a view as its join delta over the tables before it. -/
theorem Tracking.View.planned {faults : Faults} {position relid : Nat} (view : K.View e good footprint db shadows v)
    (tracked : K.Shadows e good db shadows) {rc : RowChange} (valid : S.Valid db rc)
    (relids : rc.relids = [relid]) (kind : ∀ relids, rc ≠ .truncate relids)
    (inserted : ∀ new, rc = .insert relid new → footprint.inserts relid) (touched : footprint.touches relid)
    {change : Change} (encodes : Encodes S rc change) {oldFull : Except String (Option Tuple)}
    (read : K.Read e good shadows relid rc oldFull) (owes : v.Owes e)
    (after : (planView pf faults e position relid (shadowTable shadows) (S.relation relid) change oldFull
      v).Owes e) :
    ∃ ops, planView pf faults e position relid (shadowTable shadows) (S.relation relid) change oldFull v =
      { v with ops := v.ops ++ ops } ∧ JoinDelta v.row.spec db rc ops := by
  cases index : v.row.spec.relationIndex relid with
  | none =>
      refine ⟨[], ?_, .elsewhere fun r member => ?_⟩
      · rw [planView_other owes index, List.append_nil]
      · rw [relids] at member
        rw [List.mem_singleton.mp member, index]
  | some i =>
      obtain ⟨b, at_i, rfl⟩ := ViewSpec.relationIndex_some index
      have member := List.mem_of_getElem? at_i
      -- without a shadow that absorbs the change only an inserted row can be planned
      have unread : activeShadow shadows b.oid e = none → ∃ new, rc = .insert b.oid new := by
        intro missing
        obtain rfl := read.inactive missing
        obtain ⟨ops, planned, _⟩ := planView_planned owes index after
        simp only [planJoinChange, S.relation_id, index] at planned
        cases encodes with
        | @insert _ new =>
            obtain rfl := (List.cons.inj relids).1
            exact ⟨new, rfl⟩
        | truncate => exact absurd rfl (kind _)
        | _ => simp only [Except.ok.injEq, reduceCtorEq] at planned
      rcases view.reads with placed | behind
      · cases found : activeShadow shadows b.oid e with
        | none =>
            obtain ⟨new, rfl⟩ := unread found
            obtain rfl := read.inactive found
            cases encodes
            obtain ⟨ops, planned, eq⟩ := planView_planned owes index after
            obtain ⟨ops', planned', delta⟩ := view.fits.planInsert index
              (placed.sees tracked view.intact member touched) valid.1 none
            obtain rfl : ops' = ops := by
              rw [planned] at planned'
              exact (Planned.ops.inj (Except.ok.inj planned')).symm
            exact ⟨ops', eq, delta⟩
        | some s =>
            rcases read.active s found (view.intact b member) with ⟨message, unread⟩ | ⟨old, isRead, oldRead⟩
            · subst unread
              exact absurd after (planView_unread owes index message)
            · subst isRead
              obtain ⟨ops, planned, eq⟩ := planView_planned owes index after
              obtain ⟨ops', planned', delta⟩ :=
                view.planRead tracked placed valid kind encodes index touched found oldRead
              obtain rfl : ops' = ops := by
                rw [planned] at planned'
                exact (Planned.ops.inj (Except.ok.inj planned')).symm
              exact ⟨ops', eq, delta⟩
      · obtain ⟨noInsert, inactive⟩ := behind b member
        have missing : activeShadow shadows b.oid e = none := by
          cases found : activeShadow shadows b.oid e with
          | none => rfl
          | some s =>
              obtain ⟨inShadows, here, active⟩ := activeShadow_some found
              exact absurd active (inactive touched s inShadows here)
        obtain ⟨new, rfl⟩ := unread missing
        exact absurd (inserted new rfl) noInsert

/-- Planning a row change for one view. -/
theorem Tracking.View.next {faults : Faults} {position relid : Nat} (view : K.View e good footprint db shadows v)
    (tracked : K.Shadows e good db shadows) (ok : S.DatabaseOk db) {rc : RowChange} (valid : S.Valid db rc)
    (relids : rc.relids = [relid]) (kind : ∀ relids, rc ≠ .truncate relids)
    (inserted : ∀ new, rc = .insert relid new → footprint.inserts relid) (touched : footprint.touches relid)
    {change : Change} (encodes : Encodes S rc change) (carried : v.row.spec.Carried db)
    (carried' : v.row.spec.Carried (S.step db rc)) {oldFull : Except String (Option Tuple)}
    (read : K.Read e good shadows relid rc oldFull) (owes : v.Owes e)
    (after : (planView pf faults e position relid (shadowTable shadows) (S.relation relid) change oldFull
      v).Owes e) :
    K.View e good footprint (S.step db rc) shadows
      (planView pf faults e position relid (shadowTable shadows) (S.relation relid) change oldFull v) := by
  obtain ⟨ops, eq, delta⟩ := view.planned tracked valid relids kind inserted touched encodes read owes after
  rw [eq]
  refine ⟨view.fits, view.intact, ?_,
    view.pending.next view.fits ok (S.step_ok ok valid) carried carried' (delta.rowDelta view.fits ok valid)⟩
  refine view.reads.imp_left fun placed => LiveView.Placed.congr (v := { v with ops := v.ops ++ ops }) placed ?_
  intro b _ untouched
  refine S.step_elsewhere db fun within => untouched ?_
  rw [relids] at within
  rwa [List.mem_singleton.mp within]

theorem planView_truncate {faults : Faults} {position relid : Nat} {shadowTables : Nat → Option (List BaseRow)}
    {relids : List Nat} {oldFull : Except String (Option Tuple)}
    (owes : v.Owes e)
    (after : (planView pf faults e position relid shadowTables (S.relation relid) (.truncate relids) oldFull
      v).Owes e) : v.row.spec.relationIndex relid = none := by
  cases index : v.row.spec.relationIndex relid with
  | none => rfl
  | some i =>
      exfalso
      cases oldFull with
      | error message => exact planView_unread owes index message after
      | ok old =>
          obtain ⟨ops, planned, _⟩ := planView_planned owes index after
          simp only [planJoinChange, S.relation_id, index, Except.ok.injEq, reduceCtorEq] at planned

end Next

end Nabla
