import Nabla.Planning
import Nabla.Populate
import Nabla.Lib.Keyed
import Nabla.Lib.Related

/-! What a population makes of the rows of `nabla.views`. -/
namespace Nabla
open Bags

variable {sight : Sight} {point : Nat}

def ViewRow.refused (row : ViewRow) (message : String) : ViewRow := { row with status := .failed, lastError := some message }

def Sight.spec (sight : Sight) (view : Pending) : Except String ViewSpec :=
  if view.rebuild then sight.validate view.definition else .ok view.spec

def ViewRow.rebuilt (row : ViewRow) (sight : Sight) (point : Nat) (view : Pending) (spec : ViewSpec) : ViewRow :=
  { row with spec := if view.rebuild then spec else row.spec }.built point view.rebuild (sight.populate spec)

/-- A member of the group is built at the consistent point or fails, any other view stands. -/
structure ViewRow.Built (sight : Sight) (point : Nat) (group : List Pending) (row row' : ViewRow) : Prop where
  outside : row.id ∉ group.map Pending.id → row' = row
  inside : row.id ∈ group.map Pending.id →
    (∃ view ∈ group, view.id = row.id ∧ ∃ spec, sight.spec view = .ok spec ∧ row' = row.rebuilt sight point view spec) ∨
    ∃ message, row' = row.refused message

theorem ViewSpec.populate_perm {spec : ViewSpec} (closed : spec.Closed) (tabled : spec.Tabled) {db : Database}
    (sees : ∀ relid, (sight.table relid).rows.Perm (db relid)) :
    (sight.populate spec).Perm (spec.output (spec.contents (spec.tablesOf db))) := by
  have read : sight.populate spec = spec.output (spec.contents (spec.tablesOf fun relid => (sight.table relid).rows)) := by
    rw [Sight.populate, ← closed.evalQuery_narrow (List.length_map _)]
    rfl
  rw [read]
  apply tabled.output_perm
  apply ViewSpec.contents_perm
  rw [ViewSpec.narrowTables_tablesOf, ViewSpec.narrowTables_tablesOf, List.forall₂_map_left_iff, List.forall₂_map_right_iff]
  exact List.forall₂_same.mpr fun b _ => (sees b.oid).map (narrowRow b.usedColumns)

theorem ViewRow.Built.id {group : List Pending} {row row' : ViewRow} (built : row.Built sight point group row') : row'.id = row.id := by
  by_cases member : row.id ∈ group.map Pending.id
  · rcases built.inside member with ⟨view, _, _, spec, _, rfl⟩ | ⟨message, rfl⟩ <;> rfl
  · rw [built.outside member]

theorem Catalog.updateView_views (c : Catalog) (id : Nat) (f : ViewRow → ViewRow) :
    List.Forall₂ (fun row row' => (row.id ≠ id → row' = row) ∧ (row.id = id → row' = f row)) c.views (c.updateView id f).views := by
  refine forall₂_map_right _ fun row _ => ?_
  by_cases same : row.id = id
  · rw [if_pos same]
    exact ⟨fun other => absurd same other, fun _ => rfl⟩
  · rw [if_neg same]
    exact ⟨fun _ => rfl, fun here => absurd here same⟩

theorem buildShadows_views (rebuild : Bool) (spec : ViewSpec) (rels : List BaseRelation) (done : List Nat) (c : Catalog) :
    (buildShadows sight point rebuild spec rels done c).1.views = c.views := by
  induction rels generalizing done c with
  | nil => rfl
  | cons rel rels ih =>
      rw [buildShadows]
      split
      · exact ih _ _
      · exact ih _ _

def Catalog.respec (c : Catalog) (view : Pending) (spec : ViewSpec) : Catalog :=
  if view.rebuild then c.updateView view.id fun row => { row with spec := spec } else c

def Catalog.reshadow (sight : Sight) (point : Nat) (view : Pending) (spec : ViewSpec) (done : List Nat) (c : Catalog) :
    Catalog × List Nat :=
  if spec.isJoin then buildShadows sight point view.rebuild spec spec.relations done c else (c, done)

/-- What a build has done when it does not fail the group. -/
inductive BuildStep (sight : Sight) (point : Nat) (view : Pending) (done : List Nat) (c : Catalog) : Catalog → List Nat → Prop where
  | refused (message : String) (invalid : sight.spec view = .error message) :
      BuildStep sight point view done c (c.updateView view.id (·.refused message)) done
  | built (spec : ViewSpec) (valid : sight.spec view = .ok spec) :
      BuildStep sight point view done c
        (((c.respec view spec).reshadow sight point view spec done).1.updateView view.id fun row =>
          row.built point view.rebuild (sight.populate spec))
        ((c.respec view spec).reshadow sight point view spec done).2

theorem build_step {view : Pending} {done done' : List Nat} {c c' : Catalog}
    (built : build sight point view done c = .ok (c', done')) : BuildStep sight point view done c c' done' := by
  unfold build at built
  cases fault : sight.fault view.id with
  | some message => simp only [fault, reduceCtorEq] at built
  | none =>
      simp only [fault] at built
      cases valid : sight.spec view with
      | error message =>
          have invalid := valid
          unfold Sight.spec Pending.rebuild at valid
          simp only [valid, Except.ok.injEq, Prod.mk.injEq] at built
          obtain ⟨rfl, rfl⟩ := built
          exact .refused message invalid
      | ok spec =>
          have works := valid
          unfold Sight.spec Pending.rebuild at valid
          simp only [valid, Except.ok.injEq, Prod.mk.injEq] at built
          obtain ⟨rfl, rfl⟩ := built
          exact .built spec works

theorem Catalog.respec_views (c : Catalog) (view : Pending) (spec : ViewSpec) :
    List.Forall₂ (fun row row' => (row.id ≠ view.id → row' = row) ∧
      (row.id = view.id → row' = { row with spec := if view.rebuild then spec else row.spec })) c.views (c.respec view spec).views := by
  unfold Catalog.respec
  cases view.rebuild with
  | true => exact c.updateView_views view.id _
  | false => exact List.forall₂_same.mpr fun row _ => ⟨fun _ => rfl, fun _ => rfl⟩

theorem BuildStep.views {view : Pending} {done done' : List Nat} {c c' : Catalog} (step : BuildStep sight point view done c c' done') :
    List.Forall₂ (ViewRow.Built sight point [view]) c.views c'.views := by
  have lone : ∀ {id : Nat}, id ∈ [view].map Pending.id ↔ id = view.id := List.mem_singleton
  cases step with
  | refused message =>
      refine (c.updateView_views view.id _).imp fun row row' step => ⟨fun other => step.1 fun same => other (lone.mpr same), ?_⟩
      exact fun same => .inr ⟨message, step.2 (lone.mp same)⟩
  | built spec valid =>
      have shadowed : ((c.respec view spec).reshadow sight point view spec done).1.views = (c.respec view spec).views := by
        unfold Catalog.reshadow
        split
        · exact buildShadows_views _ _ _ _ _
        · rfl
      have written := ((c.respec view spec).reshadow sight point view spec done).1.updateView_views view.id
        fun row => row.built point view.rebuild (sight.populate spec)
      rw [shadowed] at written
      refine forall₂_trans (fun row row₁ row' first second => ?_) (c.respec_views view spec) written
      constructor
      · intro other
        have apart : row.id ≠ view.id := fun same => other (lone.mpr same)
        obtain rfl := first.1 apart
        exact second.1 apart
      · intro member
        have same := lone.mp member
        obtain rfl := first.2 same
        exact .inl ⟨view, List.mem_cons_self, same.symm, spec, valid, second.2 same⟩

theorem buildGroup_views {group : List Pending} {done : List Nat} {c c' : Catalog} (distinct : (group.map Pending.id).Nodup)
    (built : buildGroup sight point group done c = .ok c') :
    List.Forall₂ (ViewRow.Built sight point group) c.views c'.views := by
  induction group generalizing done c with
  | nil =>
      obtain rfl := Except.ok.inj built
      exact List.forall₂_same.mpr fun row _ => ⟨fun _ => rfl, fun member => absurd member List.not_mem_nil⟩
  | cons view group ih =>
      rw [buildGroup] at built
      cases one : build sight point view done c with
      | error message => simp only [one, reduceCtorEq] at built
      | ok r =>
          obtain ⟨c₁, done₁⟩ := r
          simp only [one] at built
          rw [List.map_cons, List.nodup_cons] at distinct
          refine forall₂_trans (fun row row₁ row' first second => ?_) (build_step one).views (ih distinct.2 built)
          have lone : ∀ {id : Nat}, id ∈ [view].map Pending.id ↔ id = view.id := List.mem_singleton
          by_cases here : row.id = view.id
          · have apart : row₁.id ∉ group.map Pending.id := by
              rw [first.id, here]
              exact distinct.1
            rw [second.outside apart]
            refine ⟨fun other => absurd (here ▸ List.mem_cons_self) other, fun _ => ?_⟩
            rcases first.inside (lone.mpr here) with ⟨only, within, rest⟩ | refused
            · obtain rfl := List.mem_singleton.mp within
              exact .inl ⟨only, List.mem_cons_self, rest⟩
            · exact .inr refused
          · obtain rfl := first.outside fun same => here (lone.mp same)
            constructor
            · intro other
              exact second.outside fun later => other (List.mem_cons_of_mem _ later)
            · intro member
              rcases second.inside ((List.mem_cons.mp member).resolve_left here) with ⟨only, within, rest⟩ | refused
              · exact .inl ⟨only, List.mem_cons_of_mem _ within, rest⟩
              · exact .inr refused

theorem Catalog.recordFailure_views (group : List Pending) (message : String) (c : Catalog) :
    List.Forall₂ (fun row row' => (row.id ∉ group.map Pending.id → row' = row) ∧
      (row.id ∈ group.map Pending.id → row' = row.refused message)) c.views (c.recordFailure group message).views := by
  unfold Catalog.recordFailure
  induction group generalizing c with
  | nil => exact List.forall₂_same.mpr fun row _ => ⟨fun _ => rfl, fun member => absurd member List.not_mem_nil⟩
  | cons view group ih =>
      rw [List.foldl_cons]
      refine forall₂_trans (fun row row₁ row' first second => ?_) (c.updateView_views view.id (·.refused message)) (ih _)
      by_cases here : row.id = view.id
      · obtain rfl := first.2 here
        refine ⟨fun other => absurd (here ▸ List.mem_cons_self) other, fun _ => ?_⟩
        by_cases again : row.id ∈ group.map Pending.id
        · exact second.2 again
        · exact second.1 again
      · obtain rfl := first.1 here
        refine ⟨fun other => second.1 fun later => other (List.mem_cons_of_mem _ later), fun member => ?_⟩
        exact second.2 ((List.mem_cons.mp member).resolve_left here)

/-- A population builds the whole group, with the slot not past the point, or fails it. -/
inductive Populated (sight : Sight) (point : Nat) (slot : Option Nat) (group : List Pending) (c : Catalog) : Catalog → Prop where
  | built {c' : Catalog} (main : ∀ position, slot = some position → position ≤ point)
      (ok : buildGroup sight point group [] c = .ok c') : Populated sight point slot group c c'
  | failed (message : String) : Populated sight point slot group c (c.recordFailure group message)

theorem Catalog.populate_cases (sight : Sight) (point : Nat) (slot : Option Nat) (group : List Pending) (c : Catalog) :
    Populated sight point slot group c (c.populate sight point slot group) := by
  unfold Catalog.populate
  cases done : populateGroup sight point slot group c with
  | error message => exact .failed message
  | ok c' =>
      cases slot with
      | none => exact .built (fun position none => absurd none (Option.some_ne_none position).symm) done
      | some main =>
          simp only [populateGroup] at done
          by_cases past : point < main
          · simp only [if_pos past, reduceCtorEq] at done
          · rw [if_neg past] at done
            refine .built (fun position same => ?_) done
            obtain rfl := Option.some.inj same
            exact Nat.not_lt.mp past

theorem Catalog.populate_views {group : List Pending} (distinct : (group.map Pending.id).Nodup) (slot : Option Nat) (c : Catalog) :
    List.Forall₂ (fun row row' => row.Built sight point group row' ∧
      (row.id ∈ group.map Pending.id → row'.status = .live → ∀ position, slot = some position → position ≤ point))
      c.views (c.populate sight point slot group).views := by
  have outcome := c.populate_cases sight point slot group
  generalize c.populate sight point slot group = c' at outcome
  cases outcome with
  | built main ok =>
      exact (buildGroup_views distinct ok).imp fun row row' built => ⟨built, fun _ _ => main⟩
  | failed message =>
      refine (c.recordFailure_views group message).imp fun row row' step => ?_
      refine ⟨⟨step.1, fun member => .inr ⟨message, step.2 member⟩⟩, fun member live => ?_⟩
      rw [step.2 member] at live
      exact absurd live Status.noConfusion

end Nabla
