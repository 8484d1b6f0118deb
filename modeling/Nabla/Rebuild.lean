import Nabla.Building
import Nabla.Incremental

/-! Failure isolation of a rebuild: what a broken member of a group does to the others. -/
namespace Nabla
open Bags

variable {sight : Sight} {point : Nat}

/-- The shadow holds its table as the population transaction sees it. -/
structure ShadowRow.Snapshot (sight : Sight) (point : Nat) (s : ShadowRow) : Prop where
  frontier : s.frontier = point
  failed : s.failed = false
  rows : s.rows = (sight.table s.relid).rows.map (selectColumns s.columns)

/-- The shadows of the relations that were handled. -/
structure Snapshots (sight : Sight) (point : Nat) (done : List Nat) (shadows : List ShadowRow) : Prop where
  there : ∀ relid ∈ done, ∃ s ∈ shadows, s.relid = relid
  taken : ∀ s ∈ shadows, s.relid ∈ done → s.Snapshot sight point

theorem Snapshots.rebuild {done : List Nat} {shadows : List ShadowRow} (snapshots : Snapshots sight point done shadows) (rel : BaseRelation)
    (needed keys : List String) :
    Snapshots sight point (rel.oid :: done) (rebuildShadow rel point needed keys (sight.table rel.oid) shadows) := by
  unfold rebuildShadow
  cases found : shadows.find? (·.relid = rel.oid) with
  | none =>
      constructor
      · intro relid member
        rcases List.mem_cons.mp member with rfl | before
        · exact ⟨_, List.mem_append_right _ (List.mem_singleton_self _), rfl⟩
        · obtain ⟨s, within, same⟩ := snapshots.there relid before
          exact ⟨s, List.mem_append_left _ within, same⟩
      · intro s member handled
        rcases List.mem_append.mp member with before | new
        · have other : s.relid ≠ rel.oid := fun same => List.find?_eq_none.mp found s before (decide_eq_true same)
          exact snapshots.taken s before ((List.mem_cons.mp handled).resolve_left other)
        · rw [List.mem_singleton.mp new]
          exact ⟨rfl, rfl, rfl⟩
  | some current =>
      have kept : ∀ s ∈ shadows, ∃ s' ∈ updateShadow rel.oid (refillShadow rel point needed keys (sight.table rel.oid)) shadows, s'.relid = s.relid := by
        intro s member
        refine ⟨_, List.mem_map_of_mem member, ?_⟩
        split <;> rfl
      constructor
      · intro relid member
        rcases List.mem_cons.mp member with rfl | before
        · have here := List.find?_some found
          rw [decide_eq_true_eq] at here
          exact here ▸ kept current (List.mem_of_find?_eq_some found)
        · obtain ⟨s, within, rfl⟩ := snapshots.there relid before
          exact kept s within
      · intro s' member handled
        obtain ⟨s, before, rfl⟩ := List.mem_map.mp member
        by_cases here : s.relid = rel.oid
        · rw [if_pos here]
          refine ⟨rfl, rfl, ?_⟩
          show (sight.table rel.oid).rows.map _ = (sight.table s.relid).rows.map _
          rw [here]
          rfl
        · rw [if_neg here] at handled ⊢
          exact snapshots.taken s before ((List.mem_cons.mp handled).resolve_left here)

end Nabla
