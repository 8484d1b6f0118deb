import Nabla.Lib.Sections
import Mathlib.Logic.Function.Basic

/-! The rows of a join as assignments of names to rows: the assignments of a list of names,
their products, and filters on parts of them. -/
namespace Bags

variable {ι ρ : Type}

def merge (f g : ι → Option ρ) : ι → Option ρ := fun i => (f i).or (g i)

def product (left right : List (ι → Option ρ)) : List (ι → Option ρ) := right.flatMap fun g => left.map fun f => merge f g

theorem merge_none (f : ι → Option ρ) : merge (fun _ => none) f = f := by
  funext i
  exact Option.none_or

theorem filter_product {left right : List (ι → Option ρ)} {p q : (ι → Option ρ) → Bool}
    (onLeft : ∀ f ∈ left, ∀ g ∈ right, p (merge f g) = p f) (onRight : ∀ f ∈ left, ∀ g ∈ right, q (merge f g) = q g) :
    (product left right).filter (fun h => p h && q h) = product (left.filter p) (right.filter q) := by
  induction right with
  | nil => rfl
  | cons g right ih =>
      have rest := ih (fun f inLeft g inRight => onLeft f inLeft g (List.mem_cons_of_mem _ inRight))
        fun f inLeft g inRight => onRight f inLeft g (List.mem_cons_of_mem _ inRight)
      have split (g : ι → Option ρ) (right : List (ι → Option ρ)) : product left (g :: right) = (left.map fun f => merge f g) ++ product left right := rfl
      have kept : (left.map fun f => merge f g).filter (fun h => p h && q h) = if q g then (left.filter p).map fun f => merge f g else [] := by
        rw [List.filter_map]
        have read : ∀ f ∈ left, (p (merge f g) && q (merge f g)) = (p f && q g) := by
          intro f inLeft
          rw [onLeft f inLeft g List.mem_cons_self, onRight f inLeft g List.mem_cons_self]
        by_cases holds : q g = true
        · rw [if_pos holds]
          congr 1
          apply List.filter_congr
          intro f inLeft
          exact (read f inLeft).trans (by rw [holds, Bool.and_true])
        · rw [if_neg holds, List.map_eq_nil_iff, List.filter_eq_nil_iff]
          intro f inLeft
          rw [Function.comp_apply, read f inLeft, Bool.eq_false_iff.mpr holds, Bool.and_false]
          exact Bool.false_ne_true
      rw [split, List.filter_append, kept, rest]
      by_cases holds : q g = true
      · rw [if_pos holds, List.filter_cons_of_pos holds]
        rfl
      · rw [if_neg holds, List.filter_cons_of_neg holds]
        rfl

variable [DecidableEq ι]

def assignments (tables : ι → List ρ) : List ι → List (ι → Option ρ)
  | [] => [fun _ => none]
  | i :: names => (assignments tables names).flatMap fun f => (tables i).map fun row => Function.update f i (some row)

theorem merge_update (f g : ι → Option ρ) (i : ι) (row : ρ) :
    merge (Function.update f i (some row)) g = Function.update (merge f g) i (some row) := by
  funext j
  by_cases same : j = i
  · rw [same, merge, Function.update_self, Function.update_self, Option.some_or]
  · rw [merge, Function.update_of_ne same, Function.update_of_ne same, merge]

theorem isSome_of_mem {tables : ι → List ρ} {names : List ι} {f : ι → Option ρ} (member : f ∈ assignments tables names) (i : ι) :
    (f i).isSome ↔ i ∈ names := by
  induction names generalizing f with
  | nil =>
      obtain rfl := List.mem_singleton.mp member
      simp
  | cons j names ih =>
      obtain ⟨g, inner, choice⟩ := List.mem_flatMap.mp member
      obtain ⟨row, -, rfl⟩ := List.mem_map.mp choice
      rw [List.mem_cons]
      by_cases same : i = j
      · rw [same, Function.update_self]
        exact ⟨fun _ => .inl rfl, fun _ => rfl⟩
      · rw [Function.update_of_ne same, ih inner]
        exact ⟨.inr, fun either => either.resolve_left same⟩

theorem assignments_append (tables : ι → List ρ) (left right : List ι) :
    assignments tables (left ++ right) = product (assignments tables left) (assignments tables right) := by
  induction left with
  | nil =>
      rw [List.nil_append, product, assignments]
      have single : (fun g : ι → Option ρ => [fun _ => none].map fun f => merge f g) = fun g => [g] := by
        funext g
        rw [List.map_singleton, merge_none]
      rw [single, List.flatMap_singleton']
  | cons i left ih =>
      rw [List.cons_append, assignments, ih, product, product, assignments, List.flatMap_assoc]
      apply List.flatMap_congr
      intro g _
      rw [List.flatMap_map, List.map_flatMap]
      apply List.flatMap_congr
      intro f _
      rw [List.map_map]
      apply List.map_congr_left
      intro row _
      exact (merge_update f g i row).symm

theorem flatMap_map_comm {α β γ : Type} (F : α → β → γ) (xs : List α) (ys : List β) :
    (xs.flatMap fun x => ys.map fun y => F x y).Perm (ys.flatMap fun y => xs.map fun x => F x y) := by
  induction xs with
  | nil =>
      have empty : (ys.flatMap fun y => ([] : List α).map fun x => F x y) = [] := List.flatMap_eq_nil_iff.mpr fun _ _ => rfl
      rw [empty]
      exact List.Perm.refl _
  | cons x xs ih =>
      rw [List.flatMap_cons]
      have apart := List.map_append_flatMap_perm ys (fun y => F x y) fun y => xs.map fun x => F x y
      exact (ih.append_left _).trans apart

theorem assignments_perm (tables : ι → List ρ) {names names' : List ι} (same : names.Perm names') (distinct : names.Nodup) :
    (assignments tables names).Perm (assignments tables names') := by
  induction same with
  | nil => exact List.Perm.refl _
  | cons i _ ih => exact (ih (List.nodup_cons.mp distinct).2).flatMap_right _
  | swap i j names =>
      have other : j ≠ i := fun equal => (List.nodup_cons.mp distinct).1 (equal ▸ List.mem_cons_self)
      rw [assignments, assignments, assignments, assignments, List.flatMap_assoc, List.flatMap_assoc]
      apply List.Perm.flatMap_left
      intro f _
      rw [List.flatMap_map, List.flatMap_map]
      have commuted := flatMap_map_comm (fun r s => Function.update (Function.update f i (some r)) j (some s)) (tables i) (tables j)
      refine commuted.trans (List.Perm.of_eq ?_)
      apply List.flatMap_congr
      intro s _
      apply List.map_congr_left
      intro r _
      exact Function.update_comm other.symm _ _ f
  | trans first _ ih ih' => exact (ih distinct).trans (ih' (first.nodup_iff.mp distinct))

end Bags
