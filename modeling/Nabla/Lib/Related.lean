import Mathlib.Data.List.Forall2
import Mathlib.Data.List.Nodup
import Mathlib.Data.List.Perm.Basic

/-! Two lists related element by element: what each side knows of the other, and how
the relation weakens and composes. -/
namespace Bags

variable {α β γ : Type} {R : α → β → Prop} {xs : List α} {ys : List β}

theorem forall₂_imp_mem {S : α → β → Prop} (related : List.Forall₂ R xs ys)
    (weaken : ∀ x ∈ xs, ∀ y, R x y → S x y) : List.Forall₂ S xs ys :=
  ((List.forall₂_and_left xs ys).mpr ⟨weaken, related⟩).imp fun _ y both => both.1 y both.2

theorem forall₂_imp_mem_right {S : α → β → Prop} (related : List.Forall₂ R xs ys)
    (weaken : ∀ x, ∀ y ∈ ys, R x y → S x y) : List.Forall₂ S xs ys :=
  (forall₂_imp_mem related.flip fun y member x holds => weaken x y member holds).flip

theorem mem_zip_map (f : α → β) {a : α} (member : a ∈ xs) : (a, f a) ∈ xs.zip (xs.map f) := by
  induction xs with
  | nil => exact absurd member List.not_mem_nil
  | cons x xs ih =>
      rw [List.map_cons, List.zip_cons_cons]
      rcases List.mem_cons.mp member with rfl | later
      · exact List.mem_cons_self
      · exact List.mem_cons_of_mem _ (ih later)

theorem forall₂_imp_zip {S : α → β → Prop} (related : List.Forall₂ R xs ys)
    (weaken : ∀ x y, (x, y) ∈ xs.zip ys → R x y → S x y) : List.Forall₂ S xs ys := by
  induction related with
  | nil => exact .nil
  | cons head _ ih =>
      refine .cons (weaken _ _ List.mem_cons_self head) (ih fun x y paired => ?_)
      exact weaken x y (List.mem_cons_of_mem _ paired)

theorem mem_of_forall₂ (related : List.Forall₂ R xs ys) {x : α} (member : x ∈ xs) : ∃ y ∈ ys, R x y := by
  induction related with
  | nil => exact absurd member List.not_mem_nil
  | cons head _ ih =>
      rcases List.mem_cons.mp member with rfl | later
      · exact ⟨_, List.mem_cons_self, head⟩
      · obtain ⟨y, within, holds⟩ := ih later
        exact ⟨y, List.mem_cons_of_mem _ within, holds⟩

theorem mem_of_forall₂_right (related : List.Forall₂ R xs ys) {y : β} (member : y ∈ ys) : ∃ x ∈ xs, R x y :=
  mem_of_forall₂ related.flip member

theorem forall₂_trans {S : β → γ → Prop} {T : α → γ → Prop} (compose : ∀ a b c, R a b → S b c → T a c)
    {zs : List γ} (first : List.Forall₂ R xs ys) (second : List.Forall₂ S ys zs) : List.Forall₂ T xs zs := by
  induction first generalizing zs with
  | nil =>
      cases second
      exact .nil
  | cons head _ ih =>
      cases second with
      | cons head' tail' => exact .cons (compose _ _ _ head head') (ih tail')

theorem forall₂_both {S : α → β → Prop} (first : List.Forall₂ R xs ys) (second : List.Forall₂ S xs ys) :
    List.Forall₂ (fun x y => R x y ∧ S x y) xs ys := by
  induction first with
  | nil => exact .nil
  | cons head _ ih =>
      cases second with
      | cons head' tail' => exact .cons ⟨head, head'⟩ (ih tail')

theorem forall₂_split {before after : List β} {y : β} (related : List.Forall₂ R xs (before ++ y :: after)) :
    ∃ xs₁ x xs₂, xs = xs₁ ++ x :: xs₂ ∧ List.Forall₂ R xs₁ before ∧ R x y ∧ List.Forall₂ R xs₂ after := by
  have last := List.forall₂_drop_append xs before (y :: after) related
  obtain ⟨x, xs₂, here, rest, eq⟩ := List.forall₂_cons_right_iff.mp last
  refine ⟨xs.take before.length, x, xs₂, ?_, List.forall₂_take_append xs before (y :: after) related, here, rest⟩
  rw [← eq, List.take_append_drop]

theorem forall₂_map_right (f : α → β) (holds : ∀ a ∈ xs, R a (f a)) : List.Forall₂ R xs (xs.map f) := by
  rw [List.forall₂_map_right_iff]
  exact List.forall₂_same.mpr holds

theorem map_eq_of_forall₂_left {f : α → β} (related : List.Forall₂ (fun a b => f a = b) xs ys) : xs.map f = ys := by
  induction related with
  | nil => rfl
  | cons head _ ih => rw [List.map_cons, head, ih]

theorem map_eq_of_forall₂ {f : α → γ} {g : β → γ} (related : List.Forall₂ R xs ys)
    (agree : ∀ a b, R a b → g b = f a) : ys.map g = xs.map f := by
  induction related with
  | nil => rfl
  | cons head _ ih => rw [List.map_cons, List.map_cons, agree _ _ head, ih]

theorem forall₂_set (related : List.Forall₂ R xs ys) {x : α} {y : β} (here : R x y) (i : Nat) :
    List.Forall₂ R (xs.set i x) (ys.set i y) := by
  induction related generalizing i with
  | nil => exact .nil
  | cons head tail ih =>
      cases i with
      | zero => exact .cons here tail
      | succ i => exact .cons head (ih i)

theorem forall₂_filter {p : α → Bool} {q : β → Bool} (related : List.Forall₂ R xs ys)
    (agree : ∀ a b, R a b → q b = p a) : List.Forall₂ R (xs.filter p) (ys.filter q) := by
  induction related with
  | nil => exact .nil
  | cons head tail ih =>
      rw [List.filter_cons, List.filter_cons, agree _ _ head]
      split
      · exact .cons head ih
      · exact ih

theorem mem_zip_map_iff {f : α → β} {x : α} {y : β} (within : (x, y) ∈ xs.zip (xs.map f)) :
    x ∈ xs ∧ y = f x := by
  rw [List.zip_map_right, List.mem_map] at within
  obtain ⟨⟨a, b⟩, paired, eq⟩ := within
  cases eq
  rw [List.zip_eq_zipWith, List.zipWith_self, List.mem_map] at paired
  obtain ⟨c, member, eq⟩ := paired
  cases eq
  exact ⟨member, rfl⟩

theorem exists_zip (length : xs.length = ys.length) {x : α} (member : x ∈ xs) :
    ∃ y, (x, y) ∈ xs.zip ys := by
  rw [← List.map_fst_zip (Nat.le_of_eq length), List.mem_map] at member
  obtain ⟨⟨a, b⟩, paired, rfl⟩ := member
  exact ⟨b, paired⟩

theorem zip_functional (length : xs.length = ys.length) (distinct : xs.Nodup) {x : α} {y z : β}
    (left : (x, y) ∈ xs.zip ys) (right : (x, z) ∈ xs.zip ys) : y = z := by
  have firsts : ((xs.zip ys).map Prod.fst).Nodup := by
    rw [List.map_fst_zip (Nat.le_of_eq length)]
    exact distinct
  exact (Prod.ext_iff.mp (List.inj_on_of_nodup_map firsts left right rfl)).2

/-- Two bags that agree on one view of their elements agree on every other view it decides. -/
theorem perm_map_of_agree {δ : Type} {f : α → γ} {g : β → γ} {F : α → δ} {G : β → δ} (same : (xs.map f).Perm (ys.map g))
    (agree : ∀ x ∈ xs, ∀ y ∈ ys, f x = g y → F x = G y) : (xs.map F).Perm (ys.map G) := by
  have right : List.Forall₂ (fun z y => z = g y) (ys.map g) ys := List.forall₂_map_left_iff.mpr (List.forall₂_same.mpr fun _ _ => rfl)
  obtain ⟨ys', paired, perm⟩ := List.perm_comp_forall₂ same right
  have matched : List.Forall₂ (fun x y => f x = g y) xs ys' := List.forall₂_map_left_iff.mp paired
  have inYs : List.Forall₂ (fun x y => f x = g y ∧ y ∈ ys) xs ys' :=
    forall₂_imp_mem_right matched fun x y within equal => ⟨equal, perm.mem_iff.mp within⟩
  have images : ys'.map G = xs.map F := by
    apply map_eq_of_forall₂ (forall₂_imp_mem (S := fun x y => G y = F x) inYs ?_) fun _ _ equal => equal
    exact fun x member y both => (agree x member y both.2 both.1).symm
  rw [← images]
  exact perm.map G

end Bags
