import Mathlib.Data.List.Sections
import Mathlib.Data.List.Nodup
import Mathlib.Data.List.Perm.Basic
import Mathlib.Data.List.Perm.Lattice

/-! One element from each list: the product of lists is linear in each factor, up to
the order of its members. -/
namespace Bags

variable {α β : Type}

theorem sections_cons (xs : List α) (tables : List (List α)) : (xs :: tables).sections =
    tables.sections.flatMap fun s => xs.map fun x => x :: s := rfl

theorem sections_perm {tables tables' : List (List α)} (same : List.Forall₂ List.Perm tables tables') :
    tables.sections.Perm tables'.sections := by
  induction same with
  | nil => exact List.Perm.refl _
  | cons head _ ih =>
      rw [sections_cons, sections_cons]
      exact ih.flatMap fun s _ => head.map _

theorem sections_split {tables : List (List α)} {i : Nat} {whole left right : List α}
    (at_i : tables[i]? = some whole) (split : whole.Perm (left ++ right)) :
    tables.sections.Perm ((tables.set i left).sections ++ (tables.set i right).sections) := by
  induction tables generalizing i with
  | nil => simp only [List.getElem?_nil, reduceCtorEq] at at_i
  | cons table tables ih =>
      cases i with
      | zero =>
          rw [List.getElem?_cons_zero, Option.some.injEq] at at_i
          subst at_i
          rw [List.set_cons_zero, List.set_cons_zero, sections_cons, sections_cons, sections_cons]
          have apart := List.flatMap_append_perm tables.sections (fun s => left.map fun x => x :: s)
            (fun s => right.map fun x => x :: s)
          refine List.Perm.trans (List.Perm.flatMap (List.Perm.refl _) fun s _ => ?_) apart.symm
          rw [← List.map_append]
          exact split.map _
      | succ i =>
          rw [List.getElem?_cons_succ] at at_i
          rw [List.set_cons_succ, List.set_cons_succ, sections_cons, sections_cons, sections_cons,
            ← List.flatMap_append]
          exact (ih at_i).flatMap_right _

theorem sections_zipWith_map (fs : List (α → β)) (tables : List (List α)) (length : fs.length = tables.length) :
    (List.zipWith List.map fs tables).sections =
      tables.sections.map fun s => List.zipWith (fun f x => f x) fs s := by
  induction tables generalizing fs with
  | nil =>
      rw [List.length_nil, List.length_eq_zero_iff] at length
      subst length
      rfl
  | cons table tables ih =>
      cases fs with
      | nil => contradiction
      | cons f fs =>
          rw [List.length_cons, List.length_cons, Nat.succ_inj] at length
          rw [List.zipWith_cons_cons, sections_cons, sections_cons, ih fs length, List.flatMap_map,
            List.map_flatMap]
          apply List.flatMap_congr
          intro s _
          rw [List.map_map, List.map_map]
          rfl

theorem sections_nodup {tables : List (List α)} (distinct : ∀ table ∈ tables, table.Nodup) :
    tables.sections.Nodup := by
  induction tables with
  | nil => exact List.nodup_singleton _
  | cons table tables ih =>
      rw [sections_cons]
      have tails := ih fun t member => distinct t (List.mem_cons_of_mem _ member)
      have heads := distinct table List.mem_cons_self
      rw [List.nodup_flatMap]
      refine ⟨?_, ?_⟩
      · intro s _
        exact heads.map fun x y same => (List.cons.inj same).1
      · refine tails.imp ?_
        intro s t other
        rw [Function.onFun_apply, List.disjoint_left]
        intro u left right
        obtain ⟨x, _, rfl⟩ := List.mem_map.mp left
        obtain ⟨y, _, same⟩ := List.mem_map.mp right
        exact other (List.cons.inj same).2.symm

theorem getElem_of_mem_sections {tables : List (List α)} {s : List α} (member : s ∈ tables.sections)
    {i : Nat} {x : α} (at_i : s[i]? = some x) : ∃ table, tables[i]? = some table ∧ x ∈ table := by
  have pointwise := List.mem_sections.mp member
  induction pointwise generalizing i with
  | nil => simp only [List.getElem?_nil, reduceCtorEq] at at_i
  | @cons y table s tables head _ ih =>
      cases i with
      | zero =>
          rw [List.getElem?_cons_zero, Option.some.injEq] at at_i
          exact ⟨table, rfl, at_i ▸ head⟩
      | succ i =>
          rw [List.getElem?_cons_succ] at at_i
          exact ih (List.mem_sections.mpr ‹_›) at_i

end Bags
