import Nabla.Lib.Netting
import Mathlib.Algebra.Order.Group.Multiset
import Mathlib.Algebra.Order.Sub.Unbundled.Basic

/-! A copy of a table kept without keys: every row that leaves has to be there. -/
namespace Bags

variable {ρ κ τ : Type} [DecidableEq τ]

def Event.map {σ : Type} (f : ρ → σ) : Event ρ → Event σ
  | .remove row => .remove (f row)
  | .add row => .add (f row)

/-- A copy with one event played on it; none when the row that leaves is missing. -/
def Event.patch (copy : List τ) : Event τ → Option (List τ)
  | .remove row => if row ∈ copy then some (copy.erase row) else none
  | .add row => some (copy ++ [row])

def patchAll (copy : List τ) (events : List (Event τ)) : Option (List τ) := events.foldlM Event.patch copy

theorem patchAll_cons (copy : List τ) (e : Event τ) (events : List (Event τ)) :
    patchAll copy (e :: events) = (e.patch copy).bind fun next => patchAll next events := List.foldlM_cons

theorem patchAll_append (copy : List τ) (first second : List (Event τ)) :
    patchAll copy (first ++ second) = (patchAll copy first).bind fun next => patchAll next second := List.foldlM_append

/-- A stream takes one copy to another, whatever their order. -/
def Patches (copy : List τ) (events : List (Event τ)) (copy' : List τ) : Prop :=
  ∃ patched, patchAll copy events = some patched ∧ patched.Perm copy'

theorem Event.patch_perm {copy other patched : List τ} (same : copy.Perm other) {e : Event τ} (done : e.patch copy = some patched) :
    ∃ patched', e.patch other = some patched' ∧ patched.Perm patched' := by
  cases e with
  | remove row =>
      by_cases here : row ∈ copy
      · rw [Event.patch, if_pos here, Option.some.injEq] at done
        subst done
        exact ⟨other.erase row, if_pos (same.mem_iff.mp here), same.erase row⟩
      · rw [Event.patch, if_neg here] at done
        cases done
  | add row =>
      obtain rfl := Option.some.inj done
      exact ⟨other ++ [row], rfl, same.append_right _⟩

theorem patchAll_perm {copy other patched : List τ} (same : copy.Perm other) {events : List (Event τ)}
    (done : patchAll copy events = some patched) : ∃ patched', patchAll other events = some patched' ∧ patched.Perm patched' := by
  induction events generalizing copy other with
  | nil =>
      obtain rfl := Option.some.inj done
      exact ⟨other, rfl, same⟩
  | cons e events ih =>
      rw [patchAll_cons, Option.bind_eq_some_iff] at done
      obtain ⟨next, first, rest⟩ := done
      obtain ⟨next', first', same'⟩ := Event.patch_perm same first
      obtain ⟨patched', rest', same''⟩ := ih same' rest
      refine ⟨patched', ?_, same''⟩
      rw [patchAll_cons, first']
      exact rest'

theorem Patches.nil {copy copy' : List τ} (same : copy.Perm copy') : Patches copy [] copy' := ⟨copy, rfl, same⟩

theorem Patches.perm_of_nil {copy copy' : List τ} (patches : Patches copy [] copy') : copy.Perm copy' := by
  obtain ⟨patched, done, same⟩ := patches
  obtain rfl := Option.some.inj done
  exact same

theorem Patches.trans {copy copy' copy'' : List τ} {first second : List (Event τ)} (left : Patches copy first copy')
    (right : Patches copy' second copy'') : Patches copy (first ++ second) copy'' := by
  obtain ⟨patched, done, same⟩ := left
  obtain ⟨patched', done', same'⟩ := right
  obtain ⟨last, done'', same''⟩ := patchAll_perm same.symm done'
  refine ⟨last, ?_, same''.symm.trans same'⟩
  rw [patchAll_append, done]
  exact done''

theorem Patches.perm {copy other copy' other' : List τ} {events : List (Event τ)} (patches : Patches copy events copy')
    (before : copy.Perm other) (after : copy'.Perm other') : Patches other events other' := by
  obtain ⟨patched, done, same⟩ := patches
  obtain ⟨patched', done', same'⟩ := patchAll_perm before done
  exact ⟨patched', done', same'.symm.trans (same.trans after)⟩

/-- What a stream makes of a copy does not depend on the order of the copy. -/
theorem Patches.unique {copy copy' copy'' : List τ} {events : List (Event τ)} (left : Patches copy events copy')
    (right : Patches copy events copy'') : copy'.Perm copy'' := by
  obtain ⟨patched, done, same⟩ := left
  obtain ⟨patched', done', same'⟩ := right
  obtain rfl := Option.some.inj (done.symm.trans done')
  exact same.symm.trans same'

theorem diff_append_right {copy gone : List τ} (there : gone.Subperm copy) (row : τ) (rows : List τ) :
    ((copy ++ [row]).diff gone ++ rows).Perm (copy.diff gone ++ [row] ++ rows) := by
  refine List.Perm.append_right _ ?_
  rw [← Multiset.coe_eq_coe, ← Multiset.coe_sub, ← Multiset.coe_add, ← Multiset.coe_add, ← Multiset.coe_sub]
  exact (tsub_add_eq_add_tsub (Multiset.coe_le.mpr there)).symm

/-- When all the rows that leave are there from the start, the order of the events does not matter. -/
theorem patches_of_subperm {copy : List τ} {events : List (Event τ)} (there : (events.filterMap Event.removed).Subperm copy) :
    Patches copy events (copy.diff (events.filterMap Event.removed) ++ events.filterMap Event.added) := by
  induction events generalizing copy with
  | nil => exact .nil (by rw [List.filterMap_nil, List.filterMap_nil, List.diff_nil, List.append_nil])
  | cons e events ih =>
      cases e with
      | remove row =>
          have removed : (Event.remove row :: events).filterMap Event.removed = row :: events.filterMap Event.removed := rfl
          have added : (Event.remove row :: events).filterMap Event.added = events.filterMap Event.added := rfl
          rw [removed] at there ⊢
          rw [added, List.diff_cons]
          have here : row ∈ copy := there.subset List.mem_cons_self
          have left : (events.filterMap Event.removed).Subperm (copy.erase row) := by
            have erased := there.erase row
            rwa [List.erase_cons_head] at erased
          obtain ⟨patched, done, same⟩ := ih left
          refine ⟨patched, ?_, same⟩
          rw [patchAll_cons, Event.patch, if_pos here]
          exact done
      | add row =>
          have removed : (Event.add row :: events).filterMap Event.removed = events.filterMap Event.removed := rfl
          have added : (Event.add row :: events).filterMap Event.added = row :: events.filterMap Event.added := rfl
          rw [removed] at there ⊢
          rw [added]
          obtain ⟨patched, done, same⟩ := @ih (copy ++ [row]) (there.trans (List.sublist_append_left _ _).subperm)
          refine ⟨patched, ?_, same.trans ?_⟩
          · rw [patchAll_cons]
            exact done
          · exact (diff_append_right there row _).trans (by rw [List.append_assoc, List.singleton_append])

section Map

variable {σ : Type} {f : ρ → σ}

theorem removed_map (events : List (Event ρ)) :
    (events.map (Event.map f)).filterMap Event.removed = (events.filterMap Event.removed).map f := by
  rw [List.filterMap_map, List.map_filterMap]
  refine List.filterMap_congr fun e _ => ?_
  cases e <;> rfl

theorem added_map (events : List (Event ρ)) :
    (events.map (Event.map f)).filterMap Event.added = (events.filterMap Event.added).map f := by
  rw [List.filterMap_map, List.map_filterMap]
  refine List.filterMap_congr fun e _ => ?_
  cases e <;> rfl

variable [DecidableEq κ] {key : σ → κ}

theorem Event.play_map (table : List ρ) (e : Event ρ) : (e.play (key ∘ f) table).map f = (e.map f).play key (table.map f) := by
  cases e with
  | remove row =>
      rw [Event.map, Event.play, Event.play, List.filter_map]
      rfl
  | add row => exact List.map_append

theorem playAll_map (table : List ρ) (events : List (Event ρ)) :
    (playAll (key ∘ f) table events).map f = playAll key (table.map f) (events.map (Event.map f)) := by
  induction events generalizing table with
  | nil => rfl
  | cons e events ih =>
      have rest := ih (e.play (key ∘ f) table)
      rw [Event.play_map] at rest
      exact rest

theorem AllFit.map {table : List ρ} {events : List (Event ρ)} (fits : AllFit (key ∘ f) table events) :
    AllFit key (table.map f) (events.map (Event.map f)) := by
  induction events generalizing table with
  | nil => trivial
  | cons e events ih =>
      have rest := ih fits.2
      rw [Event.play_map] at rest
      refine ⟨?_, rest⟩
      have first := fits.1
      cases e with
      | remove row => exact List.mem_map_of_mem first
      | add row =>
          rw [Event.map, Event.Fits, List.map_map]
          exact first

end Map

/-- The net stream, applied to a copy of what the table shows, leaves what it shows after. -/
theorem patches_net [DecidableEq κ] {key : ρ → κ} {view : ρ → τ} {table : List ρ} {events : List (Event ρ)} (keyed : Keyed key table)
    (fits : AllFit key table events) :
    Patches (table.map view) ((netEvents key view events).map (Event.map view)) ((playAll key table events).map view) := by
  have nets := nets_summarize keyed fits
  obtain ⟨gone, same, within⟩ := @Nets.removed_subperm _ _ _ _ _ _ view _ _ _ nets keyed
  have there : (((netEvents key view events).map (Event.map view)).filterMap Event.removed).Subperm (table.map view) := by
    rw [removed_map]
    exact ⟨gone.map view, same.map view, within.map view⟩
  refine (patches_of_subperm there).perm (.refl _) ?_
  rw [removed_map, added_map]
  exact nets.contents keyed (fits.keyed keyed)

end Bags
