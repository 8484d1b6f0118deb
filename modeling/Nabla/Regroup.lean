import Nabla.Lib.Grouping
import Nabla.Lib.Keyed
import Nabla.Pending

/-! The groups of a rebuild: which views `group` brings together, and when that is all of
the views that share a shadow. -/
namespace Nabla
open Bags Grouping

/-- The relations a view shares shadows through. -/
def Pending.key (view : Pending) : List Nat := if view.shared then view.rels else []

/-- Two refreshing join views, connected by a chain of refreshing join views of the list,
each of which has a base relation in common with the next. -/
def Chained (pending : List Pending) (v w : Pending) : Prop :=
  Relation.ReflTransGen (fun a b => a ∈ pending ∧ b ∈ pending ∧ a.shared = true ∧ b.shared = true ∧
    ∃ relid ∈ a.rels, relid ∈ b.rels) v w

/-- What `run_pending` asks of the groups, which are built one after the other. -/
structure Regrouped (failed : Nat → Prop) (pending : List Pending) : Prop where
  /-- Every view is in one group, and in one place of it. -/
  once : (group pending).flatten.Perm pending
  /-- Views that share shadows are rebuilt from one consistent point. -/
  chained : ∀ v ∈ pending, ∀ w, v.shared = true → Chained pending v w → ∃ g ∈ group pending, v ∈ g ∧ w ∈ g
  /-- No shadow is snapshotted from two consistent points. -/
  single : ∀ earlier g middle g' later, group pending = earlier ++ g :: middle ++ g' :: later →
    ∀ relid, Resnapshots failed earlier g relid → ¬ Resnapshots failed (earlier ++ g :: middle) g' relid
  /-- No shadow is snapshotted after a view over it was built. -/
  settled : ∀ earlier g later, group pending = earlier ++ g :: later →
    ∀ relid, Resnapshots failed earlier g relid → ∀ g' ∈ earlier, ∀ v ∈ g', v.joins relid = false

/-- A first build comes after the rebuild of each shadow it extends: where the first refreshing
view over the table was built before, one that is chained to it is ahead in the list. -/
def FirstBuildsFollow (pending : List Pending) : Prop :=
  ∀ earlier v later, pending = earlier ++ v :: later → v.shared = false → ∀ relid, v.joins relid = true →
    ∀ w, (pending.find? fun u => u.shared && u.joins relid) = some w → w.populated = true → ∃ u ∈ earlier, Chained pending w u

theorem groupStep_place (groups : List (List Nat × List Pending)) (view : Pending) :
    groupStep groups view = place Pending.key groups view := by
  unfold groupStep place Pending.key
  cases view.shared with
  | true => rfl
  | false =>
      have none : (groups.findIdx? fun g => g.1.any ([] : List Nat).contains) = none := by
        rw [List.findIdx?_eq_none_iff]
        intro g _
        rw [List.any_eq_false]
        exact fun r _ => List.not_mem_nil ∘ List.contains_iff_mem.mp
      simp only [Bool.false_eq_true, if_false, none]

theorem group_greedy (pending : List Pending) : group pending = (greedy Pending.key pending).map Prod.snd := by
  have step : groupStep = place Pending.key := by
    funext groups view
    exact groupStep_place groups view
  rw [group, greedy, step]

theorem overlap_iff {v w : Pending} : Overlap Pending.key v w ↔
    v.shared = true ∧ w.shared = true ∧ ∃ relid ∈ v.rels, relid ∈ w.rels := by
  unfold Overlap Pending.key
  cases v.shared <;> cases w.shared <;> simp

theorem chained_iff (pending : List Pending) (v w : Pending) : Chained pending v w ↔ Linked Pending.key pending v w := by
  unfold Chained Linked
  simp only [overlap_iff]

theorem together_iff {pending : List Pending} {v w : Pending} :
    Together (greedy Pending.key pending) v w ↔ ∃ g ∈ group pending, v ∈ g ∧ w ∈ g := by
  rw [group_greedy]
  simp only [Together, List.mem_map, exists_exists_and_eq_and]

/-- The first element of a list that passes a test is the first of any part of it that has it. -/
theorem find?_of_sublist {α : Type} {test : α → Bool} {part whole : List α} (sublist : part.Sublist whole) (nodup : whole.Nodup) {a : α}
    (found : whole.find? test = some a) (member : a ∈ part) : part.find? test = some a := by
  induction sublist with
  | slnil => exact absurd member List.not_mem_nil
  | @cons part whole b sublist ih =>
      obtain ⟨new, nodup⟩ := List.nodup_cons.mp nodup
      by_cases passes : test b = true
      · rw [List.find?_cons_of_pos passes, Option.some.injEq] at found
        exact absurd (sublist.subset member) (found ▸ new)
      · rw [List.find?_cons_of_neg passes] at found
        exact ih nodup found member
  | @cons_cons part whole b sublist ih =>
      obtain ⟨new, nodup⟩ := List.nodup_cons.mp nodup
      by_cases passes : test b = true
      · rw [List.find?_cons_of_pos passes] at found ⊢
        exact found
      · rw [List.find?_cons_of_neg passes] at found ⊢
        refine ih nodup found ((List.mem_cons.mp member).resolve_left ?_)
        rintro rfl
        exact passes (List.find?_some found)

theorem Pending.joins_iff {view : Pending} {relid : Nat} : view.joins relid = true ↔ view.spec.isJoin = true ∧ relid ∈ view.rels := by
  rw [Pending.joins, Bool.and_eq_true, List.contains_iff_mem]

theorem Pending.shared_of_rebuild {view : Pending} (join : view.spec.isJoin = true) :
    view.rebuild = true ↔ view.shared = true ∧ view.populated = true := by
  rw [Pending.rebuild, Pending.shared, join, Bool.and_true, Bool.and_eq_true]

section Groups

variable {pending : List Pending} (ids : Keyed Pending.id pending)
include ids

theorem group_mem {v : Pending} : v ∈ pending ↔ ∃ g ∈ group pending, v ∈ g := by
  rw [(@greedy_grouped _ _ Pending.key _ _ ids.nodup).mem, group_greedy]
  simp only [List.mem_map, exists_exists_and_eq_and]

theorem group_chained {g : List Pending} {v w : Pending} (inGroups : g ∈ group pending) (left : v ∈ g) (right : w ∈ g) : Chained pending v w :=
  (chained_iff _ _ _).mpr ((@greedy_grouped _ _ Pending.key _ _ ids.nodup).linked v w (together_iff.mpr ⟨g, inGroups, left, right⟩))

omit ids in
theorem Chained.shared {v w : Pending} (chained : Chained pending v w) (shared : v.shared = true) : w.shared = true := by
  cases chained with
  | refl => exact shared
  | tail _ edge => exact edge.2.2.2.1

omit ids in
/-- Nothing is chained to a view that shares no shadow. -/
theorem Chained.alone {v w : Pending} (chained : Chained pending v w) (alone : v.shared = false) : w = v := by
  obtain rfl | ⟨u, edge, _⟩ := Relation.ReflTransGen.cases_head chained
  · rfl
  · exact absurd (alone.symm.trans edge.2.2.1) Bool.false_ne_true

omit ids in
theorem group_sublist {g : List Pending} (inGroups : g ∈ group pending) : g.Sublist pending := by
  rw [group_greedy] at inGroups
  obtain ⟨h, inGreedy, rfl⟩ := List.mem_map.mp inGroups
  exact (greedy_arrived pending).sublists h inGreedy

omit ids in
/-- Of a group that is built before another, a view is ahead of all of the other's. -/
theorem group_first : (group pending).Pairwise fun g g' => ∀ w ∈ g', ∃ v ∈ g, [v, w].Sublist pending := by
  rw [group_greedy, List.pairwise_map]
  exact (greedy_arrived pending).first

/-- The group of the first refreshing view over a table handles the table with that view. -/
theorem group_handler {g : List Pending} (inGroups : g ∈ group pending) {relid : Nat} {w : Pending} (inside : w ∈ g)
    (first : (pending.find? fun u => u.shared && u.joins relid) = some w) : g.find? (·.joins relid) = some w := by
  have shared : w.shared = true := by
    have passes := List.find?_some first
    rw [Bool.and_eq_true] at passes
    exact passes.1
  obtain ⟨passes, before, after, split, none⟩ :=
    List.find?_eq_some_iff_append.mp (find?_of_sublist (group_sublist inGroups) ids.nodup first inside)
  rw [shared, Bool.true_and] at passes
  refine List.find?_eq_some_iff_append.mpr ⟨passes, before, after, split, fun u earlier => ?_⟩
  have member : u ∈ g := split ▸ List.mem_append_left _ earlier
  have fails := none u earlier
  rwa [(group_chained ids inGroups inside member).shared shared, Bool.true_and] at fails

end Groups

/-- What comes before an item in a list without duplicates is in the part before it. -/
theorem mem_of_ahead {α : Type} {earlier later : List α} {u v : α} (nodup : (earlier ++ v :: later).Nodup)
    (ahead : [u, v].Sublist (earlier ++ v :: later)) : u ∈ earlier := by
  have apart : u ≠ v := fun same => (List.nodup_cons.mp (nodup.sublist ahead)).1 (same ▸ List.mem_singleton_self _)
  rcases List.mem_append.mp (ahead.subset List.mem_cons_self) with before | rest
  · exact before
  · have behind := (List.mem_cons.mp rest).resolve_left apart
    refine absurd ?_ (sublist_antisymm nodup ahead)
    exact ((List.singleton_sublist.mpr behind).cons_cons v).trans (List.sublist_append_right _ _)

/-- The groups keep first builds behind the rebuilds only if the list does. -/
theorem Regrouped.follows {pending : List Pending} (ids : Keyed Pending.id pending) {failed : Nat → Prop} (regrouped : Regrouped failed pending) :
    FirstBuildsFollow pending := by
  intro earlier v later split unshared relid joins w first populated
  have passes := List.find?_some first
  rw [Bool.and_eq_true] at passes
  have rebuild := (Pending.shared_of_rebuild (Pending.joins_iff.mp passes.2).1).mpr ⟨passes.1, populated⟩
  obtain ⟨g, inGroups, inside⟩ := (group_mem ids).mp (List.mem_of_find?_eq_some first)
  obtain ⟨own, inGroups', inside'⟩ := (group_mem ids).mp (split ▸ List.mem_append_right _ List.mem_cons_self : v ∈ pending)
  obtain ⟨before, after, groups⟩ := List.append_of_mem inGroups
  rw [groups, List.mem_append, List.mem_cons] at inGroups'
  rcases inGroups' with ahead | rfl | behind
  · have settled := regrouped.settled before g after groups relid ⟨w, group_handler ids inGroups inside first, .inl rebuild⟩ own ahead v inside'
    exact absurd (settled.symm.trans joins) Bool.false_ne_true
  · exact absurd (unshared.symm.trans ((group_chained ids inGroups inside inside').shared passes.1)) Bool.false_ne_true
  · have order := @group_first pending
    rw [groups, List.pairwise_append, List.pairwise_cons] at order
    obtain ⟨u, inG, ahead⟩ := order.2.1.1 own behind v inside'
    rw [split] at ahead
    exact ⟨u, mem_of_ahead (split ▸ ids.nodup) ahead, group_chained ids inGroups inside inG⟩

end Nabla
