import Mathlib.Data.List.Nodup
import Mathlib.Data.List.Induction
import Mathlib.Data.List.Pairwise
import Mathlib.Data.List.Perm.Basic
import Mathlib.Logic.Relation

/-! Greedy grouping by overlap: items arrive one by one, and each joins the first group
that has a key in common with it. It computes the connected components exactly when no
item arrives between two groups that were apart until then. -/
namespace Grouping

variable {α β : Type} (key : α → List β)

section Place

variable [DecidableEq β]

def place (groups : List (List β × List α)) (a : α) : List (List β × List α) :=
  match groups.findIdx? fun g => g.1.any (key a).contains with
  | some i => groups.modify i fun g => (g.1 ++ key a, g.2 ++ [a])
  | none => groups ++ [(key a, [a])]

def greedy (items : List α) : List (List β × List α) := items.foldl (place key) []

end Place

def Overlap (a b : α) : Prop := ∃ r ∈ key a, r ∈ key b

/-- Connected by a chain of items, each of which shares a key with the next. -/
def Linked (items : List α) : α → α → Prop :=
  Relation.ReflTransGen fun a b => a ∈ items ∧ b ∈ items ∧ Overlap key a b

def Together (groups : List (List β × List α)) (a b : α) : Prop := ∃ g ∈ groups, a ∈ g.2 ∧ b ∈ g.2

variable {key}

theorem Overlap.symm {a b : α} (overlap : Overlap key a b) : Overlap key b a := by
  obtain ⟨r, left, right⟩ := overlap
  exact ⟨r, right, left⟩

theorem Linked.symm {items : List α} {a b : α} (linked : Linked key items a b) : Linked key items b a := by
  induction linked with
  | refl => exact .refl
  | tail _ edge ih => exact .head ⟨edge.2.1, edge.1, edge.2.2.symm⟩ ih

theorem Linked.mono {items items' : List α} (included : items ⊆ items') {a b : α} (linked : Linked key items a b) :
    Linked key items' a b :=
  Relation.ReflTransGen.mono (fun _ _ edge => ⟨included edge.1, included edge.2.1, edge.2.2⟩) _ _ linked

theorem Linked.edge {items : List α} {a b : α} (left : a ∈ items) (right : b ∈ items) (overlap : Overlap key a b) :
    Linked key items a b :=
  .single ⟨left, right, overlap⟩

/-- What placing an item does: it joins one group, or starts one. -/
inductive Placed (key : α → List β) (groups : List (List β × List α)) (a : α) : List (List β × List α) → Prop where
  | joins (before : List (List β × List α)) (g : List β × List α) (after : List (List β × List α)) :
      groups = before ++ g :: after → (∃ r ∈ g.1, r ∈ key a) →
      Placed key groups a (before ++ (g.1 ++ key a, g.2 ++ [a]) :: after)
  | starts : (∀ g ∈ groups, ∀ r ∈ g.1, r ∉ key a) → Placed key groups a (groups ++ [(key a, [a])])

structure Grouped (key : α → List β) (items : List α) (groups : List (List β × List α)) : Prop where
  keys : ∀ g ∈ groups, ∀ r, r ∈ g.1 ↔ ∃ b ∈ g.2, r ∈ key b
  once : (groups.flatMap Prod.snd).Perm items
  linked : ∀ a b, Together groups a b → Linked key items a b

theorem Grouped.mem {items : List α} {groups : List (List β × List α)} (grouped : Grouped key items groups) {a : α} :
    a ∈ items ↔ ∃ g ∈ groups, a ∈ g.2 := by
  rw [← grouped.once.mem_iff, List.mem_flatMap]

theorem Grouped.unique {items : List α} {groups : List (List β × List α)} (grouped : Grouped key items groups)
    (nodup : items.Nodup) {g h : List β × List α} (left : g ∈ groups) (right : h ∈ groups) {a : α} (inLeft : a ∈ g.2)
    (inRight : a ∈ h.2) : g = h := by
  by_contra apart
  have flat := (grouped.once.nodup_iff).mpr nodup
  rw [List.nodup_flatMap] at flat
  have symm : Std.Symm (fun g h : List β × List α => g.2.Disjoint h.2) := ⟨fun _ _ disjoint _ left right => disjoint right left⟩
  have disjoint : groups.Pairwise fun g h => g.2.Disjoint h.2 := flat.2
  exact disjoint.forall left right apart inLeft inRight

theorem Grouped.trans {items : List α} {groups : List (List β × List α)} (grouped : Grouped key items groups)
    (nodup : items.Nodup) {a b c : α} (first : Together groups a b) (second : Together groups b c) : Together groups a c := by
  obtain ⟨g, left, inA, inB⟩ := first
  obtain ⟨h, right, inB', inC⟩ := second
  obtain rfl := grouped.unique nodup left right inB inB'
  exact ⟨g, left, inA, inC⟩

/-- Two earlier items are together after the step only if they were before. -/
theorem Placed.together {groups groups' : List (List β × List α)} {v : α} (placed : Placed key groups v groups') {a b : α}
    (left : a ≠ v) (right : b ≠ v) : Together groups' a b ↔ Together groups a b := by
  cases placed with
  | joins before g after split shares =>
      subst split
      constructor
      · rintro ⟨h, member, inA, inB⟩
        rcases List.mem_append.mp member with earlier | rest
        · exact ⟨h, List.mem_append_left _ earlier, inA, inB⟩
        rcases List.mem_cons.mp rest with rfl | later
        · simp only [List.mem_append, List.mem_singleton, left, right, or_false] at inA inB
          exact ⟨g, List.mem_append_right _ List.mem_cons_self, inA, inB⟩
        · exact ⟨h, List.mem_append_right _ (List.mem_cons_of_mem _ later), inA, inB⟩
      · rintro ⟨h, member, inA, inB⟩
        rcases List.mem_append.mp member with earlier | rest
        · exact ⟨h, List.mem_append_left _ earlier, inA, inB⟩
        rcases List.mem_cons.mp rest with rfl | later
        · exact ⟨_, List.mem_append_right _ List.mem_cons_self, List.mem_append_left _ inA, List.mem_append_left _ inB⟩
        · exact ⟨h, List.mem_append_right _ (List.mem_cons_of_mem _ later), inA, inB⟩
  | starts apart =>
      constructor
      · rintro ⟨h, member, inA, inB⟩
        rcases List.mem_append.mp member with earlier | new
        · exact ⟨h, earlier, inA, inB⟩
        · obtain rfl := List.mem_singleton.mp new
          exact absurd (List.mem_singleton.mp inA) left
      · rintro ⟨h, member, inA, inB⟩
        exact ⟨h, List.mem_append_left _ member, inA, inB⟩

/-- An earlier item is together with the new one when they overlap, and only when it is
linked to one that does. -/
theorem Placed.new {groups groups' : List (List β × List α)} {v : α} (placed : Placed key groups v groups') {a : α}
    (earlier : a ≠ v) (together : Together groups' a v) (fresh : ∀ g ∈ groups, v ∉ g.2) :
    ∃ g ∈ groups, a ∈ g.2 ∧ ∃ r ∈ g.1, r ∈ key v := by
  obtain ⟨h, member, inA, inV⟩ := together
  cases placed with
  | joins before g after split shares =>
      subst split
      rcases List.mem_append.mp member with first | rest
      · exact absurd inV (fresh h (List.mem_append_left _ first))
      rcases List.mem_cons.mp rest with rfl | later
      · simp only [List.mem_append, List.mem_singleton, earlier, or_false] at inA
        exact ⟨g, List.mem_append_right _ List.mem_cons_self, inA, shares⟩
      · exact absurd inV (fresh h (List.mem_append_right _ (List.mem_cons_of_mem _ later)))
  | starts apart =>
      rcases List.mem_append.mp member with first | new
      · exact absurd inV (fresh h first)
      · obtain rfl := List.mem_singleton.mp new
        exact absurd (List.mem_singleton.mp inA) earlier

theorem Placed.self {groups groups' : List (List β × List α)} {v : α} (placed : Placed key groups v groups') :
    Together groups' v v := by
  cases placed with
  | joins before g after split shares =>
      have inside : v ∈ g.2 ++ [v] := List.mem_append_right _ List.mem_cons_self
      exact ⟨_, List.mem_append_right _ List.mem_cons_self, inside, inside⟩
  | starts apart => exact ⟨_, List.mem_append_right _ List.mem_cons_self, List.mem_cons_self, List.mem_cons_self⟩

theorem Grouped.place {items : List α} {groups groups' : List (List β × List α)} {v : α} (grouped : Grouped key items groups)
    (placed : Placed key groups v groups') (nodup : (items ++ [v]).Nodup) : Grouped key (items ++ [v]) groups' := by
  have new : v ∉ items := fun member => (List.disjoint_of_nodup_append nodup) member List.mem_cons_self
  have fresh : ∀ g ∈ groups, v ∉ g.2 := fun g member inside => new (grouped.mem.mpr ⟨g, member, inside⟩)
  have last : v ∈ items ++ [v] := List.mem_append_right _ List.mem_cons_self
  have earlier : items ⊆ items ++ [v] := List.subset_append_left _ _
  have link : ∀ a, a ≠ v → Together groups' a v → Linked key (items ++ [v]) a v := by
    intro a apart together
    obtain ⟨g, member, inA, r, within, shared⟩ := placed.new apart together fresh
    obtain ⟨b, inB, owned⟩ := (grouped.keys g member r).mp within
    refine ((grouped.linked a b ⟨g, member, inA, inB⟩).mono earlier).trans (Linked.edge (earlier ?_) last ⟨r, owned, shared⟩)
    exact grouped.mem.mpr ⟨g, member, inB⟩
  refine ⟨?_, ?_, ?_⟩
  · intro h member r
    cases placed with
    | joins before g after split shares =>
        subst split
        rcases List.mem_append.mp member with first | rest
        · exact grouped.keys h (List.mem_append_left _ first) r
        rcases List.mem_cons.mp rest with rfl | later
        · have old := grouped.keys g (List.mem_append_right _ List.mem_cons_self) r
          simp only [List.mem_append, List.mem_singleton, or_and_right, exists_or, exists_eq_left, old]
        · exact grouped.keys h (List.mem_append_right _ (List.mem_cons_of_mem _ later)) r
    | starts apart =>
        rcases List.mem_append.mp member with first | new
        · exact grouped.keys h first r
        · obtain rfl := List.mem_singleton.mp new
          simp only [List.mem_singleton, exists_eq_left]
  · cases placed with
    | joins before g after split shares =>
        subst split
        have once := grouped.once
        rw [List.flatMap_append, List.flatMap_cons] at once ⊢
        refine List.Perm.trans ?_ (once.append_right [v])
        rw [List.append_assoc, List.append_assoc, List.append_assoc]
        exact List.Perm.append_left _ (List.Perm.append_left _ List.perm_append_comm)
    | starts apart =>
        rw [List.flatMap_append, List.flatMap_singleton]
        exact grouped.once.append_right [v]
  · intro a b together
    by_cases left : a = v
    · subst left
      by_cases right : b = a
      · rw [right]
        exact .refl
      · obtain ⟨h, member, inA, inB⟩ := together
        exact (link b right ⟨h, member, inB, inA⟩).symm
    · by_cases right : b = v
      · subst right
        exact link a left together
      · exact (grouped.linked a b ((placed.together left right).mp together)).mono earlier

theorem Placed.overlap {groups groups' : List (List β × List α)} {v : α} (placed : Placed key groups v groups') {items : List α}
    (grouped : Grouped key items groups) (nodup : items.Nodup)
    (together : ∀ a ∈ items, ∀ b ∈ items, Overlap key a v → Overlap key b v → Together groups a b) {a : α}
    (member : a ∈ items) (overlap : Overlap key a v) : Together groups' a v := by
  obtain ⟨g, inGroups, inside⟩ := grouped.mem.mp member
  obtain ⟨r, owned, shared⟩ := overlap
  have within := (grouped.keys g inGroups r).mpr ⟨a, inside, owned⟩
  cases placed with
  | joins before h after split shares =>
      subst split
      have inH : h ∈ before ++ h :: after := List.mem_append_right _ List.mem_cons_self
      obtain ⟨r', within', shared'⟩ := shares
      obtain ⟨b, inB, owned'⟩ := (grouped.keys h inH r').mp within'
      obtain ⟨h', inH', inA, inB'⟩ := together a member b (grouped.mem.mpr ⟨h, inH, inB⟩) ⟨r, owned, shared⟩
        ⟨r', owned', shared'⟩
      obtain rfl := grouped.unique nodup inH' inH inB' inB
      exact ⟨_, List.mem_append_right _ List.mem_cons_self, List.mem_append_left _ inA,
        List.mem_append_right _ List.mem_cons_self⟩
  | starts apart => exact absurd shared (apart g inGroups r within)

theorem sublist_antisymm {items : List α} (nodup : items.Nodup) {a b : α} (order : [a, b].Sublist items) : ¬ [b, a].Sublist items := by
  induction items with
  | nil => cases order
  | cons c items ih =>
      obtain ⟨new, nodup⟩ := List.nodup_cons.mp nodup
      intro back
      cases order with
      | cons _ order =>
          cases back with
          | cons _ back => exact ih nodup order back
          | cons_cons _ _ => exact new (order.subset (List.mem_cons_of_mem _ List.mem_cons_self))
      | cons_cons _ order =>
          cases back with
          | cons _ back => exact new (back.subset (List.mem_cons_of_mem _ List.mem_cons_self))
          | cons_cons _ _ => exact new (order.subset List.mem_cons_self)
/-- The groups as their items arrived: each keeps the order, and one that stands before
another has an item that came before all of the other's. -/
structure Arrived (items : List α) (groups : List (List β × List α)) : Prop where
  sublists : ∀ g ∈ groups, g.2.Sublist items
  inhabited : ∀ g ∈ groups, ∃ a, a ∈ g.2
  first : groups.Pairwise fun g h => ∀ b ∈ h.2, ∃ a ∈ g.2, [a, b].Sublist items

theorem sublist_last {items : List α} {a : α} (member : a ∈ items) (v : α) : [a, v].Sublist (items ++ [v]) :=
  (List.singleton_sublist.mpr member).append (List.Sublist.refl [v])

theorem Arrived.place {items : List α} {groups groups' : List (List β × List α)} {v : α} (arrived : Arrived items groups)
    (placed : Placed key groups v groups') : Arrived (items ++ [v]) groups' := by
  have grown : items.Sublist (items ++ [v]) := List.sublist_append_left items [v]
  have member : ∀ {g}, g ∈ groups → ∃ a ∈ g.2, a ∈ items := by
    intro g inGroups
    obtain ⟨a, inside⟩ := arrived.inhabited g inGroups
    exact ⟨a, inside, (arrived.sublists g inGroups).subset inside⟩
  have kept : groups.Pairwise fun g h => ∀ b ∈ h.2, ∃ a ∈ g.2, [a, b].Sublist (items ++ [v]) :=
    arrived.first.imp fun before b inside => (before b inside).imp fun a both => ⟨both.1, both.2.trans grown⟩
  cases placed with
  | joins before g after split shares =>
      subst split
      obtain ⟨earlier, later, across⟩ := List.pairwise_append.mp kept
      obtain ⟨ahead, rest⟩ := List.pairwise_cons.mp later
      refine ⟨fun h inGroups => ?_, fun h inGroups => ?_, ?_⟩
      · rcases List.mem_append.mp inGroups with old | new
        · exact (arrived.sublists h (List.mem_append_left _ old)).trans grown
        rcases List.mem_cons.mp new with rfl | old
        · exact (arrived.sublists g (List.mem_append_right _ List.mem_cons_self)).append (List.Sublist.refl [v])
        · exact (arrived.sublists h (List.mem_append_right _ (List.mem_cons_of_mem _ old))).trans grown
      · rcases List.mem_append.mp inGroups with old | new
        · exact arrived.inhabited h (List.mem_append_left _ old)
        rcases List.mem_cons.mp new with rfl | old
        · exact ⟨v, List.mem_append_right _ List.mem_cons_self⟩
        · exact arrived.inhabited h (List.mem_append_right _ (List.mem_cons_of_mem _ old))
      · refine List.pairwise_append.mpr ⟨earlier, List.pairwise_cons.mpr ⟨fun h inside b within => ?_, rest⟩, fun h inside h' within b inB => ?_⟩
        · obtain ⟨a, inA, order⟩ := ahead h inside b within
          exact ⟨a, List.mem_append_left _ inA, order⟩
        · rcases List.mem_cons.mp within with rfl | old
          · rcases List.mem_append.mp inB with before' | new
            · exact across h inside g List.mem_cons_self b before'
            · obtain rfl := List.mem_singleton.mp new
              obtain ⟨a, inA, here⟩ := member (List.mem_append_left _ inside)
              exact ⟨a, inA, sublist_last here b⟩
          · exact across h inside h' (List.mem_cons_of_mem _ old) b inB
  | starts apart =>
      refine ⟨fun h inGroups => ?_, fun h inGroups => ?_, ?_⟩
      · rcases List.mem_append.mp inGroups with old | new
        · exact (arrived.sublists h old).trans grown
        · obtain rfl := List.mem_singleton.mp new
          exact List.sublist_append_right items [v]
      · rcases List.mem_append.mp inGroups with old | new
        · exact arrived.inhabited h old
        · obtain rfl := List.mem_singleton.mp new
          exact ⟨v, List.mem_singleton_self v⟩
      · refine List.pairwise_append.mpr ⟨kept, List.pairwise_singleton _ _, fun h inside h' within b inB => ?_⟩
        obtain rfl := List.mem_singleton.mp within
        obtain rfl := List.mem_singleton.mp inB
        obtain ⟨a, inA, here⟩ := member inside
        exact ⟨a, inA, sublist_last here b⟩

section Greedy

variable [DecidableEq β]

theorem place_placed (groups : List (List β × List α)) (a : α) : Placed key groups a (place key groups a) := by
  unfold place
  cases found : groups.findIdx? fun g => g.1.any (key a).contains with
  | none =>
      rw [List.findIdx?_eq_none_iff] at found
      refine .starts fun g member r within shared => ?_
      have apart := found g member
      rw [List.any_eq_false] at apart
      exact apart r within (List.contains_iff_mem.mpr shared)
  | some i =>
      obtain ⟨inside, shares, _⟩ := List.findIdx?_eq_some_iff_getElem.mp found
      obtain ⟨r, within, shared⟩ := List.any_eq_true.mp shares
      dsimp only
      rw [List.modify_eq_take_cons_drop inside]
      refine .joins (groups.take i) groups[i] (groups.drop (i + 1)) ?_ ⟨r, within, List.contains_iff_mem.mp shared⟩
      rw [List.getElem_cons_drop, List.take_append_drop]

theorem greedy_append (items : List α) (v : α) : greedy key (items ++ [v]) = place key (greedy key items) v := by
  rw [greedy, List.foldl_append]
  rfl

theorem greedy_grouped {items : List α} (nodup : items.Nodup) : Grouped key items (greedy key items) := by
  induction items using List.reverseRecOn with
  | nil =>
      refine ⟨fun g member => absurd member List.not_mem_nil, .refl _, ?_⟩
      rintro a b ⟨g, member, _⟩
      exact absurd member List.not_mem_nil
  | append_singleton items v ih =>
      rw [greedy_append]
      exact (ih (nodup.sublist (List.sublist_append_left _ _))).place (place_placed _ v) nodup

theorem greedy_arrived (items : List α) : Arrived items (greedy key items) := by
  induction items using List.reverseRecOn with
  | nil => exact ⟨fun g member => absurd member List.not_mem_nil, fun g member => absurd member List.not_mem_nil, List.Pairwise.nil⟩
  | append_singleton items v ih =>
      rw [greedy_append]
      exact ih.place (place_placed _ v)

end Greedy

end Grouping
