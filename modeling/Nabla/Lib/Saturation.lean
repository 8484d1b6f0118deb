import Mathlib.Data.List.Perm.Subperm
import Mathlib.Data.List.Nodup
import Mathlib.Data.Set.Basic

/-! Saturation of two sets along the edges between them: a turn adds the left ends found
through the right set and then the right ends found through the left one, and the loop
breaks at the first turn that adds nothing. -/
namespace Saturation

section Loop

variable {σ κ : Type} (step : σ → σ) (size : σ → κ)

/-- The loop from a state: `turns` turns, the last of which leaves the size as it was. -/
inductive Breaks : σ → Nat → σ → Prop where
  | stop {s : σ} (same : size (step s) = size s) : Breaks s 1 (step s)
  | again {s r : σ} {turns : Nat} (grew : size (step s) ≠ size s) (rest : Breaks (step s) turns r) : Breaks s (turns + 1) r

variable {step size}

theorem Breaks.last {s r : σ} {turns : Nat} (breaks : Breaks step size s turns r) {Inv : σ → Prop}
    (kept : ∀ s, Inv s → Inv (step s)) (inv : Inv s) : ∃ t, Inv t ∧ size (step t) = size t ∧ r = step t := by
  induction breaks with
  | stop same => exact ⟨_, inv, same, rfl⟩
  | again _ _ ih => exact ih (kept _ inv)

theorem breaks_of_bounded {Inv : σ → Prop} {measure : σ → Nat} {bound : Nat} (kept : ∀ s, Inv s → Inv (step s))
    (bounded : ∀ s, Inv s → measure s ≤ bound) (grows : ∀ s, Inv s → size (step s) ≠ size s → measure s < measure (step s))
    {s : σ} (inv : Inv s) : ∃ turns r, turns ≤ bound - measure s + 1 ∧ Breaks step size s turns r := by
  generalize left : bound - measure s = fuel
  induction fuel using Nat.strong_induction_on generalizing s with
  | _ fuel ih =>
    by_cases same : size (step s) = size s
    · exact ⟨1, step s, by omega, .stop same⟩
    · have grown := grows s inv same
      have room := bounded (step s) (kept s inv)
      obtain ⟨turns, r, few, rest⟩ := ih (bound - measure (step s)) (by omega) (kept s inv) rfl
      exact ⟨turns + 1, r, by omega, .again same rest⟩

end Loop

section Insert

variable {γ : Type} [DecidableEq γ]

def insertAll (found more : List γ) : List γ := more.foldl (fun set x => set.insert x) found

theorem mem_insertAll {found more : List γ} {x : γ} : x ∈ insertAll found more ↔ x ∈ found ∨ x ∈ more := by
  induction more generalizing found with
  | nil => simp [insertAll]
  | cons y more ih =>
      have unfolded : insertAll found (y :: more) = insertAll (found.insert y) more := rfl
      rw [unfolded, ih, List.mem_insert_iff, List.mem_cons]
      constructor
      · rintro ((here | before) | later)
        · exact .inr (.inl here)
        · exact .inl before
        · exact .inr (.inr later)
      · rintro (before | here | later)
        · exact .inl (.inr before)
        · exact .inl (.inl here)
        · exact .inr later

theorem insertAll_nodup {found more : List γ} (nodup : found.Nodup) : (insertAll found more).Nodup := by
  induction more generalizing found with
  | nil => exact nodup
  | cons y more ih => exact ih nodup.insert

theorem length_le_insertAll (found more : List γ) : found.length ≤ (insertAll found more).length := by
  induction more generalizing found with
  | nil => exact le_refl _
  | cons y more ih => exact List.length_le_length_insert.trans (ih (found.insert y))

theorem subset_of_length {found more : List γ} (nodup : found.Nodup) (same : (insertAll found more).length = found.length) :
    more ⊆ found := by
  have kept : found ⊆ insertAll found more := fun x member => mem_insertAll.mpr (.inl member)
  have whole := (nodup.subperm kept).perm_of_length_le same.le
  intro x member
  exact whole.symm.subset (mem_insertAll.mpr (.inr member))

end Insert

section Edges

variable {α β : Type} (edges : List (α × β)) (keep : α → Bool)

/-- Closed along the edges: to the left for the ends that are kept, to the right for all. -/
structure Closed (X : Set α) (Y : Set β) : Prop where
  left : ∀ e ∈ edges, keep e.1 = true → e.2 ∈ Y → e.1 ∈ X
  right : ∀ e ∈ edges, e.1 ∈ X → e.2 ∈ Y

/-- Found from the start: without repetition, ends of edges beyond what was given, and in
every closed pair of sets around it. -/
structure FoundFrom (edges : List (α × β)) (keep : α → Bool) (start found : List α × List β) : Prop where
  nodup : found.1.Nodup ∧ found.2.Nodup
  given : start.1 ⊆ found.1 ∧ start.2 ⊆ found.2
  ends : found.1 ⊆ start.1 ++ edges.map Prod.fst ∧ found.2 ⊆ start.2 ++ edges.map Prod.snd
  least : ∀ X Y, Closed edges keep X Y → (∀ a ∈ start.1, a ∈ X) → (∀ b ∈ start.2, b ∈ Y) → (∀ a ∈ found.1, a ∈ X) ∧ ∀ b ∈ found.2, b ∈ Y

variable {edges keep}

theorem FoundFrom.refl {start : List α × List β} (left : start.1.Nodup) (right : start.2.Nodup) : FoundFrom edges keep start start where
  nodup := ⟨left, right⟩
  given := ⟨List.Subset.refl _, List.Subset.refl _⟩
  ends := ⟨List.subset_append_left _ _, List.subset_append_left _ _⟩
  least := fun _ _ _ inLeft inRight => ⟨inLeft, inRight⟩

theorem FoundFrom.length_le {start found : List α × List β} (found_from : FoundFrom edges keep start found) :
    found.1.length + found.2.length ≤ start.1.length + start.2.length + 2 * edges.length := by
  have left := (found_from.nodup.1.subperm found_from.ends.1).length_le
  have right := (found_from.nodup.2.subperm found_from.ends.2).length_le
  rw [List.length_append, List.length_map] at left right
  omega

variable [DecidableEq α] [DecidableEq β]

variable (edges keep) in
def turn (found : List α × List β) : List α × List β :=
  let left := insertAll found.1 ((edges.filter fun e => found.2.contains e.2 && keep e.1).map Prod.fst)
  (left, insertAll found.2 ((edges.filter fun e => left.contains e.1).map Prod.snd))

def sizes (found : List α × List β) : Nat × Nat := (found.1.length, found.2.length)

theorem mem_turn_left {found : List α × List β} {a : α} :
    a ∈ (turn edges keep found).1 ↔ a ∈ found.1 ∨ ∃ e ∈ edges, e.2 ∈ found.2 ∧ keep e.1 = true ∧ e.1 = a := by
  rw [turn, mem_insertAll]
  simp only [List.mem_map, List.mem_filter, Bool.and_eq_true, List.contains_iff_mem, and_assoc]

theorem mem_turn_right {found : List α × List β} {b : β} :
    b ∈ (turn edges keep found).2 ↔ b ∈ found.2 ∨ ∃ e ∈ edges, e.1 ∈ (turn edges keep found).1 ∧ e.2 = b := by
  rw [turn, mem_insertAll]
  simp only [List.mem_map, List.mem_filter, List.contains_iff_mem, and_assoc]

theorem FoundFrom.turn {start found : List α × List β} (found_from : FoundFrom edges keep start found) :
    FoundFrom edges keep start (turn edges keep found) where
  nodup := ⟨insertAll_nodup found_from.nodup.1, insertAll_nodup found_from.nodup.2⟩
  given :=
    ⟨fun _ member => mem_turn_left.mpr (.inl (found_from.given.1 member)), fun _ member => mem_turn_right.mpr (.inl (found_from.given.2 member))⟩
  ends := by
    constructor
    · intro a member
      rcases mem_turn_left.mp member with before | ⟨e, edge, -, -, rfl⟩
      · exact found_from.ends.1 before
      · exact List.mem_append_right _ (List.mem_map_of_mem edge)
    · intro b member
      rcases mem_turn_right.mp member with before | ⟨e, edge, -, rfl⟩
      · exact found_from.ends.2 before
      · exact List.mem_append_right _ (List.mem_map_of_mem edge)
  least := by
    intro X Y closed startLeft startRight
    obtain ⟨foundLeft, foundRight⟩ := found_from.least X Y closed startLeft startRight
    have left : ∀ a ∈ (Saturation.turn edges keep found).1, a ∈ X := by
      intro a member
      rcases mem_turn_left.mp member with before | ⟨e, edge, through, kept, rfl⟩
      · exact foundLeft a before
      · exact closed.left e edge kept (foundRight _ through)
    refine ⟨left, ?_⟩
    intro b member
    rcases mem_turn_right.mp member with before | ⟨e, edge, through, rfl⟩
    · exact foundRight b before
    · exact closed.right e edge (left _ through)

theorem closed_of_sizes {start found : List α × List β} (found_from : FoundFrom edges keep start found)
    (same : sizes (turn edges keep found) = sizes found) :
    Closed edges keep {a | a ∈ (turn edges keep found).1} {b | b ∈ (turn edges keep found).2} := by
  obtain ⟨leftSame, rightSame⟩ := Prod.mk.inj same
  have moreLeft := subset_of_length found_from.nodup.1 leftSame
  have moreRight := subset_of_length found_from.nodup.2 rightSame
  constructor
  · intro e edge kept through
    rcases mem_turn_right.mp through with before | ⟨e', edge', inLeft, same'⟩
    · exact mem_turn_left.mpr (.inr ⟨e, edge, before, kept, rfl⟩)
    · have old : e'.2 ∈ found.2 := by
        apply moreRight
        exact List.mem_map_of_mem (List.mem_filter.mpr ⟨edge', List.contains_iff_mem.mpr inLeft⟩)
      exact mem_turn_left.mpr (.inr ⟨e, edge, same' ▸ old, kept, rfl⟩)
  · intro e edge through
    exact mem_turn_right.mpr (.inr ⟨e, edge, through, rfl⟩)

/-- The loop breaks after at most two turns for each edge and one more, with the least
closed pair around its start. -/
theorem saturates {start : List α × List β} (left : start.1.Nodup) (right : start.2.Nodup) :
    ∃ turns r, turns ≤ 2 * edges.length + 1 ∧ Breaks (turn edges keep) sizes start turns r ∧ FoundFrom edges keep start r ∧
      Closed edges keep {a | a ∈ r.1} {b | b ∈ r.2} := by
  have given : FoundFrom edges keep start start := .refl left right
  have kept : ∀ found, FoundFrom edges keep start found → FoundFrom edges keep start (turn edges keep found) := fun _ before => before.turn
  have grows : ∀ found, FoundFrom edges keep start found → sizes (turn edges keep found) ≠ sizes found →
      found.1.length + found.2.length < (turn edges keep found).1.length + (turn edges keep found).2.length := by
    intro found _ grew
    have leftGrows : found.1.length ≤ (turn edges keep found).1.length := length_le_insertAll _ _
    have rightGrows : found.2.length ≤ (turn edges keep found).2.length := length_le_insertAll _ _
    have one : ¬((turn edges keep found).1.length = found.1.length ∧ (turn edges keep found).2.length = found.2.length) :=
      fun both => grew (Prod.ext both.1 both.2)
    omega
  have bounded : ∀ found, FoundFrom edges keep start found →
      found.1.length + found.2.length ≤ start.1.length + start.2.length + 2 * edges.length := fun _ before => before.length_le
  obtain ⟨turns, r, few, breaks⟩ := breaks_of_bounded kept bounded grows given
  obtain ⟨last, before, same, rfl⟩ := breaks.last kept given
  refine ⟨turns, _, ?_, breaks, before.turn, closed_of_sizes before same⟩
  omega

end Edges

end Saturation
