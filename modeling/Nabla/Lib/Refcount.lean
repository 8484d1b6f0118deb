import Nabla.Lib.Keyed
import Mathlib.Data.List.Count
import Mathlib.Algebra.Order.Group.Int

/-! Reference counts: a table of counted rows that is exact for the number of holders of
each key, and how taking and giving up references keeps it so. -/
namespace Refcount
open Bags

variable {α κ : Type} {key : α → κ} {count : α → Int}

/-- The table has a row for every key that is held, with the number of its holders. -/
structure Exact (key : α → κ) (count : α → Int) (table : List α) (holders : κ → Nat) : Prop where
  keyed : Keyed key table
  counted : ∀ a ∈ table, count a = holders (key a)
  held : ∀ k, k ∈ table.map key ↔ 0 < holders k

theorem Exact.nil : Exact key count [] fun _ => 0 where
  keyed := Keyed.nil key
  counted := fun _ member => absurd member List.not_mem_nil
  held := fun _ => ⟨fun member => absurd member List.not_mem_nil, fun none => absurd none (Nat.lt_irrefl 0)⟩

theorem Exact.congr {table : List α} {holders holders' : κ → Nat} (exact : Exact key count table holders)
    (same : ∀ k, holders k = holders' k) : Exact key count table holders' := by
  rwa [← (funext same : holders = holders')]

theorem Exact.of_same {table table' : List α} {holders : κ → Nat} (exact : Exact key count table holders)
    (same : table'.map (fun a => (key a, count a)) = table.map fun a => (key a, count a)) : Exact key count table' holders := by
  have keys : table'.map key = table.map key := by
    have both := congrArg (List.map Prod.fst) same
    rwa [List.map_map, List.map_map] at both
  refine ⟨?_, fun b member => ?_, fun k => ?_⟩
  · rw [Keyed, keys]
    exact exact.keyed
  · have paired : (key b, count b) ∈ table.map fun a => (key a, count a) := same ▸ List.mem_map_of_mem member
    obtain ⟨a, within, eq⟩ := List.mem_map.mp paired
    obtain ⟨sameKey, sameCount⟩ := Prod.mk.inj eq
    rw [← sameKey, ← sameCount]
    exact exact.counted a within
  · rw [keys]
    exact exact.held k

variable [DecidableEq κ]

def more (holders : κ → Nat) (k : κ) : κ → Nat := fun j => holders j + if j = k then 1 else 0

def fewer (holders : κ → Nat) (k : κ) : κ → Nat := fun j => holders j - if j = k then 1 else 0

theorem more_self (holders : κ → Nat) (k : κ) : more holders k k = holders k + 1 := by rw [more, if_pos rfl]

theorem more_other (holders : κ → Nat) {k j : κ} (other : j ≠ k) : more holders k j = holders j := by
  rw [more, if_neg other, Nat.add_zero]

theorem fewer_self (holders : κ → Nat) (k : κ) : fewer holders k k = holders k - 1 := by rw [fewer, if_pos rfl]

theorem fewer_other (holders : κ → Nat) {k j : κ} (other : j ≠ k) : fewer holders k j = holders j := by
  rw [fewer, if_neg other, Nat.sub_zero]

theorem map_key_here {f : α → α} (keys : ∀ a, key (f a) = key a) (k : κ) (table : List α) :
    (table.map fun a => if key a = k then f a else a).map key = table.map key := by
  rw [List.map_map]
  refine List.map_congr_left fun a _ => ?_
  rw [Function.comp_apply]
  split
  · exact keys a
  · rfl

/-- A key nobody holds gets a row of its own. -/
theorem Exact.insert {table : List α} {holders : κ → Nat} (exact : Exact key count table holders) {a : α}
    (free : key a ∉ table.map key) (one : count a = 1) : Exact key count (table ++ [a]) (more holders (key a)) where
  keyed := by
    rw [Keyed, List.map_append, List.map_singleton]
    exact List.nodup_append.mpr ⟨exact.keyed, List.nodup_singleton _, fun j old k new => by
      rw [List.mem_singleton.mp new]
      exact fun same => free (same ▸ old)⟩
  counted := by
    intro b member
    rcases List.mem_append.mp member with old | new
    · have other : key b ≠ key a := fun same => free (same ▸ List.mem_map_of_mem old)
      rw [more_other holders other]
      exact exact.counted b old
    · obtain rfl := List.mem_singleton.mp new
      have none : holders (key b) = 0 := Nat.eq_zero_of_not_pos fun some => free ((exact.held _).mpr some)
      rw [more_self, none, one]
      rfl
  held := by
    intro k
    rw [List.map_append, List.mem_append, List.map_singleton, List.mem_singleton]
    by_cases here : k = key a
    · subst here
      rw [more_self]
      exact ⟨fun _ => Nat.succ_pos _, fun _ => .inr rfl⟩
    · rw [more_other holders here, ← exact.held k]
      exact ⟨fun either => either.resolve_right here, .inl⟩

theorem Exact.acquire {table : List α} {holders : κ → Nat} (exact : Exact key count table holders) {k : κ} {f : α → α}
    (there : k ∈ table.map key) (keys : ∀ a, key (f a) = key a) (counts : ∀ a, count (f a) = count a + 1) :
    Exact key count (table.map fun a => if key a = k then f a else a) (more holders k) := by
  have same := map_key_here keys k table
  refine ⟨?_, fun b member => ?_, fun j => ?_⟩
  · rw [Keyed, same]
    exact exact.keyed
  · obtain ⟨a, within, rfl⟩ := List.mem_map.mp member
    have before := exact.counted a within
    by_cases here : key a = k
    · rw [if_pos here, keys, counts, before, here, more_self]
      rfl
    · rw [if_neg here, more_other holders here]
      exact before
  · rw [same, exact.held j]
    by_cases here : j = k
    · subst here
      rw [more_self]
      exact ⟨fun _ => Nat.succ_pos _, fun _ => (exact.held j).mp there⟩
    · rw [more_other holders here]

theorem Exact.release {table : List α} {holders : κ → Nat} (exact : Exact key count table holders) {k : κ} {f : α → α}
    (there : 0 < holders k) (keys : ∀ a, key (f a) = key a) (counts : ∀ a, count (f a) = count a - 1) :
    Exact key count ((table.map fun a => if key a = k then f a else a).filter fun a => !(decide (key a = k) && decide (count a ≤ 0)))
      (fewer holders k) := by
  have same := map_key_here keys k table
  have counted : ∀ b ∈ table.map fun a => if key a = k then f a else a, count b = fewer holders k (key b) := by
    intro b member
    obtain ⟨a, within, rfl⟩ := List.mem_map.mp member
    have before := exact.counted a within
    by_cases here : key a = k
    · rw [if_pos here, keys, counts, before, here, fewer_self]
      omega
    · rw [if_neg here, fewer_other holders here]
      exact before
  refine ⟨?_, fun b member => counted b (List.mem_filter.mp member).1, fun j => ?_⟩
  · refine Keyed.filter ?_ _
    rw [Keyed, same]
    exact exact.keyed
  · have row : j ∈ (table.map fun a => if key a = k then f a else a).map key ↔ 0 < holders j := by
      rw [same, exact.held j]
    constructor
    · intro member
      obtain ⟨b, within, rfl⟩ := List.mem_map.mp member
      obtain ⟨inTable, kept⟩ := List.mem_filter.mp within
      by_cases here : key b = k
      · rw [decide_eq_true here, Bool.true_and, Bool.not_eq_true', decide_eq_false_iff_not] at kept
        have exact' := counted b inTable
        omega
      · rw [fewer_other holders here]
        exact row.mp (List.mem_map_of_mem inTable)
    · intro left
      have before : 0 < holders j := Nat.lt_of_lt_of_le left (Nat.sub_le _ _)
      obtain ⟨b, inTable, rfl⟩ := List.mem_map.mp (row.mpr before)
      refine List.mem_map_of_mem (List.mem_filter.mpr ⟨inTable, ?_⟩)
      have exact' := counted b inTable
      have some : ¬ count b ≤ 0 := by omega
      rw [decide_eq_false some, Bool.and_false, Bool.not_false]

end Refcount
