import Mathlib.Data.List.Basic
import Mathlib.Data.List.Nodup
import Mathlib.Data.List.Perm.Lattice
import Mathlib.Data.List.Dedup

/-! Tables as bags of rows: rows found by a key, and the table that holds one
aggregate row for each key of a bag. -/
namespace Bags

variable {α β κ : Type}

def Keyed (key : α → κ) (table : List α) : Prop := (table.map key).Nodup

theorem Keyed.nil (key : α → κ) : Keyed key [] := List.nodup_nil

theorem Keyed.perm {key : α → κ} {table table' : List α} (keyed : Keyed key table)
    (same : table.Perm table') : Keyed key table' := (same.map key).nodup_iff.mp keyed

theorem Keyed.nodup {key : α → κ} {table : List α} (keyed : Keyed key table) : table.Nodup :=
  List.Nodup.of_map key keyed

theorem Keyed.eq_of_mem {key : α → κ} {table : List α} (keyed : Keyed key table) {a b : α}
    (left : a ∈ table) (right : b ∈ table) (same : key a = key b) : a = b :=
  List.inj_on_of_nodup_map keyed left right same

theorem Keyed.filter {key : α → κ} {table : List α} (keyed : Keyed key table) (p : α → Bool) :
    Keyed key (table.filter p) := List.Nodup.sublist (List.filter_sublist.map key) keyed

/-- A row under a free key. -/
theorem Keyed.concat {key : α → κ} {table : List α} {a : α} (keyed : Keyed key table) (free : key a ∉ table.map key) :
    Keyed key (table ++ [a]) := by
  rw [Keyed, List.map_append, List.map_singleton]
  refine List.Nodup.append keyed (List.nodup_singleton _) ?_
  rw [List.disjoint_singleton]
  exact free

variable [DecidableEq κ]

theorem Keyed.delete_perm {key : α → κ} {table rest : List α} {a : α} (keyed : Keyed key table)
    (split : table.Perm (a :: rest)) : (table.filter fun b => !decide (key b = key a)).Perm rest := by
  have front : Keyed key (a :: rest) := keyed.perm split
  have absent : ∀ b ∈ rest, key b ≠ key a := by
    intro b member same
    exact (List.nodup_cons.mp front).1 (List.mem_map.mpr ⟨b, member, same⟩)
  have kept : rest.filter (fun b => !decide (key b = key a)) = rest := by
    apply List.filter_eq_self.mpr
    intro b member
    simp only [absent b member, decide_false, Bool.not_false]
  have filtered := split.filter fun b => !decide (key b = key a)
  rwa [List.filter_cons_of_neg (by simp only [decide_true, Bool.not_true, Bool.false_eq_true,
    not_false_eq_true]), kept] at filtered

theorem Keyed.find_of_mem {key : α → κ} {table : List α} (keyed : Keyed key table) {a : α}
    (member : a ∈ table) : table.find? (fun b => decide (key b = key a)) = some a := by
  cases found : table.find? (fun b => decide (key b = key a)) with
  | none =>
      have missing := List.find?_eq_none.mp found a member
      simp only [decide_true, not_true_eq_false] at missing
  | some b =>
      have same : key b = key a := by simpa only [decide_eq_true_eq] using List.find?_some found
      rw [keyed.eq_of_mem (List.mem_of_find?_eq_some found) member same]

/-- `bag` and `bag'` hold the same rows under every key but `k`. -/
def AgreeOff (key : α → κ) (k : κ) (bag bag' : List α) : Prop :=
  (bag.filter fun x => !decide (key x = k)).Perm (bag'.filter fun x => !decide (key x = k))

def group (key : α → κ) (k : κ) (bag : List α) : List α := bag.filter fun x => decide (key x = k)

theorem mem_group {key : α → κ} {k : κ} {bag : List α} {x : α} :
    x ∈ group key k bag ↔ x ∈ bag ∧ key x = k := by
  simp only [group, List.mem_filter, decide_eq_true_eq]

theorem group_perm {key : α → κ} {bag bag' : List α} (same : bag.Perm bag') (k : κ) :
    (group key k bag).Perm (group key k bag') := same.filter _

theorem group_eq_nil {key : α → κ} {k : κ} {bag : List α} :
    group key k bag = [] ↔ ∀ x ∈ bag, key x ≠ k := by
  simp only [group, List.filter_eq_nil_iff, decide_eq_true_eq, ne_eq]

theorem group_eq_self {key : α → κ} {k : κ} {bag : List α} (all : ∀ x ∈ bag, key x = k) :
    group key k bag = bag := by
  apply List.filter_eq_self.mpr
  intro x member
  exact decide_eq_true (all x member)

theorem Keyed.group_of_mem {key : α → κ} {table : List α} (keyed : Keyed key table) {a : α} (member : a ∈ table) :
    group key (key a) table = [a] := by
  have single : (group key (key a) table).Nodup := keyed.nodup.filter _
  have only : ∀ b ∈ group key (key a) table, b = a := by
    intro b within
    obtain ⟨inTable, same⟩ := mem_group.mp within
    exact keyed.eq_of_mem inTable member same
  have here : a ∈ group key (key a) table := mem_group.mpr ⟨member, rfl⟩
  generalize group key (key a) table = rows at single only here
  match rows with
  | [] => cases here
  | [b] => rw [only b List.mem_cons_self]
  | b :: c :: rest =>
      have same := (only b List.mem_cons_self).trans (only c (List.mem_cons_of_mem b List.mem_cons_self)).symm
      exact absurd (same ▸ List.mem_cons_self) (List.nodup_cons.mp single).1

theorem group_of_agreeOff {key : α → κ} {k k' : κ} {bag bag' : List α} (agree : AgreeOff key k bag bag')
    (other : k' ≠ k) : (group key k' bag).Perm (group key k' bag') := by
  have narrow : ∀ xs : List α, group key k' xs =
      (xs.filter fun x => !decide (key x = k)).filter fun x => decide (key x = k') := by
    intro xs
    rw [List.filter_filter]
    apply List.filter_congr
    intro x _
    by_cases same : key x = k'
    · simp only [same, other, decide_true, decide_false, Bool.not_false, Bool.and_true]
    · simp only [same, decide_false, Bool.false_and]
  rw [narrow, narrow]
  exact agree.filter _

theorem agreeOff_append {key : α → κ} {k : κ} {bag bag' part : List α} (split : bag'.Perm (part ++ bag))
    (all : ∀ x ∈ part, key x = k) : AgreeOff key k bag bag' := by
  have none : part.filter (fun x => !decide (key x = k)) = [] := by
    apply List.filter_eq_nil_iff.mpr
    intro x member
    simp only [all x member, decide_true, Bool.not_true, Bool.false_eq_true, not_false_eq_true]
  have filtered := split.filter fun x => !decide (key x = k)
  rw [List.filter_append, none, List.nil_append] at filtered
  exact filtered.symm

theorem AgreeOff.symm {key : α → κ} {k : κ} {bag bag' : List α} (agree : AgreeOff key k bag bag') :
    AgreeOff key k bag' bag := List.Perm.symm agree

/-- `agg k xs` is a function of the bag `xs` and carries its key. -/
structure Aggregation (key : α → κ) (rowKey : β → κ) (agg : κ → List α → β) : Prop where
  perm : ∀ k xs ys, xs.Perm ys → agg k xs = agg k ys
  rowKey_agg : ∀ x xs, rowKey (agg (key x) xs) = key x

/-- `table` holds exactly one row, `agg`, for each key of `bag`. -/
structure Grouped (key : α → κ) (rowKey : β → κ) (agg : κ → List α → β) (bag : List α)
    (table : List β) : Prop where
  keyed : Keyed rowKey table
  mem_iff : ∀ r, r ∈ table ↔ ∃ x ∈ bag, r = agg (key x) (group key (key x) bag)

section Grouped

variable {key : α → κ} {rowKey : β → κ} {agg : κ → List α → β} {bag bag' : List α} {table : List β}

theorem Grouped.nil : Grouped key rowKey agg [] [] where
  keyed := Keyed.nil rowKey
  mem_iff := by simp only [List.not_mem_nil, false_and, exists_false, implies_true]

theorem Grouped.perm_table {table' : List β} (grouped : Grouped key rowKey agg bag table)
    (same : table.Perm table') : Grouped key rowKey agg bag table' where
  keyed := grouped.keyed.perm same
  mem_iff := fun r => same.mem_iff.symm.trans (grouped.mem_iff r)

variable (law : Aggregation key rowKey agg)
include law

theorem Grouped.perm_bag (grouped : Grouped key rowKey agg bag table) (same : bag.Perm bag') :
    Grouped key rowKey agg bag' table where
  keyed := grouped.keyed
  mem_iff := by
    intro r
    rw [grouped.mem_iff r]
    constructor
    · rintro ⟨x, member, rfl⟩
      exact ⟨x, same.mem_iff.mp member, law.perm _ _ _ (group_perm same _)⟩
    · rintro ⟨x, member, rfl⟩
      exact ⟨x, same.mem_iff.mpr member, (law.perm _ _ _ (group_perm same _)).symm⟩

theorem Grouped.filter_of_mem (grouped : Grouped key rowKey agg bag table) {x : α} (member : x ∈ bag) :
    table.filter (fun r => decide (rowKey r = key x)) = [agg (key x) (group key (key x) bag)] := by
  have stored : agg (key x) (group key (key x) bag) ∈ table := (grouped.mem_iff _).mpr ⟨x, member, rfl⟩
  apply List.perm_singleton.mp
  apply (List.perm_ext_iff_of_nodup (grouped.keyed.filter _).nodup (List.nodup_singleton _)).mpr
  intro r
  rw [List.mem_filter, List.mem_singleton, decide_eq_true_eq]
  constructor
  · rintro ⟨within, same⟩
    exact grouped.keyed.eq_of_mem within stored (same.trans (law.rowKey_agg x _).symm)
  · rintro rfl
    exact ⟨stored, law.rowKey_agg x _⟩

theorem Grouped.filter_of_absent (grouped : Grouped key rowKey agg bag table) {k : κ}
    (absent : ∀ x ∈ bag, key x ≠ k) : table.filter (fun r => decide (rowKey r = k)) = [] := by
  apply List.filter_eq_nil_iff.mpr
  intro r within
  obtain ⟨x, member, rfl⟩ := (grouped.mem_iff r).mp within
  rw [law.rowKey_agg, decide_eq_true_eq]
  exact absent x member

theorem Grouped.other_row (agree : AgreeOff key k bag bag') {r : β} (other : rowKey r ≠ k) :
    (∃ x ∈ bag, r = agg (key x) (group key (key x) bag)) ↔
      ∃ x ∈ bag', r = agg (key x) (group key (key x) bag') := by
  have move : ∀ {xs ys : List α}, AgreeOff key k xs ys → ∀ {s : β}, rowKey s ≠ k →
      (∃ x ∈ xs, s = agg (key x) (group key (key x) xs)) →
      ∃ x ∈ ys, s = agg (key x) (group key (key x) ys) := by
    rintro xs ys agree s other ⟨x, member, rfl⟩
    rw [law.rowKey_agg] at other
    have same := group_of_agreeOff agree other
    have within : x ∈ group key (key x) ys := same.mem_iff.mp (mem_group.mpr ⟨member, rfl⟩)
    exact ⟨x, (mem_group.mp within).1, law.perm _ _ _ same⟩
  exact ⟨move agree other, move agree.symm other⟩

/-- The first rows of a key add its row. -/
theorem Grouped.insert (grouped : Grouped key rowKey agg bag table) {k : κ}
    (absent : ∀ x ∈ bag, key x ≠ k) (agree : AgreeOff key k bag bag') {x : α} (present : x ∈ bag')
    (keyOf : key x = k) : Grouped key rowKey agg bag' (table ++ [agg k (group key k bag')]) where
  keyed := by
    subst keyOf
    simp only [Keyed, List.map_append, List.map_cons, List.map_nil, law.rowKey_agg]
    refine List.Nodup.append grouped.keyed (List.nodup_singleton _) ?_
    intro k' left right
    rw [List.mem_singleton] at right
    obtain ⟨r, within, rfl⟩ := List.mem_map.mp left
    have empty := grouped.filter_of_absent law absent
    exact List.filter_eq_nil_iff.mp empty r within (decide_eq_true right)
  mem_iff := by
    subst keyOf
    intro r
    rw [List.mem_append, List.mem_singleton]
    by_cases same : rowKey r = key x
    · constructor
      · rintro (within | rfl)
        · have empty := grouped.filter_of_absent law absent
          exact absurd (decide_eq_true same) (List.filter_eq_nil_iff.mp empty r within)
        · exact ⟨x, present, rfl⟩
      · rintro ⟨y, member, rfl⟩
        rw [law.rowKey_agg] at same
        right
        rw [same]
    · rw [grouped.mem_iff r, Grouped.other_row law agree same]
      constructor
      · rintro (within | rfl)
        · exact within
        · exact absurd (law.rowKey_agg x _) same
      · exact Or.inl

theorem Grouped.replace (grouped : Grouped key rowKey agg bag table) {k : κ} {y : α} (stored : y ∈ bag)
    (storedKey : key y = k) (agree : AgreeOff key k bag bag') {x : α} (present : x ∈ bag') (keyOf : key x = k) :
    Grouped key rowKey agg bag'
      (table.map fun r => if rowKey r = k then agg k (group key k bag') else r) where
  keyed := by
    subst keyOf
    have sameKeys : (table.map fun r => if rowKey r = key x then agg (key x) (group key (key x) bag') else r).map
        rowKey = table.map rowKey := by
      rw [List.map_map]
      apply List.map_congr_left
      intro r _
      simp only [Function.comp_apply]
      split
      · rename_i same
        rw [law.rowKey_agg, same]
      · rfl
    rw [Keyed, sameKeys]
    exact grouped.keyed
  mem_iff := by
    subst keyOf
    intro r
    rw [List.mem_map]
    by_cases same : rowKey r = key x
    · constructor
      · rintro ⟨s, within, rfl⟩
        by_cases hit : rowKey s = key x
        · exact ⟨x, present, if_pos hit⟩
        · rw [if_neg hit] at same
          exact absurd same hit
      · rintro ⟨z, member, rfl⟩
        rw [law.rowKey_agg] at same
        refine ⟨agg (key y) (group key (key y) bag), (grouped.mem_iff _).mpr ⟨y, stored, rfl⟩, ?_⟩
        rw [law.rowKey_agg, if_pos storedKey, same]
    · rw [← Grouped.other_row law agree same, ← grouped.mem_iff r]
      constructor
      · rintro ⟨s, within, rfl⟩
        by_cases hit : rowKey s = key x
        · rw [if_pos hit] at same
          exact absurd (law.rowKey_agg x _) same
        · rw [if_neg hit]
          exact within
      · intro within
        exact ⟨r, within, if_neg same⟩

/-- The last rows of a key take its row with them. -/
theorem Grouped.remove (grouped : Grouped key rowKey agg bag table) {k : κ}
    (agree : AgreeOff key k bag bag') (absent : ∀ x ∈ bag', key x ≠ k) :
    Grouped key rowKey agg bag' (table.filter fun r => !decide (rowKey r = k)) where
  keyed := grouped.keyed.filter _
  mem_iff := by
    intro r
    rw [List.mem_filter, Bool.not_eq_true', decide_eq_false_iff_not]
    by_cases same : rowKey r = k
    · simp only [same, not_true_eq_false, and_false, false_iff]
      rintro ⟨x, member, rfl⟩
      rw [law.rowKey_agg] at same
      exact absent x member same
    · rw [← Grouped.other_row law agree same, ← grouped.mem_iff r]
      simp only [same, not_false_eq_true, and_true]

theorem grouped_iff_perm : Grouped key rowKey agg bag table ↔
    table.Perm ((bag.map key).dedup.map fun k => agg k (group key k bag)) := by
  have keys : ((bag.map key).dedup.map fun k => agg k (group key k bag)).map rowKey = (bag.map key).dedup := by
    rw [List.map_map]
    conv => rhs; rw [← List.map_id (bag.map key).dedup]
    apply List.map_congr_left
    intro k within
    obtain ⟨x, _, rfl⟩ := List.mem_map.mp (List.mem_dedup.mp within)
    exact law.rowKey_agg x _
  have target : Grouped key rowKey agg bag ((bag.map key).dedup.map fun k => agg k (group key k bag)) := by
    refine ⟨?_, ?_⟩
    · rw [Keyed, keys]
      exact List.nodup_dedup _
    · intro r
      simp only [List.mem_map, List.mem_dedup, exists_exists_and_eq_and]
      exact exists_congr fun x => and_congr_right fun _ => eq_comm
  constructor
  · intro grouped
    apply (List.perm_ext_iff_of_nodup grouped.keyed.nodup target.keyed.nodup).mpr
    intro r
    rw [grouped.mem_iff, target.mem_iff]
  · intro same
    exact target.perm_table same.symm

end Grouped

end Bags
