import Mathlib.Order.Lattice
import Mathlib.Order.MinMax
import Mathlib.Order.Defs.LinearOrder
import Mathlib.Data.List.Basic
import Mathlib.Data.List.Nodup

/-! The members of an increasing list above one bound and up to another. Adjacent
windows join, and a prefix of a window is a window. -/
namespace Bags

variable {α : Type} [LinearOrder α]

/-- The members of the list in the interval from `a`, exclusive, to `b`, inclusive. -/
def window (xs : List α) (a b : α) : List α := xs.filter fun x => decide (a < x) && decide (x ≤ b)

theorem mem_window {xs : List α} {a b x : α} : x ∈ window xs a b ↔ x ∈ xs ∧ a < x ∧ x ≤ b := by
  rw [window, List.mem_filter, Bool.and_eq_true, decide_eq_true_eq, decide_eq_true_eq]

theorem window_congr {xs : List α} {a b c d : α} (same : ∀ x ∈ xs, a < x ∧ x ≤ b ↔ c < x ∧ x ≤ d) :
    window xs a b = window xs c d := by
  apply List.filter_congr
  intro x member
  rw [Bool.eq_iff_iff, Bool.and_eq_true, Bool.and_eq_true, decide_eq_true_eq, decide_eq_true_eq, decide_eq_true_eq,
    decide_eq_true_eq]
  exact same x member

theorem window_eq_nil {xs : List α} {a b : α} (none : ∀ x ∈ xs, a < x → b < x) : window xs a b = [] := by
  rw [window, List.filter_eq_nil_iff]
  intro x member
  rw [Bool.and_eq_true, decide_eq_true_eq, decide_eq_true_eq, not_and, not_le]
  exact none x member

theorem window_self (xs : List α) (a : α) : window xs a a = [] := window_eq_nil fun _ _ above => above

theorem window_filter (xs : List α) (a b c : α) : (window xs a b).filter (c < ·) = window xs (max a c) b := by
  rw [window, window, List.filter_filter]
  apply List.filter_congr
  intro x _
  rw [Bool.eq_iff_iff]
  simp only [Bool.and_eq_true, decide_eq_true_eq, max_lt_iff]
  exact ⟨fun ⟨second, first, upTo⟩ => ⟨⟨first, second⟩, upTo⟩, fun ⟨⟨first, second⟩, upTo⟩ => ⟨second, first, upTo⟩⟩

variable {xs : List α} (ordered : xs.Pairwise (· < ·))
include ordered

theorem pairwise_window (a b : α) : (window xs a b).Pairwise (· < ·) := ordered.filter _

theorem window_append {a b c : α} (left : a ≤ b) (right : b ≤ c) :
    window xs a c = window xs a b ++ window xs b c := by
  induction xs with
  | nil => rfl
  | cons x xs ih =>
      obtain ⟨first, later⟩ := List.pairwise_cons.mp ordered
      have rest := ih later
      simp only [window, List.filter_cons, Bool.and_eq_true, decide_eq_true_eq] at rest ⊢
      by_cases below : x ≤ b
      · by_cases above : a < x
        · simp only [above, below, below.trans right, not_lt.mpr below, false_and, and_self, if_true, if_false, rest,
            List.cons_append]
        · simp only [above, not_lt.mpr below, false_and, if_false, rest]
      · rw [not_le] at below
        have none : window xs a b = [] := window_eq_nil fun y member _ => below.trans (first y member)
        simp only [window] at none
        have above : a < x := left.trans_lt below
        simp only [above, below, not_le.mpr below, true_and, if_false, none, List.nil_append] at rest ⊢
        rw [rest]

theorem take_window (a b : α) (n : ℕ) :
    (window xs a b).take n = window xs a (((window xs a b).take n).getLast?.getD a) := by
  cases last : ((window xs a b).take n).getLast? with
  | none => rw [Option.getD_none, window_self, List.getLast?_eq_none_iff.mp last]
  | some m =>
      rw [Option.getD_some]
      obtain ⟨before, split⟩ := List.getLast?_eq_some_iff.mp last
      have sorted := pairwise_window ordered a b
      rw [← List.take_append_drop n (window xs a b), List.pairwise_append] at sorted
      obtain ⟨sorted, _, across⟩ := sorted
      have taken : m ∈ (window xs a b).take n := split ▸ List.mem_append_right _ (List.mem_singleton_self m)
      obtain ⟨_, _, upTo⟩ := mem_window.mp (List.mem_of_mem_take taken)
      have narrowed : window xs a m = (window xs a b).filter (· ≤ m) := by
        rw [window, window, List.filter_filter]
        apply List.filter_congr
        intro x _
        rw [Bool.eq_iff_iff]
        simp only [Bool.and_eq_true, decide_eq_true_eq]
        exact ⟨fun ⟨above, within⟩ => ⟨within, above, within.trans upTo⟩, fun ⟨within, above, _⟩ => ⟨above, within⟩⟩
      have kept : ((window xs a b).take n).filter (· ≤ m) = (window xs a b).take n := by
        rw [List.filter_eq_self]
        intro x member
        rw [decide_eq_true_eq]
        rw [split] at member sorted
        rcases List.mem_append.mp member with earlier | here
        · exact ((List.pairwise_append.mp sorted).2.2 x earlier m (List.mem_singleton_self m)).le
        · exact (List.mem_singleton.mp here).le
      have cut : ((window xs a b).drop n).filter (· ≤ m) = [] := by
        rw [List.filter_eq_nil_iff]
        intro x member
        rw [decide_eq_true_eq, not_le]
        exact across m taken x member
      calc (window xs a b).take n
          _ = ((window xs a b).take n).filter (· ≤ m) ++ ((window xs a b).drop n).filter (· ≤ m) := by
              rw [kept, cut, List.append_nil]
          _ = window xs a m := by rw [← List.filter_append, List.take_append_drop, narrowed]

/-- A reader that already has the members up to `p` reads on from `a` to `b` and stops
after `n` members: what is new to it is the window from `p` to its new position. -/
theorem window_resume {p a : α} (caught : ∀ x ∈ xs, x ≤ a → x ≤ p) (b : α) (n : ℕ) {read : List α} {q : α}
    (fresh : read = ((window xs a b).take n).filter (p < ·)) (reached : q = read.getLast?.getD p) :
    p ≤ q ∧ read = window xs p q ∧ ∀ x ∈ (window xs a b).take n, x ≤ q := by
  obtain ⟨m, taken⟩ : ∃ m, (window xs a b).take n = window xs a m := ⟨_, take_window ordered a b n⟩
  have whole : read = window xs p m := by
    rw [fresh, taken, window_filter]
    apply window_congr
    intro x member
    rw [max_lt_iff]
    refine ⟨fun inside => ⟨inside.1.2, inside.2⟩, fun inside => ⟨⟨?_, inside.1⟩, inside.2⟩⟩
    exact not_le.mp fun low => absurd inside.1 (not_lt.mpr (caught x member low))
  have exact : read = window xs p q := by
    have upToLast := take_window ordered p m (window xs p m).length
    rw [List.take_length] at upToLast
    rw [reached, whole]
    exact upToLast
  have onward : p ≤ q := by
    cases last : read.getLast? with
    | none => rw [reached, last, Option.getD_none]
    | some x =>
        rw [reached, last, Option.getD_some]
        have member : x ∈ window xs p m := whole ▸ List.mem_of_getLast? last
        exact (mem_window.mp member).2.1.le
  refine ⟨onward, exact, ?_⟩
  intro x member
  by_cases old : x ≤ p
  · exact old.trans onward
  · have inRead : x ∈ read := by
      rw [fresh, List.mem_filter, decide_eq_true_eq]
      exact ⟨member, not_le.mp old⟩
    rw [exact] at inRead
    exact (mem_window.mp inRead).2.2

omit ordered in
theorem split_at {β : Type} {key : β → α} {ys : List β} (ordered : ys.Pairwise fun x y => key x < key y) (a : α) :
    ys = ys.filter (fun y => decide (key y ≤ a)) ++ ys.filter (fun y => decide (a < key y)) := by
  induction ys with
  | nil => rfl
  | cons y ys ih =>
      obtain ⟨first, later⟩ := List.pairwise_cons.mp ordered
      by_cases low : key y ≤ a
      · have above : ¬ a < key y := not_lt.mpr low
        simp only [List.filter_cons, decide_eq_true low, decide_eq_false above, if_true, Bool.false_eq_true, if_false, List.cons_append]
        rw [← ih later]
      · have none : (y :: ys).filter (fun y => decide (key y ≤ a)) = [] := by
          rw [List.filter_eq_nil_iff]
          intro z member
          rw [decide_eq_true_eq, not_le]
          rcases List.mem_cons.mp member with rfl | within
          · exact not_le.mp low
          · exact (not_le.mp low).trans (first z within)
        have all : (y :: ys).filter (fun y => decide (a < key y)) = y :: ys := by
          rw [List.filter_eq_self]
          intro z member
          rw [decide_eq_true_eq]
          rcases List.mem_cons.mp member with rfl | within
          · exact not_le.mp low
          · exact (not_le.mp low).trans (first z within)
        rw [none, all, List.nil_append]

omit ordered in
theorem filter_next {β : Type} {key : β → α} {before after : List β} {y : β}
    (ordered : (before ++ y :: after).Pairwise fun x z => key x < key z) {a p : α} (low : a ≤ p)
    (passed : ∀ x ∈ before, key x ≤ p) (behind : p < key y) :
    (before ++ y :: after).filter (fun x => decide (a < key x) && decide (key x ≤ key y)) =
      (before ++ y :: after).filter (fun x => decide (a < key x) && decide (key x ≤ p)) ++ [y] := by
  have later : ∀ x ∈ after, key y < key x := fun x member =>
    List.rel_of_pairwise_cons (List.pairwise_append.mp ordered).2.1 member
  have none : ∀ q, q ≤ key y → after.filter (fun x => decide (a < key x) && decide (key x ≤ q)) = [] := by
    intro q within
    rw [List.filter_eq_nil_iff]
    intro x member
    rw [Bool.and_eq_true, decide_eq_true_eq, decide_eq_true_eq, not_and, not_le]
    exact fun _ => within.trans_lt (later x member)
  have same : before.filter (fun x => decide (a < key x) && decide (key x ≤ key y)) =
      before.filter (fun x => decide (a < key x) && decide (key x ≤ p)) := by
    apply List.filter_congr
    intro x member
    simp only [passed x member, (passed x member).trans behind.le]
  rw [List.filter_append, List.filter_append, same, List.filter_cons_of_pos, List.filter_cons_of_neg, none _ le_rfl, none _ behind.le,
    List.append_nil]
  · simp only [not_le.mpr behind, decide_false, Bool.and_false, Bool.false_eq_true, not_false_eq_true]
  · simp only [low.trans_lt behind, le_refl, decide_true, Bool.and_self]

end Bags
