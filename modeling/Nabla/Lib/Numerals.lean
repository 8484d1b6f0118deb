import Mathlib.Data.List.Induction
import Mathlib.Tactic.Ring

/-! Numerals in a positional system: the number a list of symbols spells, the numeral a
number is written with, and reading below a bound with a check at every digit. -/
namespace Numerals

/-- A positional system: the symbol that writes a digit, and the digit read of a symbol.
More than one symbol may be read as the same digit. -/
structure System (γ : Type) where
  radix : Nat
  symbol : Nat → γ
  digit : γ → Option Nat
  several : 1 < radix
  digit_lt : ∀ {c d}, digit c = some d → d < radix
  digit_symbol : ∀ {d}, d < radix → digit (symbol d) = some d

variable {γ : Type} {S : System γ}

def System.Spelled (S : System γ) (cs : List γ) : Prop := ∀ c ∈ cs, (S.digit c).isSome

def System.shift (S : System γ) (n : Nat) (c : γ) : Nat := n * S.radix + (S.digit c).getD 0

def System.value (S : System γ) (cs : List γ) : Nat := cs.foldl S.shift 0

def System.write (S : System γ) (n : Nat) : List γ :=
  if n < S.radix then [S.symbol n] else System.write S (n / S.radix) ++ [S.symbol (n % S.radix)]
termination_by n
decreasing_by
  rename_i large
  exact Nat.div_lt_self (Nat.lt_of_lt_of_le (Nat.lt_trans Nat.zero_lt_one S.several) (Nat.not_lt.mp large)) S.several

/-- A numeral as it is written: in the symbols of its digits, and without leading zeros. -/
structure System.Canonical (S : System γ) (cs : List γ) : Prop where
  written : ∀ c ∈ cs, ∃ d < S.radix, c = S.symbol d
  nonempty : cs ≠ []
  leading : ∀ rest, cs = S.symbol 0 :: rest → rest = []

def System.push (S : System γ) (bound n : Nat) (c : γ) : Option Nat := do
  let d ← S.digit c
  if n * S.radix + d < bound then some (n * S.radix + d) else none

theorem System.radix_pos (S : System γ) : 0 < S.radix := Nat.lt_trans Nat.zero_lt_one S.several

theorem System.value_concat (cs : List γ) (c : γ) : S.value (cs ++ [c]) = S.shift (S.value cs) c := by
  rw [value, List.foldl_append]
  rfl

theorem System.shift_symbol {d : Nat} (less : d < S.radix) (n : Nat) : S.shift n (S.symbol d) = n * S.radix + d := by
  rw [shift, S.digit_symbol less, Option.getD_some]

theorem System.value_symbol {d : Nat} (less : d < S.radix) : S.value [S.symbol d] = d := by
  show S.shift 0 (S.symbol d) = d
  rw [shift_symbol less, Nat.zero_mul, Nat.zero_add]

theorem System.digit_getD_lt (c : γ) : (S.digit c).getD 0 < S.radix := by
  cases read : S.digit c with
  | none => exact S.radix_pos
  | some d => exact S.digit_lt read

theorem System.value_lt (cs : List γ) : S.value cs < S.radix ^ cs.length := by
  induction cs using List.reverseRecOn with
  | nil => exact Nat.one_pos
  | append_singleton cs c ih =>
      have digit : (S.digit c).getD 0 < S.radix := digit_getD_lt c
      rw [value_concat, List.length_append, List.length_singleton]
      calc
        S.shift (S.value cs) c < S.value cs * S.radix + S.radix := Nat.add_lt_add_left digit _
        _ = (S.value cs + 1) * S.radix := by ring
        _ ≤ S.radix ^ cs.length * S.radix := Nat.mul_le_mul_right _ ih

theorem System.le_foldl_shift (cs : List γ) (n : Nat) : n ≤ cs.foldl S.shift n := by
  induction cs generalizing n with
  | nil => exact Nat.le_refl n
  | cons c cs ih =>
      have grows : n ≤ S.shift n c := Nat.le_trans (Nat.le_mul_of_pos_right n S.radix_pos) (Nat.le_add_right _ _)
      exact Nat.le_trans grows (ih _)

theorem System.Canonical.spelled {cs : List γ} (canonical : S.Canonical cs) : S.Spelled cs := by
  intro c member
  obtain ⟨d, less, rfl⟩ := canonical.written c member
  rw [S.digit_symbol less]
  rfl

theorem System.push_eq_some_iff {bound n v : Nat} {c : γ} :
    S.push bound n c = some v ↔ (S.digit c).isSome ∧ v = S.shift n c ∧ v < bound := by
  rw [push, shift]
  cases S.digit c with
  | none => exact ⟨fun read => (nomatch read), fun ⟨isDigit, _⟩ => absurd isDigit (by decide)⟩
  | some d =>
      show (if n * S.radix + d < bound then some (n * S.radix + d) else none) = some v ↔ _
      split
      · rename_i below
        constructor
        · intro read
          obtain rfl := Option.some.inj read
          exact ⟨rfl, rfl, below⟩
        · intro ⟨_, is, _⟩
          exact congrArg some is.symm
      · rename_i beyond
        constructor
        · intro read
          cases read
        · intro ⟨_, is, below⟩
          exact absurd (is ▸ below) beyond

theorem System.foldlM_push_iff {bound n v : Nat} (fits : n < bound) {cs : List γ} :
    cs.foldlM (S.push bound) n = some v ↔ S.Spelled cs ∧ v = cs.foldl S.shift n ∧ v < bound := by
  induction cs generalizing n with
  | nil =>
      constructor
      · intro read
        obtain rfl := Option.some.inj read
        exact ⟨fun c member => absurd member List.not_mem_nil, rfl, fits⟩
      · intro ⟨_, is, _⟩
        exact congrArg some is.symm
  | cons c cs ih =>
      rw [List.foldlM_cons, List.foldl_cons, Option.bind_eq_bind, Option.bind_eq_some_iff]
      constructor
      · intro ⟨m, first, rest⟩
        obtain ⟨isDigit, is, below⟩ := push_eq_some_iff.mp first
        obtain ⟨spelled, value, less⟩ := (ih below).mp rest
        exact ⟨List.forall_mem_cons.mpr ⟨isDigit, spelled⟩, is ▸ value, less⟩
      · intro ⟨spelled, value, less⟩
        obtain ⟨isDigit, spelled⟩ := List.forall_mem_cons.mp spelled
        have below : S.shift n c < bound := Nat.lt_of_le_of_lt (value ▸ le_foldl_shift cs _) less
        exact ⟨S.shift n c, push_eq_some_iff.mpr ⟨isDigit, rfl, below⟩, (ih below).mpr ⟨spelled, value, less⟩⟩

theorem System.write_small {n : Nat} (small : n < S.radix) : S.write n = [S.symbol n] := by rw [write, if_pos small]

theorem System.write_large {n : Nat} (large : S.radix ≤ n) :
    S.write n = S.write (n / S.radix) ++ [S.symbol (n % S.radix)] := by
  rw [write, if_neg (Nat.not_lt.mpr large)]

theorem System.write_push {n d : Nat} (positive : 0 < n) (less : d < S.radix) :
    S.write (n * S.radix + d) = S.write n ++ [S.symbol d] := by
  have large : S.radix ≤ n * S.radix + d := Nat.le_trans (Nat.le_mul_of_pos_left _ positive) (Nat.le_add_right _ _)
  have quotient : (n * S.radix + d) / S.radix = n := by
    rw [Nat.mul_comm, Nat.mul_add_div S.radix_pos, Nat.div_eq_of_lt less, Nat.add_zero]
  have remainder : (n * S.radix + d) % S.radix = d := by rw [Nat.mul_comm, Nat.mul_add_mod, Nat.mod_eq_of_lt less]
  rw [write_large large, quotient, remainder]

/-- Every property that holds of one digit and that a further digit keeps holds of all numbers. -/
theorem System.digits_induction (S : System γ) {P : Nat → Prop} (one : ∀ n, n < S.radix → P n)
    (more : ∀ n d, 0 < n → d < S.radix → P n → P (n * S.radix + d)) (n : Nat) : P n := by
  induction n using Nat.strongRecOn with
  | ind n ih =>
      rcases Nat.lt_or_ge n S.radix with small | large
      · exact one n small
      · have quotient : 0 < n / S.radix := Nat.div_pos large S.radix_pos
        have less : n / S.radix < n := Nat.div_lt_self (Nat.lt_of_lt_of_le S.radix_pos large) S.several
        have step := more (n / S.radix) (n % S.radix) quotient (Nat.mod_lt n S.radix_pos) (ih _ less)
        rwa [Nat.div_add_mod'] at step

theorem System.value_write (n : Nat) : S.value (S.write n) = n := by
  induction n using S.digits_induction with
  | one n small => rw [write_small small, value_symbol small]
  | more n d positive less ih => rw [write_push positive less, value_concat, ih, shift_symbol less]

theorem System.write_injective : Function.Injective S.write := by
  intro n m same
  rw [← value_write (S := S) n, same, value_write]

theorem System.length_write_le {n k : Nat} (less : n < S.radix ^ (k + 1)) : (S.write n).length ≤ k + 1 := by
  induction k generalizing n with
  | zero =>
      rw [Nat.zero_add, Nat.pow_one] at less
      rw [write_small less]
      exact Nat.le_refl _
  | succ k ih =>
      rcases Nat.lt_or_ge n S.radix with small | large
      · rw [write_small small]
        exact Nat.le_add_left _ _
      · have quotient : n / S.radix < S.radix ^ (k + 1) := Nat.div_lt_of_lt_mul (by rwa [Nat.mul_comm, ← Nat.pow_succ])
        rw [write_large large, List.length_append, List.length_singleton]
        exact Nat.add_le_add_right (ih quotient) 1

theorem System.canonical_write (n : Nat) : S.Canonical (S.write n) := by
  induction n using S.digits_induction with
  | one n small =>
      rw [write_small small]
      constructor
      · intro c member
        exact ⟨n, small, List.mem_singleton.mp member⟩
      · exact List.cons_ne_nil _ _
      · intro rest is
        exact (List.cons.inj is).2.symm
  | more n d positive less ih =>
      rw [write_push positive less]
      constructor
      · intro c member
        rcases List.mem_append.mp member with front | last
        · exact ih.written c front
        · exact ⟨d, less, List.mem_singleton.mp last⟩
      · exact List.append_ne_nil_of_right_ne_nil _ (List.cons_ne_nil _ _)
      · intro rest is
        cases front : S.write n with
        | nil => exact absurd front ih.nonempty
        | cons first cs =>
            rw [front] at is
            -- a number written as the zero is the zero
            obtain ⟨rfl, _⟩ := List.cons.inj is
            have zero : S.write n = [S.symbol 0] := by rw [front, ih.leading cs front]
            rw [← write_small S.radix_pos] at zero
            exact absurd (write_injective zero) positive.ne'

/-- The front of a longer numeral, which is not a zero. -/
theorem System.Canonical.front {cs : List γ} {c : γ} (canonical : S.Canonical (cs ++ [c])) (longer : cs ≠ []) :
    S.Canonical cs ∧ cs ≠ [S.symbol 0] := by
  have behind : ∀ rest, cs = S.symbol 0 :: rest → rest ++ [c] = [] := by
    intro rest is
    apply canonical.leading
    rw [is, List.cons_append]
  constructor
  · constructor
    · exact fun c member => canonical.written c (List.mem_append_left _ member)
    · exact longer
    · intro rest is
      exact (List.append_eq_nil_iff.mp (behind rest is)).1
  · intro zero
    exact absurd (behind [] zero) (List.cons_ne_nil c [])

/-- What is written without leading zeros is the numeral of its number, and stands for zero
only as the one digit. -/
theorem System.Canonical.read {cs : List γ} (canonical : S.Canonical cs) :
    S.write (S.value cs) = cs ∧ (cs ≠ [S.symbol 0] → 0 < S.value cs) := by
  induction cs using List.reverseRecOn with
  | nil => exact absurd rfl canonical.nonempty
  | append_singleton cs c ih =>
      obtain ⟨d, less, rfl⟩ := canonical.written c (List.mem_append_right cs List.mem_cons_self)
      by_cases single : cs = []
      · subst single
        rw [List.nil_append, value_symbol less]
        refine ⟨write_small less, fun other => Nat.pos_of_ne_zero fun zero => other ?_⟩
        rw [zero]
      · obtain ⟨front, other⟩ := canonical.front single
        obtain ⟨same, positive⟩ := ih front
        have positive := positive other
        rw [value_concat, shift_symbol less]
        constructor
        · rw [write_push positive less, same]
        · exact fun _ => Nat.lt_of_lt_of_le (Nat.mul_pos positive S.radix_pos) (Nat.le_add_right _ _)

theorem System.Canonical.write_value {cs : List γ} (canonical : S.Canonical cs) : S.write (S.value cs) = cs := canonical.read.1

end Numerals
