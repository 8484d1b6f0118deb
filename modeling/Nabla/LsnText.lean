import Mathlib.Data.List.DropRight
import Nabla.Api
import Nabla.Idle
import Nabla.Lib.Numerals
import Nabla.Lib.SqlName

/-! The text of a WAL position read back: `lsn::parse`, and what the overload of
`nabla.wait_for` that takes a text makes of it. -/
namespace Nabla
open Numerals SqlNames

/-- `char::is_whitespace`: the characters with the property White_Space. -/
def isWhitespace (c : Char) : Bool :=
  let n := c.toNat
  n = 0x20 || (0x09 ≤ n && n ≤ 0x0D) || n = 0x85 || n = 0xA0 || n = 0x1680 || (0x2000 ≤ n && n ≤ 0x200A) || n = 0x2028 ||
    n = 0x2029 || n = 0x202F || n = 0x205F || n = 0x3000

def trim (text : List Char) : List Char := (text.dropWhile isWhitespace).rdropWhile isWhitespace

/-- `char::to_digit(16)`. -/
def toDigit (c : Char) : Option Nat :=
  let n := c.toNat
  -- '0' to '9', 'a' to 'f' and 'A' to 'F'
  if 48 ≤ n ∧ n ≤ 57 then some (n - 48)
  else if 97 ≤ n ∧ n ≤ 102 then some (n - 87)
  else if 65 ≤ n ∧ n ≤ 70 then some (n - 55)
  else none

/-- `{:X}` writes the upper-case digits, both cases are read. -/
def hexadecimal : System Char where
  radix := 16
  symbol := fun d => (Nat.digitChar d).toUpper
  digit := toDigit
  several := by decide
  digit_lt := by
    intro c d read
    unfold toDigit at read
    grind
  digit_symbol := by decide

/-- `u64::from_str_radix(_, 16)`: a plus sign may stand before the digits, and the number has
to fit. -/
def fromStrRadix : List Char → Option Nat
  | [] => none
  | ['+'] => none
  | '+' :: digits => digits.foldlM (hexadecimal.push (2 ^ 64)) 0
  | digits => digits.foldlM (hexadecimal.push (2 ^ 64)) 0

/-- `lsn::parse`; the shift loses what leaves the 64 bits. -/
def parseLsn (text : String) : Option Nat := do
  let (hi, lo) ← splitOnce '/' (trim text.toList)
  let hi ← fromStrRadix hi
  let lo ← fromStrRadix lo
  some ((hi <<< 32) % 2 ^ 64 ||| lo)

def waitForText (row : ViewRow) (window : Option IdleWindow) (lsn : String) : Except ApiError Bool :=
  match parseLsn lsn with
  | none => .error (errInvalid s!"nabla: \"{lsn}\" is not a valid LSN (expected X/Y)")
  | some target => waitForFrontier row window target

/-- Half of a position: one to eight hexadecimal digits. -/
structure LsnHalf (digits : List Char) : Prop where
  spelled : hexadecimal.Spelled digits
  nonempty : digits ≠ []
  short : digits.length ≤ 8

/-- What the type `pg_lsn` accepts, up to white space around it, and the position it is. -/
def SpellsLsn (text : String) (lsn : Nat) : Prop :=
  ∃ hi lo, trim text.toList = hi ++ '/' :: lo ∧ LsnHalf hi ∧ LsnHalf lo ∧ lsn = hexadecimal.value hi * 2 ^ 32 + hexadecimal.value lo

/-- A number of 64 bits for the lenient parser: digits behind at most one plus sign. -/
def Lenient (text : List Char) : Prop :=
  ∃ digits, (text = digits ∨ text = '+' :: digits) ∧ digits ≠ [] ∧ hexadecimal.Spelled digits ∧ hexadecimal.value digits < 2 ^ 64

/-- Around the first slash there are two numbers of 64 bits only where both are written
without a sign and in at most eight digits. -/
def PlainHalves (text : String) : Prop :=
  ∀ hi lo, trim text.toList = hi ++ '/' :: lo → Lenient hi → Lenient lo → LsnHalf hi ∧ LsnHalf lo

theorem toDigit_plus : toDigit '+' = none := rfl

theorem toDigit_slash : toDigit '/' = none := rfl

theorem hexadecimal.ne_of_spelled {digits : List Char} (spelled : hexadecimal.Spelled digits) {c : Char} (none : toDigit c = none) :
    c ∉ digits := by
  intro member
  have digit : (toDigit c).isSome := spelled c member
  rw [none] at digit
  cases digit

theorem fromStrRadix_signed {digits : List Char} (nonempty : digits ≠ []) :
    fromStrRadix ('+' :: digits) = digits.foldlM (hexadecimal.push (2 ^ 64)) 0 := by
  cases digits with
  | nil => exact absurd rfl nonempty
  | cons c rest => rfl

theorem fromStrRadix_unsigned {digits : List Char} (nonempty : digits ≠ []) (free : '+' ∉ digits) :
    fromStrRadix digits = digits.foldlM (hexadecimal.push (2 ^ 64)) 0 := by
  unfold fromStrRadix
  split
  · exact absurd rfl nonempty
  · exact absurd List.mem_cons_self free
  · exact absurd List.mem_cons_self free
  · rfl

theorem fromStrRadix_iff {text : List Char} {n : Nat} :
    fromStrRadix text = some n ↔ ∃ digits, (text = digits ∨ text = '+' :: digits) ∧ digits ≠ [] ∧ hexadecimal.Spelled digits ∧
      n = hexadecimal.value digits ∧ n < 2 ^ 64 := by
  have reads : ∀ digits : List Char, digits.foldlM (hexadecimal.push (2 ^ 64)) 0 = some n ↔
      hexadecimal.Spelled digits ∧ n = hexadecimal.value digits ∧ n < 2 ^ 64 := fun _ => System.foldlM_push_iff (by decide)
  constructor
  · intro read
    unfold fromStrRadix at read
    split at read
    · cases read
    · cases read
    · rename_i digits nonempty
      exact ⟨digits, .inr rfl, nonempty, (reads digits).mp read⟩
    · rename_i nonempty _ _
      exact ⟨text, .inl rfl, nonempty, (reads text).mp read⟩
  · intro ⟨digits, shape, nonempty, spelled⟩
    rcases shape with rfl | rfl
    · rw [fromStrRadix_unsigned nonempty (hexadecimal.ne_of_spelled spelled.1 toDigit_plus)]
      exact (reads _).mpr spelled
    · rw [fromStrRadix_signed nonempty]
      exact (reads digits).mpr spelled

theorem slash_notMem_of_fromStrRadix {text : List Char} {n : Nat} (read : fromStrRadix text = some n) : '/' ∉ text := by
  obtain ⟨digits, shape, _, spelled, _⟩ := fromStrRadix_iff.mp read
  have free := hexadecimal.ne_of_spelled spelled toDigit_slash
  rcases shape with rfl | rfl
  · exact free
  · exact List.not_mem_cons_of_ne_of_not_mem (by decide) free

theorem parseLsn_iff {text : String} {lsn : Nat} :
    parseLsn text = some lsn ↔ ∃ hi lo m n, trim text.toList = hi ++ '/' :: lo ∧ fromStrRadix hi = some m ∧
      fromStrRadix lo = some n ∧ lsn = (m <<< 32) % 2 ^ 64 ||| n := by
  unfold parseLsn
  simp only [Option.bind_eq_bind, Option.bind_eq_some_iff, Prod.exists, Option.some.injEq]
  constructor
  · intro ⟨hi, lo, split, m, high, n, low, is⟩
    exact ⟨hi, lo, m, n, (splitOnce_iff.mp split).2, high, low, is.symm⟩
  · intro ⟨hi, lo, m, n, split, high, low, is⟩
    exact ⟨hi, lo, splitOnce_iff.mpr ⟨slash_notMem_of_fromStrRadix high, split⟩, m, high, n, low, is.symm⟩

theorem LsnHalf.value_lt {digits : List Char} (half : LsnHalf digits) : hexadecimal.value digits < 2 ^ 32 := by
  have short : (16 : Nat) ^ digits.length ≤ 16 ^ 8 := Nat.pow_le_pow_right (by decide) half.short
  exact Nat.lt_of_lt_of_le (System.value_lt digits) short

theorem LsnHalf.read {digits : List Char} (half : LsnHalf digits) : fromStrRadix digits = some (hexadecimal.value digits) :=
  fromStrRadix_iff.mpr ⟨digits, .inl rfl, half.nonempty, half.spelled, rfl, Nat.lt_trans half.value_lt (by decide)⟩

theorem lenient_iff {text : List Char} : Lenient text ↔ ∃ n, fromStrRadix text = some n := by
  constructor
  · intro ⟨digits, shape, nonempty, spelled, fits⟩
    exact ⟨_, fromStrRadix_iff.mpr ⟨digits, shape, nonempty, spelled, rfl, fits⟩⟩
  · intro ⟨n, read⟩
    obtain ⟨digits, shape, nonempty, spelled, rfl, fits⟩ := fromStrRadix_iff.mp read
    exact ⟨digits, shape, nonempty, spelled, fits⟩

theorem shift_or_eq {m n : Nat} (high : m < 2 ^ 32) (low : n < 2 ^ 32) : (m <<< 32) % 2 ^ 64 ||| n = m * 2 ^ 32 + n := by
  have fits : m <<< 32 < 2 ^ 64 := by
    rw [Nat.shiftLeft_eq]
    omega
  rw [Nat.mod_eq_of_lt fits, ← Nat.shiftLeft_add_eq_or_of_lt low, Nat.shiftLeft_eq]

theorem SpellsLsn.parse {text : String} {lsn : Nat} (spells : SpellsLsn text lsn) : parseLsn text = some lsn := by
  obtain ⟨hi, lo, shape, high, low, rfl⟩ := spells
  exact parseLsn_iff.mpr ⟨hi, lo, _, _, shape, high.read, low.read, (shift_or_eq high.value_lt low.value_lt).symm⟩

theorem PlainHalves.spells {text : String} (plain : PlainHalves text) {lsn : Nat} (read : parseLsn text = some lsn) :
    SpellsLsn text lsn := by
  obtain ⟨hi, lo, m, n, shape, high, low, rfl⟩ := parseLsn_iff.mp read
  obtain ⟨upper, lower⟩ := plain hi lo shape (lenient_iff.mpr ⟨m, high⟩) (lenient_iff.mpr ⟨n, low⟩)
  obtain rfl := Option.some.inj (high.symm.trans upper.read)
  obtain rfl := Option.some.inj (low.symm.trans lower.read)
  exact ⟨hi, lo, shape, upper, lower, shift_or_eq upper.value_lt lower.value_lt⟩

theorem plainHalves_of_spells {text : String} (exact : ∀ lsn, parseLsn text = some lsn → SpellsLsn text lsn) : PlainHalves text := by
  intro hi lo shape high low
  obtain ⟨m, high'⟩ := lenient_iff.mp high
  obtain ⟨n, low'⟩ := lenient_iff.mp low
  obtain ⟨hi', lo', shape', upper, lower, _⟩ := exact _ (parseLsn_iff.mpr ⟨hi, lo, m, n, shape, high', low', rfl⟩)
  obtain ⟨rfl, rfl⟩ := split_unique (slash_notMem_of_fromStrRadix high') (hexadecimal.ne_of_spelled upper.spelled toDigit_slash)
    (shape.symm.trans shape')
  exact ⟨upper, lower⟩

theorem PlainHalves.refuses {text : String} (plain : PlainHalves text) (no : ¬ ∃ lsn, SpellsLsn text lsn) (row : ViewRow)
    (window : Option IdleWindow) :
    waitForText row window text = .error (errInvalid s!"nabla: \"{text}\" is not a valid LSN (expected X/Y)") := by
  have unread : parseLsn text = none := by
    cases read : parseLsn text with
    | none => rfl
    | some lsn => exact absurd ⟨lsn, plain.spells read⟩ no
  rw [waitForText, unread]

/-- `parse` reads the positions and nothing else, and the wait refuses every other text, just
where the halves are plain. -/
theorem parseLsn_exact_iff (text : String) :
    ((∀ lsn, parseLsn text = some lsn ↔ SpellsLsn text lsn) ∧
      ((¬ ∃ lsn, SpellsLsn text lsn) → ∀ row window,
        waitForText row window text = .error (errInvalid s!"nabla: \"{text}\" is not a valid LSN (expected X/Y)"))) ↔
      PlainHalves text := by
  constructor
  · intro ⟨exact, _⟩
    exact plainHalves_of_spells fun lsn => (exact lsn).mp
  · intro plain
    exact ⟨fun lsn => ⟨plain.spells, SpellsLsn.parse⟩, plain.refuses⟩

/-- A first half of nine digits: its highest digit is lost, and the wait is for position 0. -/
theorem parseLsn_overflow : parseLsn "100000000/0" = some 0 ∧ (¬ ∃ lsn, SpellsLsn "100000000/0" lsn) ∧
    (∀ row window, waitForText row window "100000000/0" = waitForFrontier row window 0) ∧
    parseLsn "+1/100000000" = some (2 ^ 32) ∧ ¬ ∃ lsn, SpellsLsn "+1/100000000" lsn := by
  have overlong : ¬ LsnHalf "100000000".toList := fun half => absurd half.short (by decide)
  refine ⟨rfl, ?_, fun row window => rfl, rfl, ?_⟩
  · intro ⟨lsn, hi, lo, shape, high, low, _⟩
    obtain ⟨rfl, rfl⟩ := @split_unique '/' "100000000".toList ['0'] hi lo (by decide)
      (hexadecimal.ne_of_spelled high.spelled toDigit_slash) shape
    exact overlong high
  · intro ⟨lsn, hi, lo, shape, high, low, _⟩
    obtain ⟨rfl, rfl⟩ := @split_unique '/' "+1".toList "100000000".toList hi lo (by decide)
      (hexadecimal.ne_of_spelled high.spelled toDigit_slash) shape
    exact overlong low

theorem toDigits_digit {d : Nat} (less : d < 16) : (Nat.toDigits 16 d).map Char.toUpper = [hexadecimal.symbol d] := by
  rw [Nat.toDigits_of_lt_base less]
  rfl

theorem toDigits_eq_write (n : Nat) : (Nat.toDigits 16 n).map Char.toUpper = hexadecimal.write n := by
  induction n using hexadecimal.digits_induction with
  | one n small => rw [System.write_small small, toDigits_digit small]
  | more n d positive less ih =>
      have digits : Nat.toDigits 16 n ++ Nat.toDigits 16 d = Nat.toDigits 16 (16 * n + d) :=
        Nat.toDigits_append_toDigits (by decide) positive less
      rw [System.write_push positive less, ← ih, ← toDigits_digit less, ← List.map_append, digits, Nat.mul_comm]
      rfl

theorem formatLsn_toList (lsn : Nat) :
    (formatLsn lsn).toList = hexadecimal.write (lsn / 2 ^ 32) ++ '/' :: hexadecimal.write (lsn % 2 ^ 32) := by
  rw [formatLsn, hexUpper, hexUpper, toDigits_eq_write, toDigits_eq_write, String.toList_append, String.toList_append,
    String.toList_ofList, String.toList_ofList, String.toList_ofList, List.append_assoc, List.singleton_append]

theorem isWhitespace_of_digit {c : Char} (digit : (toDigit c).isSome) : isWhitespace c = false := by
  have range : 48 ≤ c.toNat ∧ c.toNat ≤ 102 := by
    unfold toDigit at digit
    grind
  unfold isWhitespace
  simp only [Bool.or_eq_false_iff, Bool.and_eq_false_iff, decide_eq_false_iff_not]
  omega

theorem trim_eq_self {text : List Char} (free : ∀ c ∈ text, isWhitespace c = false) : trim text = text := by
  have front : text.dropWhile isWhitespace = text := by
    rw [List.dropWhile_eq_self_iff]
    intro long
    rw [free _ (List.getElem_mem long)]
    exact Bool.false_ne_true
  rw [trim, front, List.rdropWhile_eq_self_iff]
  intro nonempty
  rw [free _ (List.getLast_mem nonempty)]
  exact Bool.false_ne_true

theorem trim_halves {hi lo : List Char} (high : hexadecimal.Spelled hi) (low : hexadecimal.Spelled lo) :
    trim (hi ++ '/' :: lo) = hi ++ '/' :: lo := by
  apply trim_eq_self
  intro c member
  rcases List.mem_append.mp member with front | back
  · exact isWhitespace_of_digit (high c front)
  · rcases List.mem_cons.mp back with rfl | back
    · rfl
    · exact isWhitespace_of_digit (low c back)

theorem lsnHalf_write {n : Nat} (fits : n < 2 ^ 32) : LsnHalf (hexadecimal.write n) where
  spelled := (System.canonical_write n).spelled
  nonempty := (System.canonical_write n).nonempty
  short := System.length_write_le fits

theorem spellsLsn_formatLsn {lsn : Nat} (fits : lsn < 2 ^ 64) : SpellsLsn (formatLsn lsn) lsn := by
  have high : LsnHalf (hexadecimal.write (lsn / 2 ^ 32)) := lsnHalf_write (Nat.div_lt_of_lt_mul fits)
  have low : LsnHalf (hexadecimal.write (lsn % 2 ^ 32)) := lsnHalf_write (Nat.mod_lt lsn (by decide))
  refine ⟨_, _, ?_, high, low, ?_⟩
  · rw [formatLsn_toList, trim_halves high.spelled low.spelled]
  · rw [System.value_write, System.value_write, Nat.div_add_mod']

/-- Upper-case text without leading zeros whose halves fit in 32 bits. -/
def CanonicalLsn (text : String) : Prop :=
  ∃ hi lo, text.toList = hi ++ '/' :: lo ∧ (hexadecimal.Canonical hi ∧ hexadecimal.value hi < 2 ^ 32) ∧
    hexadecimal.Canonical lo ∧ hexadecimal.value lo < 2 ^ 32

/-- What the text of a position parses to is written as that text. -/
theorem CanonicalLsn.written {text : String} (canonical : CanonicalLsn text) : ∃ lsn < 2 ^ 64, formatLsn lsn = text := by
  obtain ⟨hi, lo, shape, ⟨high, high'⟩, low, low'⟩ := canonical
  refine ⟨hexadecimal.value hi * 2 ^ 32 + hexadecimal.value lo, by omega, String.toList_inj.mp ?_⟩
  have upper : (hexadecimal.value hi * 2 ^ 32 + hexadecimal.value lo) / 2 ^ 32 = hexadecimal.value hi := by omega
  have lower : (hexadecimal.value hi * 2 ^ 32 + hexadecimal.value lo) % 2 ^ 32 = hexadecimal.value lo := by omega
  rw [formatLsn_toList, upper, lower, high.write_value, low.write_value, shape]

theorem canonicalLsn_formatLsn {lsn : Nat} (fits : lsn < 2 ^ 64) : CanonicalLsn (formatLsn lsn) := by
  refine ⟨_, _, formatLsn_toList lsn, ⟨System.canonical_write _, ?_⟩, System.canonical_write _, ?_⟩
  · rw [System.value_write]
    exact Nat.div_lt_of_lt_mul fits
  · rw [System.value_write]
    exact Nat.mod_lt lsn (by decide)

theorem parseLsn_formatLsn {lsn : Nat} (fits : lsn < 2 ^ 64) : parseLsn (formatLsn lsn) = some lsn := (spellsLsn_formatLsn fits).parse

/-- `format` writes just the canonical texts, each for one position, and `parse` reads it back. -/
theorem formatLsn_round_trips :
    (∀ lsn, lsn < 2 ^ 64 → parseLsn (formatLsn lsn) = some lsn) ∧
      (∀ lsn lsn', lsn < 2 ^ 64 → lsn' < 2 ^ 64 → formatLsn lsn = formatLsn lsn' → lsn = lsn') ∧
      (∀ text, CanonicalLsn text → (parseLsn text).map formatLsn = some text) ∧
      ∀ text, CanonicalLsn text ↔ ∃ lsn < 2 ^ 64, formatLsn lsn = text := by
  refine ⟨fun lsn => parseLsn_formatLsn, ?_, ?_, ?_⟩
  · intro lsn lsn' fits fits' same
    have read := parseLsn_formatLsn fits
    rw [same, parseLsn_formatLsn fits'] at read
    exact (Option.some.inj read).symm
  · intro text canonical
    obtain ⟨lsn, fits, rfl⟩ := canonical.written
    rw [parseLsn_formatLsn fits, Option.map_some]
  · intro text
    constructor
    · exact CanonicalLsn.written
    · intro ⟨lsn, fits, is⟩
      exact is ▸ canonicalLsn_formatLsn fits

theorem formatLsn_round_trips_wal : parseLsn (formatLsn 0x16B3748) = some 0x16B3748 ∧
    (parseLsn "FFFFFFFF/0").map formatLsn = some "FFFFFFFF/0" := by
  have is : formatLsn 0xFFFFFFFF00000000 = "FFFFFFFF/0" := by decide
  have canonical : CanonicalLsn "FFFFFFFF/0" := is ▸ canonicalLsn_formatLsn (by decide)
  exact ⟨formatLsn_round_trips.1 0x16B3748 (by decide), formatLsn_round_trips.2.2.1 "FFFFFFFF/0" canonical⟩

end Nabla
