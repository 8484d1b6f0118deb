import Mathlib.Algebra.Group.Nat.Defs

/-! WAL positions: a 64-bit number whose text is two hexadecimal halves. -/
namespace Nabla

/-- `{:X}` of a number. -/
def hexUpper (n : Nat) : String := String.ofList ((Nat.toDigits 16 n).map Char.toUpper)

/-- `lsn::format`. -/
def formatLsn (lsn : Nat) : String := hexUpper (lsn / 2 ^ 32) ++ "/" ++ hexUpper (lsn % 2 ^ 32)

example : formatLsn 0x16B3748 = "0/16B3748" := by decide

end Nabla
