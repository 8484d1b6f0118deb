import Mathlib.Data.List.Basic
import Mathlib.Tactic.Ring

/-! Fixed-width integers and text as bytes: big-endian numbers, two's complement, UTF-8
with its lossy reading. -/
namespace Bytes

/-- The low `width` bytes of a number, the most significant first. -/
def bigEndian : Nat → Nat → List UInt8
  | 0, _ => []
  | width + 1, n => UInt8.ofNat (n / 256 ^ width) :: bigEndian width (n % 256 ^ width)

def number (bytes : List UInt8) : Nat := bytes.foldl (fun n b => n * 256 + b.toNat) 0

theorem bigEndian_length (width n : Nat) : (bigEndian width n).length = width := by
  induction width generalizing n with
  | zero => rfl
  | succ width ih => rw [bigEndian, List.length_cons, ih]

theorem foldl_bigEndian {width n : Nat} (fits : n < 256 ^ width) (high : Nat) :
    (bigEndian width n).foldl (fun n b => n * 256 + b.toNat) high = high * 256 ^ width + n := by
  induction width generalizing n high with
  | zero =>
      rw [Nat.pow_zero] at fits
      rw [Nat.lt_one_iff.mp fits, Nat.pow_zero, Nat.mul_one]
      rfl
  | succ width ih =>
      have positive : 0 < 256 ^ width := Nat.pow_pos (by decide)
      have digit : n / 256 ^ width < 256 := Nat.div_lt_of_lt_mul (by rwa [Nat.pow_succ] at fits)
      have byte : (UInt8.ofNat (n / 256 ^ width)).toNat = n / 256 ^ width := by
        rw [UInt8.toNat_ofNat', Nat.mod_eq_of_lt digit]
      rw [bigEndian, List.foldl_cons, ih (Nat.mod_lt n positive), byte]
      calc
        (high * 256 + n / 256 ^ width) * 256 ^ width + n % 256 ^ width
          = high * (256 ^ width * 256) + (256 ^ width * (n / 256 ^ width) + n % 256 ^ width) := by ring
        _ = high * 256 ^ (width + 1) + n := by rw [Nat.div_add_mod, Nat.pow_succ]

theorem number_bigEndian {width n : Nat} (fits : n < 256 ^ width) : number (bigEndian width n) = n := by
  rw [number, foldl_bigEndian fits, Nat.zero_mul, Nat.zero_add]

theorem foldl_lt (bytes : List UInt8) (high : Nat) :
    bytes.foldl (fun n b => n * 256 + b.toNat) high < (high + 1) * 256 ^ bytes.length := by
  induction bytes generalizing high with
  | nil => exact Nat.lt_of_lt_of_eq (Nat.lt_succ_self high) (Nat.mul_one _).symm
  | cons b bytes ih =>
      have byte : high * 256 + b.toNat + 1 ≤ (high + 1) * 256 := by
        have := b.toNat_lt
        omega
      calc
        (b :: bytes).foldl (fun n b => n * 256 + b.toNat) high < (high * 256 + b.toNat + 1) * 256 ^ bytes.length := ih _
        _ ≤ (high + 1) * 256 * 256 ^ bytes.length := Nat.mul_le_mul_right _ byte
        _ = (high + 1) * 256 ^ (b :: bytes).length := by rw [List.length_cons, Nat.pow_succ]; ring

theorem number_lt (bytes : List UInt8) : number bytes < 256 ^ bytes.length :=
  Nat.lt_of_lt_of_eq (foldl_lt bytes 0) (Nat.one_mul _)

theorem bigEndian_number (bytes : List UInt8) : bigEndian bytes.length (number bytes) = bytes := by
  induction bytes with
  | nil => rfl
  | cons b bytes ih =>
      have positive : 0 < 256 ^ bytes.length := Nat.pow_pos (by decide)
      have split : number (b :: bytes) = 256 ^ bytes.length * b.toNat + number bytes := by
        have low := number_lt bytes
        have whole := foldl_bigEndian low b.toNat
        rw [ih] at whole
        show bytes.foldl (fun n b => n * 256 + b.toNat) (0 * 256 + b.toNat) = _
        rw [Nat.zero_mul, Nat.zero_add, whole, Nat.mul_comm]
      have high : number (b :: bytes) / 256 ^ bytes.length = b.toNat := by
        rw [split, Nat.mul_add_div positive, Nat.div_eq_of_lt (number_lt bytes), Nat.add_zero]
      have low : number (b :: bytes) % 256 ^ bytes.length = number bytes := by
        rw [split, Nat.mul_add_mod, Nat.mod_eq_of_lt (number_lt bytes)]
      rw [List.length_cons, bigEndian, high, low, ih, UInt8.ofNat_toNat]

/-- The signed number whose two's complement in `width` bytes is `n`. -/
def signed (width n : Nat) : Int := if n < 256 ^ width / 2 then n else n - (256 ^ width : Nat)

def complement (width : Nat) (i : Int) : Nat := (i % (256 ^ width : Nat)).toNat

def InRange (width : Nat) (i : Int) : Prop := -((256 ^ width / 2 : Nat) : Int) ≤ i ∧ i < (256 ^ width / 2 : Nat)

theorem complement_lt (width : Nat) (i : Int) : complement width i < 256 ^ width := by
  have positive : 0 < 256 ^ width := Nat.pow_pos (by decide)
  have below := Int.emod_lt_of_pos i (Int.natCast_pos.mpr positive)
  have above := Int.emod_nonneg i (Int.natCast_ne_zero.mpr positive.ne')
  rw [complement]
  omega

theorem exists_half {width : Nat} (some : 0 < width) : ∃ half, 256 ^ width = 2 * half := by
  obtain ⟨width, rfl⟩ := Nat.exists_eq_succ_of_ne_zero some.ne'
  exact ⟨128 * 256 ^ width, by rw [Nat.pow_succ]; ring⟩

theorem signed_complement {width : Nat} (some : 0 < width) {i : Int} (fits : InRange width i) :
    signed width (complement width i) = i := by
  obtain ⟨half, even⟩ := exists_half some
  have positive : 0 < 256 ^ width := Nat.pow_pos (by decide)
  obtain ⟨low, high⟩ := fits
  rw [signed, complement]
  rw [even] at low high positive ⊢
  rw [Nat.mul_div_cancel_left half (by decide)] at low high ⊢
  rcases lt_or_ge i 0 with negative | natural
  · have wraps : i % (2 * half : Nat) = i + (2 * half : Nat) := by
      rw [← Int.add_emod_right, Int.emod_eq_of_lt (by omega) (by omega)]
    rw [wraps, if_neg (by omega)]
    omega
  · rw [Int.emod_eq_of_lt natural (by omega), if_pos (by omega)]
    omega

theorem complement_signed {width n : Nat} (fits : n < 256 ^ width) : complement width (signed width n) = n := by
  have natural : (n : Int) < (256 ^ width : Nat) := Int.ofNat_lt.mpr fits
  rw [complement, signed]
  split
  · rw [Int.emod_eq_of_lt (Int.natCast_nonneg n) natural, Int.toNat_natCast]
  · have wraps : ((n : Int) - (256 ^ width : Nat)) % (256 ^ width : Nat) = n := by
      rw [Int.sub_emod_right, Int.emod_eq_of_lt (Int.natCast_nonneg n) natural]
    rw [wraps, Int.toNat_natCast]

theorem signed_inRange {width n : Nat} (some : 0 < width) (fits : n < 256 ^ width) : InRange width (signed width n) := by
  obtain ⟨half, even⟩ := exists_half some
  unfold InRange signed
  rw [even] at fits ⊢
  rw [Nat.mul_div_cancel_left half (by decide)]
  split <;> omega

def utf8 (s : String) : List UInt8 := s.toList.flatMap String.utf8EncodeChar

def continues (low high : UInt8) (bytes : List UInt8) : Bool := bytes.head?.any fun b => low ≤ b && b ≤ high

/-- The number of bytes of an invalid sequence that one replacement character stands for:
a first byte and the continuation bytes a longer valid sequence could have started with. -/
def invalidLength : List UInt8 → Nat
  | [] => 0
  | first :: rest =>
    if 0xE0 ≤ first && first ≤ 0xEF then
      let low := if first = 0xE0 then 0xA0 else 0x80
      let high := if first = 0xED then 0x9F else 0xBF
      if continues low high rest then 2 else 1
    else if 0xF0 ≤ first && first ≤ 0xF4 then
      let low := if first = 0xF0 then 0x90 else 0x80
      let high := if first = 0xF4 then 0x8F else 0xBF
      if continues low high rest then if continues 0x80 0xBF rest.tail then 3 else 2 else 1
    else 1

/-- The characters of at most `n` sequences, with U+FFFD for each invalid one. -/
def lossyChars : Nat → List UInt8 → List Char
  | 0, _ => []
  | _ + 1, [] => []
  | n + 1, b :: bytes =>
    match (b :: bytes).toByteArray.utf8DecodeChar? 0 with
    | some c => c :: lossyChars n ((b :: bytes).drop c.utf8Size)
    | none => Char.ofNat 0xFFFD :: lossyChars n ((b :: bytes).drop (invalidLength (b :: bytes)))

def fromUtf8Lossy (bytes : List UInt8) : String := String.ofList (lossyChars bytes.length bytes)

theorem lossyChars_encode (c : Char) (n : Nat) (bytes : List UInt8) :
    lossyChars (n + 1) (String.utf8EncodeChar c ++ bytes) = c :: lossyChars n bytes := by
  have read : (String.utf8EncodeChar c ++ bytes).toByteArray.utf8DecodeChar? 0 = some c := by
    rw [List.toByteArray_append]
    exact ByteArray.utf8DecodeChar?_utf8EncodeChar_append
  have rest : (String.utf8EncodeChar c ++ bytes).drop c.utf8Size = bytes := by
    rw [← String.length_utf8EncodeChar, List.drop_left]
  cases split : String.utf8EncodeChar c ++ bytes with
  | nil => exact absurd (List.append_eq_nil_iff.mp split).1 String.utf8EncodeChar_ne_nil
  | cons b bs =>
      rw [split] at read rest
      simp only [lossyChars, read, rest]

theorem lossyChars_utf8 (chars : List Char) {n : Nat} (enough : chars.length ≤ n) :
    lossyChars n (chars.flatMap String.utf8EncodeChar) = chars := by
  induction chars generalizing n with
  | nil => cases n <;> rfl
  | cons c chars ih =>
      obtain ⟨n, rfl⟩ := Nat.exists_eq_succ_of_ne_zero (Nat.ne_of_gt (Nat.lt_of_lt_of_le (Nat.succ_pos chars.length) enough))
      rw [List.flatMap_cons, lossyChars_encode, ih (Nat.le_of_succ_le_succ enough)]

theorem length_le_utf8 (chars : List Char) : chars.length ≤ (chars.flatMap String.utf8EncodeChar).length := by
  induction chars with
  | nil => exact Nat.le_refl 0
  | cons c chars ih =>
      have some : 0 < (String.utf8EncodeChar c).length := List.length_pos_iff.mpr String.utf8EncodeChar_ne_nil
      rw [List.flatMap_cons, List.length_append, List.length_cons]
      omega

theorem fromUtf8Lossy_utf8 (s : String) : fromUtf8Lossy (utf8 s) = s := by
  rw [fromUtf8Lossy, utf8, lossyChars_utf8 s.toList (length_le_utf8 s.toList), String.ofList_toList]

theorem zero_notMem_encode {c : Char} (other : c ≠ Char.ofNat 0) : (0 : UInt8) ∉ String.utf8EncodeChar c := by
  have positive : c.val.toNat ≠ 0 := fun zero => other (Char.ext (UInt32.toNat_inj.mp zero))
  have byte : ∀ n : Nat, n % 256 ≠ 0 → (0 : UInt8) ≠ UInt8.ofNat n := by
    intro n some same
    have zero := congrArg UInt8.toNat same
    rw [UInt8.toNat_ofNat'] at zero
    exact some zero.symm
  unfold String.utf8EncodeChar
  dsimp only
  split
  · rw [List.mem_singleton]
    exact byte _ (by omega)
  · split
    · simp only [List.mem_cons, List.not_mem_nil, or_false, not_or]
      exact ⟨byte _ (by omega), byte _ (by omega)⟩
    · split
      · simp only [List.mem_cons, List.not_mem_nil, or_false, not_or]
        exact ⟨byte _ (by omega), byte _ (by omega), byte _ (by omega)⟩
      · simp only [List.mem_cons, List.not_mem_nil, or_false, not_or]
        exact ⟨byte _ (by omega), byte _ (by omega), byte _ (by omega), byte _ (by omega)⟩

theorem zero_notMem_utf8 {s : String} (free : Char.ofNat 0 ∉ s.toList) : (0 : UInt8) ∉ utf8 s := by
  rw [utf8, List.mem_flatMap]
  rintro ⟨c, member, zero⟩
  exact zero_notMem_encode (fun same => free (same ▸ member)) zero

end Bytes
