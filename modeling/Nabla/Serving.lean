import Mathlib.Data.List.DropRight
import Mathlib.Data.Nat.Digits.Defs
import Nabla.LsnText
import Nabla.Pages

/-! What the server tells a client of a view, and what the client makes of it: the row of
`nabla.status`, the errors by their SQLSTATE, the outcome of a bootstrap. -/
namespace Nabla
open Numerals

/-- A row of `nabla.status`. -/
structure StatusRow where
  name : String
  status : Status
  epoch : Nat
  frontierLsn : Nat
  frontier : String
  currentSeq : Nat
  staleReason : Option String

def status (view : ViewRow) : StatusRow where
  name := view.name
  status := view.status
  epoch := view.epoch
  frontierLsn := view.frontier
  frontier := formatLsn view.frontier
  currentSeq := view.lastSeq
  staleReason :=
    match view.status with
    | .failed => view.lastError
    | _ => view.staleReason

/-- `(b - b'0') & 0x3F`. -/
def sixBits (c : Char) : Nat := (c.toNat + 64 - 48) % 64

/-- `make_sqlstate`: six bits for each character, the first one lowest. -/
def makeSqlstate (code : String) : Nat := (code.toList.zipIdx.map fun c => sixBits c.1 <<< (6 * c.2)).sum

/-- PostgreSQL's `unpack_sql_state`, for so many characters. -/
def unpackSqlstate : Nat → Nat → List Char
  | 0, _ => []
  | n + 1, packed => Char.ofNat (packed % 64 + 48) :: unpackSqlstate n (packed >>> 6)

namespace Client

/-- `DbError`, as far as the client reads it. -/
structure DbError where
  code : String
  message : String
  detail : Option String

/-- `tokio_postgres::Error`: an error of the server's, or trouble on the way. -/
inductive DriverError where
  | db (error : DbError)
  | transport

/-- `text.rsplit(' ').next()`. -/
def lastWord (text : List Char) : List Char := text.rtakeWhile fun c => c ≠ ' '

/-- `char::to_digit(10)`. -/
def decimalDigit (c : Char) : Option Nat := if 48 ≤ c.toNat ∧ c.toNat ≤ 57 then some (c.toNat - 48) else none

def decimal : System Char where
  radix := 10
  symbol := Nat.digitChar
  digit := decimalDigit
  several := by decide
  digit_lt := by
    intro c d read
    unfold decimalDigit at read
    grind
  digit_symbol := by decide

def readDecimal (bound : Nat) (digits : List Char) : Option Nat := digits.foldlM (decimal.push bound) 0

/-- `i32::from_str`: a sign may stand before the digits, and the number has to fit. -/
def parseI32 : List Char → Option Int
  | [] => none
  | ['+'] => none
  | ['-'] => none
  | '+' :: digits => (readDecimal (2 ^ 31) digits).map Int.ofNat
  | '-' :: digits => (readDecimal (2 ^ 31 + 1) digits).map fun n => -Int.ofNat n
  | digits => (readDecimal (2 ^ 31) digits).map Int.ofNat

def classify (epoch : Int) : DriverError → Failure
  | .transport => .disconnected
  | .db e =>
    match e.code with
    | "NB001" => .lagged
    | "NB002" => .stale (e.detail.getD "reason not recorded")
    | "NB003" => .epochChanged epoch ((e.detail.bind fun d => parseI32 (lastWord d.toList)).getD epoch)
    | "NB006" => .other (.viewFailed (e.detail.getD "reason not recorded"))
    | _ => .other (.postgres e.message)

def readBoot (view : StatusRow) (rows : List Json) : Boot :=
  let reason := view.staleReason.getD "reason not recorded"
  match view.status with
  | .initializing => .building
  | .refreshing => .building
  | .failed => .failed reason
  | .stale => .stale reason
  | .live => .ready ⟨view.epoch, view.frontier, view.currentSeq, rows⟩

end Client

/-- An error raised with a DETAIL, as the client gets to see it. -/
def ApiError.reported (e : ApiError) : Client.DbError := 
  ⟨String.ofList (unpackSqlstate 5 (makeSqlstate e.code)), e.message, some e.detail⟩

def Sixes (cs : List Char) : Prop := ∀ c ∈ cs, 48 ≤ c.toNat ∧ c.toNat < 112

instance (cs : List Char) : Decidable (Sixes cs) := List.decidableBAll _ cs

theorem sum_zipIdx_sixBits (cs : List Char) (k : Nat) :
    ((cs.zipIdx k).map fun c => sixBits c.1 <<< (6 * c.2)).sum = Nat.ofDigits 64 (cs.map sixBits) * 64 ^ k := by
  induction cs generalizing k with
  | nil => exact (Nat.zero_mul _).symm
  | cons c cs ih =>
      rw [List.zipIdx_cons, List.map_cons, List.sum_cons, ih, List.map_cons, Nat.ofDigits_cons, Nat.shiftLeft_eq, Nat.pow_mul, Nat.add_mul]
      congr 1
      rw [Nat.pow_succ, Nat.mul_comm 64, Nat.mul_assoc, Nat.mul_comm 64]

theorem unpackSqlstate_ofDigits {cs : List Char} (sixes : Sixes cs) : unpackSqlstate cs.length (Nat.ofDigits 64 (cs.map sixBits)) = cs := by
  induction cs with
  | nil => rfl
  | cons c cs ih =>
      obtain ⟨⟨low, high⟩, rest⟩ := List.forall_mem_cons.mp sixes
      have six : sixBits c < 64 := Nat.mod_lt _ (by decide)
      have here : sixBits c + 48 = c.toNat := by
        unfold sixBits
        omega
      have first : (sixBits c + 64 * Nat.ofDigits 64 (cs.map sixBits)) % 64 = sixBits c := by omega
      have later : (sixBits c + 64 * Nat.ofDigits 64 (cs.map sixBits)) / 64 = Nat.ofDigits 64 (cs.map sixBits) := by omega
      rw [List.length_cons, unpackSqlstate, List.map_cons, Nat.ofDigits_cons, Nat.shiftRight_eq_div_pow, first, later, ih rest, here,
        Char.ofNat_toNat]

theorem unpack_makeSqlstate {code : String} (length : code.toList.length = 5) (sixes : Sixes code.toList) :
    String.ofList (unpackSqlstate 5 (makeSqlstate code)) = code := by
  have back := unpackSqlstate_ofDigits sixes
  have packed := sum_zipIdx_sixBits code.toList 0
  rw [Nat.pow_zero, Nat.mul_one] at packed
  rw [← packed, length] at back
  rw [makeSqlstate, back, String.ofList_toList]

theorem changes_ok {view : ViewRow} {after epoch maxRows : Int} {keep : Bool} {rows : List Client.ServerRow}
    (answered : changes view after epoch maxRows keep = .ok rows) : view.Served ∧ epoch = view.epoch := by
  unfold changes at answered
  split at answered
  · cases answered
  · cases answered
  · rename_i fresh sound
    refine ⟨⟨fresh, sound⟩, ?_⟩
    by_contra other
    rw [if_pos other] at answered
    cases answered

namespace Client

theorem toDigits_decimal (n : Nat) : Nat.toDigits 10 n = decimal.write n := by
  induction n using decimal.digits_induction with
  | one n small =>
      have digit : Nat.toDigits 10 n = [Nat.digitChar n] := Nat.toDigits_of_lt_base small
      rw [System.write_small small, digit]
      rfl
  | more n d positive less ih =>
      have digits : Nat.toDigits 10 n ++ Nat.toDigits 10 d = Nat.toDigits 10 (10 * n + d) :=
        Nat.toDigits_append_toDigits (by decide) positive less
      have digit : Nat.toDigits 10 d = [Nat.digitChar d] := Nat.toDigits_of_lt_base less
      have order : decimal.radix * n + d = 10 * n + d := rfl
      rw [System.write_push positive less, ← ih, Nat.mul_comm n, order, ← digits, digit]
      rfl

theorem readDecimal_toDigits {n bound : Nat} (fits : n < bound) : readDecimal bound (Nat.toDigits 10 n) = some n := by
  refine (System.foldlM_push_iff (Nat.zero_lt_of_lt fits)).mpr ⟨?_, ?_, fits⟩
  · rw [toDigits_decimal]
    exact (System.canonical_write n).spelled
  · rw [toDigits_decimal]
    exact (System.value_write n).symm

theorem notMem_toDigits {c : Char} (none : decimalDigit c = none) (n : Nat) : c ∉ Nat.toDigits 10 n := by
  intro member
  rw [toDigits_decimal] at member
  have digit : (decimalDigit c).isSome := (System.canonical_write n).spelled c member
  rw [none] at digit
  cases digit

theorem toList_toString (n : Int) :
    (toString n).toList = if 0 ≤ n then Nat.toDigits 10 n.toNat else '-' :: Nat.toDigits 10 (-n).toNat := by
  rw [Int.toString_eq_repr, Int.repr_eq_if]
  split
  · exact Nat.toList_repr
  · rw [String.toList_append, Nat.toList_repr]
    rfl

theorem parseI32_toString {n : Int} (low : -2 ^ 31 ≤ n) (high : n < 2 ^ 31) : parseI32 (toString n).toList = some n := by
  rw [toList_toString]
  split
  · rename_i positive
    have plus := notMem_toDigits (c := '+') rfl n.toNat
    have minus := notMem_toDigits (c := '-') rfl n.toNat
    have read := @readDecimal_toDigits n.toNat (2 ^ 31) (by omega)
    have some := (System.canonical_write (S := decimal) n.toNat).nonempty
    rw [← toDigits_decimal] at some
    unfold parseI32
    split
    · exact absurd ‹_› some
    · rename_i is
      exact absurd (is ▸ List.mem_cons_self) plus
    · rename_i is
      exact absurd (is ▸ List.mem_cons_self) minus
    · rename_i is
      exact absurd (is ▸ List.mem_cons_self) plus
    · rename_i is
      exact absurd (is ▸ List.mem_cons_self) minus
    · rw [read, Option.map_some, Int.ofNat_eq_natCast, Int.toNat_of_nonneg positive]
  · rename_i negative
    have read := @readDecimal_toDigits (-n).toNat (2 ^ 31 + 1) (by omega)
    have some := (System.canonical_write (S := decimal) (-n).toNat).nonempty
    rw [← toDigits_decimal] at some
    unfold parseI32
    split
    · exact absurd ‹_› (List.cons_ne_nil _ _)
    · exact absurd (List.cons.inj ‹_›).1 (by decide)
    · exact absurd (List.cons.inj ‹_›).2 some
    · exact absurd (List.cons.inj ‹_›).1 (by decide)
    · rename_i is
      obtain ⟨_, rfl⟩ := List.cons.inj is
      rw [read, Option.map_some, Int.ofNat_eq_natCast, Int.toNat_of_nonneg (by omega), Int.neg_neg]
    · rename_i other
      exact absurd rfl (other _)

theorem lastWord_append {word : List Char} (free : ' ' ∉ word) (front : List Char) : lastWord (front ++ ' ' :: word) = word := by
  have kept : ∀ c ∈ word.reverse, decide (c ≠ ' ') = true := by
    intro c member
    rw [decide_eq_true_eq]
    rintro rfl
    exact free (List.mem_reverse.mp member)
  rw [lastWord, List.rtakeWhile, List.reverse_append, List.reverse_cons, List.append_assoc, List.takeWhile_append_of_pos kept]
  show (word.reverse ++ (' ' :: front.reverse).takeWhile fun c => decide (c ≠ ' ')).reverse = word
  rw [List.takeWhile_cons_of_neg (by decide), List.append_nil, List.reverse_reverse]

theorem blank_notMem_toString (n : Int) : ' ' ∉ (toString n).toList := by
  rw [toList_toString]
  split
  · exact notMem_toDigits rfl _
  · exact List.not_mem_cons_of_ne_of_not_mem (by decide) (notMem_toDigits rfl _)

theorem classify_lagged (epoch : Int) (name : String) (oldest : Int) : classify epoch (.db (errLagged name oldest).reported) = .lagged := by
  have code : (errLagged name oldest).reported.code = "NB001" := @unpack_makeSqlstate "NB001" (by decide) (by decide)
  simp only [classify, code]

theorem classify_stale (epoch : Int) (name : String) (reason : Option String) :
    classify epoch (.db (errStale name reason).reported) = .stale (reason.getD "reason not recorded") := by
  have code : (errStale name reason).reported.code = "NB002" := @unpack_makeSqlstate "NB002" (by decide) (by decide)
  simp only [classify, code]
  rfl

theorem classify_failed (epoch : Int) (name : String) (reason : Option String) :
    classify epoch (.db (errFailed name reason).reported) = .other (.viewFailed (reason.getD "reason not recorded")) := by
  have code : (errFailed name reason).reported.code = "NB006" := @unpack_makeSqlstate "NB006" (by decide) (by decide)
  simp only [classify, code]
  rfl

theorem classify_epochChanged (epoch : Int) (name : String) {was now : Int} (low : -2 ^ 31 ≤ now) (high : now < 2 ^ 31) :
    classify epoch (.db (errEpochChanged name was now).reported) = .epochChanged epoch now := by
  have code : (errEpochChanged name was now).reported.code = "NB003" := @unpack_makeSqlstate "NB003" (by decide) (by decide)
  have detail : (errEpochChanged name was now).reported.detail = some ("epoch " ++ toString was ++ " -> " ++ toString now) := by
    simp only [ApiError.reported, errEpochChanged]
    rfl
  simp only [classify, code, detail, Option.bind_some]
  have word : lastWord ("epoch " ++ toString was ++ " -> " ++ toString now).toList = (toString now).toList := by
    rw [String.toList_append, String.toList_append]
    have blank : " -> ".toList = " ->".toList ++ [' '] := rfl
    rw [blank, ← List.append_assoc, List.append_assoc _ [' '], List.singleton_append]
    exact lastWord_append (blank_notMem_toString now) _
  rw [word, parseI32_toString low high, Option.getD_some]

/-- What `changes` refuses a call for is what the client is told: the reason that the row
records, as a bootstrap of it says too, or the epoch, or that the cursor lags behind. -/
theorem classify_changes {view : ViewRow} (fits : view.epoch < 2 ^ 31) {after epoch maxRows : Int} {keep : Bool} {e : ApiError}
    (refused : changes view after epoch maxRows keep = .error e) :
    (view.status = .stale → ∃ reason, classify epoch (.db e.reported) = .stale reason ∧ ∀ rows, readBoot (status view) rows = .stale reason) ∧
    (view.status = .failed →
      ∃ reason, classify epoch (.db e.reported) = .other (.viewFailed reason) ∧ ∀ rows, readBoot (status view) rows = .failed reason) ∧
    (view.Served → classify epoch (.db e.reported) = if epoch = view.epoch then .lagged else .epochChanged epoch view.epoch) := by
  have boots : ∀ rows, readBoot (status view) rows = match view.status with
      | .initializing => .building
      | .refreshing => .building
      | .failed => .failed (view.lastError.getD "reason not recorded")
      | .stale => .stale (view.staleReason.getD "reason not recorded")
      | .live => .ready ⟨view.epoch, formatLsn view.frontier, view.lastSeq, rows⟩ := by
    intro rows
    cases is : view.status <;> simp only [readBoot, status, is]
  refine ⟨fun stale => ?_, fun failed => ?_, fun served => ?_⟩
  · simp only [changes, stale] at refused
    obtain rfl := Except.error.inj refused
    refine ⟨_, classify_stale epoch _ _, fun rows => ?_⟩
    rw [boots, stale]
  · simp only [changes, failed] at refused
    obtain rfl := Except.error.inj refused
    refine ⟨_, classify_failed epoch _ _, fun rows => ?_⟩
    rw [boots, failed]
  · by_cases here : epoch = view.epoch
    · subst here
      rw [changes_served served] at refused
      rw [if_pos rfl]
      split at refused
      · split at refused
        · obtain rfl := Except.error.inj refused
          exact classify_lagged _ _ _
        · cases refused
      · split at refused
        · obtain rfl := Except.error.inj refused
          exact classify_lagged _ _ _
        · cases refused
    · have moved : changes view after epoch maxRows keep = .error (errEpochChanged view.name epoch view.epoch) := by
        unfold changes
        rw [if_pos here]
        cases is : view.status with
        | stale => exact absurd is served.1
        | failed => exact absurd is served.2
        | initializing => rfl
        | refreshing => rfl
        | live => rfl
      obtain rfl := Except.error.inj (moved.symm.trans refused)
      rw [if_neg here]
      exact classify_epochChanged epoch view.name (by omega) (by omega)

theorem classify_changes_rebuilt : ∃ e, changes { shopView 0 [] with epoch := 2 } 0 1 10 false = .error e ∧
    classify 1 (.db e.reported) = .epochChanged 1 2 := by
  have refused : changes { shopView 0 [] with epoch := 2 } 0 1 10 false = .error (errEpochChanged "shop" 1 2) := rfl
  exact ⟨_, refused, (classify_changes (by decide) refused).2.2 ⟨Status.noConfusion, Status.noConfusion⟩⟩

end Client

end Nabla
