import Mathlib.Data.List.Basic
import Mathlib.Tactic.Linarith

/-! SQL identifiers as texts: quoting, reading a quoted or unquoted identifier back, and the
cut to the length of a name. -/
namespace SqlNames

def splitOnce (separator : Char) : List Char → Option (List Char × List Char)
  | [] => none
  | c :: rest => if c = separator then some ([], rest) else (splitOnce separator rest).map fun halves => (c :: halves.1, halves.2)

theorem splitOnce_iff {separator : Char} {text front back : List Char} :
    splitOnce separator text = some (front, back) ↔ separator ∉ front ∧ text = front ++ separator :: back := by
  induction text generalizing front with
  | nil =>
      constructor
      · intro split
        cases split
      · intro ⟨_, is⟩
        exact absurd is.symm (List.append_ne_nil_of_right_ne_nil _ (List.cons_ne_nil _ _))
  | cons c rest ih =>
      unfold splitOnce
      split
      · rename_i here
        subst here
        constructor
        · intro split
          obtain ⟨rfl, rfl⟩ := Prod.mk.inj (Option.some.inj split)
          exact ⟨List.not_mem_nil, rfl⟩
        · intro ⟨free, is⟩
          cases front with
          | nil => rw [(List.cons.inj is).2]
          | cons first front => exact absurd ((List.cons.inj is).1 ▸ List.mem_cons_self) free
      · rename_i other
        rw [Option.map_eq_some_iff]
        constructor
        · intro ⟨⟨front', back'⟩, inner, is⟩
          obtain ⟨rfl, rfl⟩ := Prod.mk.inj is
          obtain ⟨free, rfl⟩ := ih.mp inner
          exact ⟨fun member => (List.mem_cons.mp member).elim (fun same => other same.symm) free, rfl⟩
        · intro ⟨free, is⟩
          cases front with
          | nil => exact absurd (List.cons.inj is).1 other
          | cons first front =>
              obtain ⟨rfl, rfl⟩ := List.cons.inj is
              exact ⟨(front, back), ih.mpr ⟨fun member => free (List.mem_cons_of_mem _ member), rfl⟩, rfl⟩

theorem split_unique {separator : Char} {front back front' back' : List Char} (free : separator ∉ front) (free' : separator ∉ front')
    (same : front ++ separator :: back = front' ++ separator :: back') : front = front' ∧ back = back' := by
  have left : splitOnce separator (front ++ separator :: back) = some (front, back) := splitOnce_iff.mpr ⟨free, rfl⟩
  have right := splitOnce_iff.mpr ⟨free', same⟩
  exact Prod.mk.inj (Option.some.inj (left.symm.trans right))

def byteSize (cs : List Char) : Nat := (cs.map Char.utf8Size).sum

/-- The longest beginning of whole characters within `limit` bytes. -/
def clip : Nat → List Char → List Char
  | _, [] => []
  | limit, c :: cs => if c.utf8Size ≤ limit then c :: clip (limit - c.utf8Size) cs else []

theorem byteSize_cons (c : Char) (cs : List Char) : byteSize (c :: cs) = c.utf8Size + byteSize cs := by
  rw [byteSize, List.map_cons, List.sum_cons]
  rfl

theorem byteSize_append (xs ys : List Char) : byteSize (xs ++ ys) = byteSize xs + byteSize ys := by
  rw [byteSize, List.map_append, List.sum_append]
  rfl

theorem clip_of_le {limit : Nat} {cs : List Char} (short : byteSize cs ≤ limit) : clip limit cs = cs := by
  induction cs generalizing limit with
  | nil => rfl
  | cons c cs ih =>
      rw [byteSize_cons] at short
      have first : c.utf8Size ≤ limit := by omega
      rw [clip, if_pos first, ih (by omega)]

theorem clip_begins (limit : Nat) (cs : List Char) : clip limit cs <+: cs := by
  induction cs generalizing limit with
  | nil => exact List.prefix_rfl
  | cons c cs ih =>
      rw [clip]
      split
      · exact List.cons_prefix_cons.mpr ⟨rfl, ih _⟩
      · exact List.nil_prefix

theorem byteSize_clip (limit : Nat) (cs : List Char) : byteSize (clip limit cs) ≤ limit := by
  induction cs generalizing limit with
  | nil => exact Nat.zero_le _
  | cons c cs ih =>
      rw [clip]
      split
      · rename_i fits
        have rest := ih (limit - c.utf8Size)
        rw [byteSize_cons]
        omega
      · exact Nat.zero_le _

theorem clip_concat {limit : Nat} {xs : List Char} {c : Char} (long : limit < byteSize (xs ++ [c])) : clip limit (xs ++ [c]) = clip limit xs := by
  induction xs generalizing limit with
  | nil =>
      rw [List.nil_append, byteSize_cons, show byteSize [] = 0 from rfl] at long
      exact if_neg (by omega)
  | cons d xs ih =>
      rw [List.cons_append, byteSize_cons] at long
      rw [List.cons_append, clip, clip]
      by_cases first : d.utf8Size ≤ limit
      · rw [if_pos first, if_pos first, ih (by omega)]
      · rw [if_neg first, if_neg first]

theorem clip_replicate {c : Char} (single : c.utf8Size = 1) (limit n : Nat) :
    clip limit (List.replicate n c) = List.replicate (min limit n) c := by
  induction n generalizing limit with
  | zero => rw [Nat.min_zero]; rfl
  | succ n ih =>
      rw [List.replicate_succ, clip, single]
      cases limit with
      | zero => rw [if_neg (by omega), Nat.zero_min]; rfl
      | succ limit => rw [if_pos (by omega), Nat.add_sub_cancel, ih, Nat.add_min_add_right, List.replicate_succ]

def doubled (cs : List Char) : List Char := cs.flatMap fun c => if c = '"' then [c, c] else [c]

def quoted (cs : List Char) : List Char := '"' :: (doubled cs ++ ['"'])

theorem doubled_cons (c : Char) (cs : List Char) : doubled (c :: cs) = (if c = '"' then [c, c] else [c]) ++ doubled cs :=
  List.flatMap_cons

theorem mem_doubled {c : Char} {cs : List Char} : c ∈ doubled cs ↔ c ∈ cs := by
  induction cs with
  | nil => exact Iff.rfl
  | cons d cs ih =>
      rw [doubled_cons, List.mem_append, ih, List.mem_cons]
      split <;> simp

theorem length_le_doubled (cs : List Char) : cs.length ≤ (doubled cs).length := by
  induction cs with
  | nil => exact Nat.le_refl _
  | cons c cs ih =>
      rw [doubled_cons, List.length_append, List.length_cons]
      split
      · simp only [List.length_cons, List.length_nil]
        omega
      · simp only [List.length_cons, List.length_nil]
        omega

theorem doubled_replicate (n : Nat) : doubled (List.replicate n '"') = List.replicate (2 * n) '"' := by
  induction n with
  | zero => rfl
  | succ n ih =>
      rw [List.replicate_succ, doubled_cons, if_pos rfl, ih]
      rfl

theorem eq_replicate_of_prefix_quoted {cs : List Char} (start : cs <+: quoted cs) : cs = List.replicate cs.length '"' := by
  have each : ∀ n, n ≤ cs.length → cs.take n = List.replicate n '"' := by
    intro n
    induction n with
    | zero => exact fun _ => List.take_zero
    | succ n ih =>
        intro within
        have before := ih (by omega)
        -- what is known of the text so far is doubled behind the opening quote
        have known : cs = List.replicate n '"' ++ cs.drop n := before ▸ (List.take_append_drop n cs).symm
        have front : List.replicate (n + 1) '"' <+: quoted cs := by
          rw [quoted, known, List.replicate_succ, doubled, List.flatMap_append]
          refine List.cons_prefix_cons.mpr ⟨rfl, ?_⟩
          rw [List.append_assoc, show (List.replicate n '"').flatMap _ = List.replicate (2 * n) '"' from doubled_replicate n]
          have twice : List.replicate n '"' <+: List.replicate (2 * n) '"' :=
            ⟨List.replicate n '"', by rw [List.replicate_append_replicate, Nat.two_mul]⟩
          exact twice.trans (List.prefix_append _ _)
        have same := List.prefix_of_prefix_length_le ((List.take_prefix (n + 1) cs).trans start) front (by
          rw [List.length_take, List.length_replicate]
          omega)
        exact same.eq_of_length (by rw [List.length_take, List.length_replicate]; omega)
  have whole := each cs.length (Nat.le_refl _)
  rwa [List.take_length] at whole

def scanQuoted : List Char → Option (List Char × List Char)
  | [] => none
  | '"' :: '"' :: cs => (scanQuoted cs).map fun r => ('"' :: r.1, r.2)
  | '"' :: cs => some ([], cs)
  | c :: cs => (scanQuoted cs).map fun r => (c :: r.1, r.2)

theorem scanQuoted_doubled (cs : List Char) {rest : List Char} (other : rest.head? ≠ some '"') :
    scanQuoted (doubled cs ++ '"' :: rest) = some (cs, rest) := by
  induction cs with
  | nil =>
      cases rest with
      | nil => rfl
      | cons d rest =>
          have different : d ≠ '"' := fun same => other (congrArg some same)
          show scanQuoted ('"' :: d :: rest) = some ([], d :: rest)
          rw [scanQuoted]
          intro cs same
          exact different (List.cons.inj same).1
  | cons c cs ih =>
      rw [doubled_cons]
      by_cases quote : c = '"'
      · rw [if_pos quote, quote]
        show scanQuoted ('"' :: '"' :: (doubled cs ++ '"' :: rest)) = _
        rw [scanQuoted, ih]
        rfl
      · rw [if_neg quote]
        show scanQuoted (c :: (doubled cs ++ '"' :: rest)) = _
        rw [scanQuoted, ih]
        · rfl
        · intro cs same
          exact absurd same quote
        · exact quote

def identStart (c : Char) : Bool := c.isAlpha || c == '_' || 128 ≤ c.val

def identPart (c : Char) : Bool := identStart c || c.isDigit || c == '$'

/-- One identifier and what follows it: a quoted one as it is written, any other in lower
case and no reserved word, both cut to 63 bytes. -/
def scanIdentifier (reserved : List Char → Bool) : List Char → Option (List Char × List Char)
  | '"' :: cs =>
    match scanQuoted cs with
    | some (c :: name, rest) => some (clip 63 (c :: name), rest)
    | _ => none
  | cs =>
    let name := (cs.takeWhile identPart).map Char.toLower
    if cs.head?.any identStart && !reserved name then some (clip 63 name, cs.dropWhile identPart) else none

theorem scanIdentifier_quoted (reserved : List Char → Bool) {cs rest : List Char} (some_ : cs ≠ []) (other : rest.head? ≠ some '"') :
    scanIdentifier reserved (quoted cs ++ rest) = some (clip 63 cs, rest) := by
  have text : quoted cs ++ rest = '"' :: (doubled cs ++ '"' :: rest) := by
    rw [quoted, List.cons_append, List.append_assoc, List.singleton_append]
  rw [text, scanIdentifier, scanQuoted_doubled cs other]
  cases cs with
  | nil => exact absurd rfl some_
  | cons c cs => rfl

theorem isAlpha_eq (c : Char) : c.isAlpha = (c.isUpper || c.isLower) := rfl

theorem isLower_eq (c : Char) : c.isLower = (decide (c.val ≥ 'a'.val) && decide (c.val ≤ 'z'.val)) := rfl

theorem scanIdentifier_plain (reserved : List Char → Bool) {cs rest : List Char}
    (starts : (cs.head?.any fun c => c.isLower || c == '_') = true) (plain : (cs.all fun c => c.isLower || c.isDigit || c == '_') = true)
    (free : reserved cs = false) (stops : ∀ c, rest.head? = some c → identPart c = false) :
    scanIdentifier reserved (cs ++ rest) = some (clip 63 cs, rest) := by
  have parts : ∀ c ∈ cs, identPart c = true ∧ c.toLower = c := by
    intro c member
    have one := List.all_eq_true.mp plain c member
    simp only [Bool.or_eq_true, beq_iff_eq] at one
    rcases one with (lower | digit) | rfl
    · refine ⟨by simp [identPart, identStart, isAlpha_eq, lower], ?_⟩
      have range : ¬ (c.val ≥ 'A'.val ∧ c.val ≤ 'Z'.val) := by
        rw [isLower_eq, Bool.and_eq_true, decide_eq_true_eq, decide_eq_true_eq] at lower
        intro upper
        have between : 'a'.val ≤ 'Z'.val := UInt32.le_trans lower.1 upper.2
        exact absurd between (by decide)
      exact dif_neg range
    · refine ⟨by simp [identPart, digit], ?_⟩
      have range : ¬ (c.val ≥ 'A'.val ∧ c.val ≤ 'Z'.val) := by
        simp only [Char.isDigit, Bool.and_eq_true, decide_eq_true_eq] at digit
        intro upper
        have between : 'A'.val ≤ '9'.val := UInt32.le_trans upper.1 digit.2
        exact absurd between (by decide)
      exact dif_neg range
    · exact ⟨rfl, rfl⟩
  have whole : (cs ++ rest).takeWhile identPart = cs ∧ (cs ++ rest).dropWhile identPart = rest := by
    rw [List.takeWhile_append_of_pos fun c member => (parts c member).1, List.dropWhile_append_of_pos fun c member => (parts c member).1]
    cases rest with
    | nil => exact ⟨List.append_nil cs, rfl⟩
    | cons c rest =>
        have stop := stops c rfl
        rw [List.takeWhile_cons_of_neg (by rw [stop]; exact Bool.false_ne_true), List.append_nil,
          List.dropWhile_cons_of_neg (by rw [stop]; exact Bool.false_ne_true)]
        exact ⟨rfl, rfl⟩
  have same : cs.map Char.toLower = cs := (List.map_congr_left fun c member => (parts c member).2).trans (List.map_id cs)
  cases cs with
  | nil => cases starts
  | cons c cs =>
      have lead : identStart c = true := by
        simp only [List.head?_cons, Option.any_some, Bool.or_eq_true, beq_iff_eq] at starts
        rcases starts with lower | rfl
        · simp [identStart, isAlpha_eq, lower]
        · rfl
      have unquoted : c ≠ '"' := by
        rintro rfl
        exact absurd lead (by decide)
      rw [List.cons_append, scanIdentifier]
      · rw [← List.cons_append]
        simp only [whole.1, whole.2, same, free]
        rw [List.cons_append, List.head?_cons, Option.any_some, lead]
        rfl
      · exact fun cs same => unquoted (List.cons.inj same).1

def scanName (reserved : List Char → Bool) (text : List Char) : Option (List Char × List Char) :=
  match scanIdentifier reserved text with
  | some (schema, '.' :: rest) =>
    match scanIdentifier reserved rest with
    | some (rel, []) => some (schema, rel)
    | _ => none
  | _ => none

theorem scanName_quoted (reserved : List Char → Bool) {schema rel : List Char} (some_ : schema ≠ []) (some_' : rel ≠ []) :
    scanName reserved (quoted schema ++ '.' :: quoted rel) = some (clip 63 schema, clip 63 rel) := by
  have first : scanIdentifier reserved (quoted schema ++ '.' :: quoted rel) = some (clip 63 schema, '.' :: quoted rel) :=
    scanIdentifier_quoted reserved some_ (by simp)
  have second : scanIdentifier reserved (quoted rel ++ []) = some (clip 63 rel, []) := scanIdentifier_quoted reserved some_' (by simp)
  rw [List.append_nil] at second
  rw [scanName, first]
  simp only [second]

end SqlNames
