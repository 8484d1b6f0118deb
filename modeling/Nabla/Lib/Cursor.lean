import Mathlib.Data.List.Basic

/-! Parsers that move a cursor over a sequence, and what it means for one to consume a
part of the sequence and nothing else. -/
namespace Cursors

structure Cursor (β : Type) where
  data : List β
  pos : Nat

abbrev Parser (β ε α : Type) := StateT (Cursor β) (Except ε) α

variable {β ε α γ : Type}

/-- The parser once for each of `n` items. -/
def times (p : Parser β ε α) : Nat → Parser β ε (List α)
  | 0 => pure []
  | n + 1 => do
    let a ← p
    let rest ← times p n
    pure (a :: rest)

/-- Wherever `part` stands, the parser reads it, gives the value and stops right behind it. -/
def Consumes (p : Parser β ε α) (part : List β) (a : α) : Prop :=
  ∀ before after : List β, p ⟨before ++ part ++ after, before.length⟩ = .ok (a, ⟨before ++ part ++ after, (before ++ part).length⟩)

theorem Consumes.pure (a : α) : Consumes (Pure.pure a : Parser β ε α) [] a := by
  intro before after
  rw [List.append_nil]
  rfl

theorem Consumes.bind {p : Parser β ε α} {f : α → Parser β ε γ} {part rest : List β} {a : α} {c : γ} (first : Consumes p part a)
    (next : Consumes (f a) rest c) : Consumes (p >>= f) (part ++ rest) c := by
  intro before after
  have one := first before (rest ++ after)
  have two := next (before ++ part) after
  have same : before ++ (part ++ rest) ++ after = before ++ part ++ (rest ++ after) := by
    rw [List.append_assoc, List.append_assoc, List.append_assoc]
  have same' : before ++ part ++ rest ++ after = before ++ part ++ (rest ++ after) := by rw [List.append_assoc]
  rw [same, ← List.append_assoc before part rest]
  rw [same'] at two
  show (p _ >>= fun r => f r.1 r.2) = _
  rw [one]
  exact two

/-- The last step of a parser reads nothing more. -/
theorem Consumes.done {p : Parser β ε α} {f : α → Parser β ε γ} {part : List β} {a : α} {c : γ} (first : Consumes p part a)
    (next : Consumes (f a) [] c) : Consumes (p >>= f) part c := by
  have both := first.bind next
  rwa [List.append_nil] at both

/-- Items one after the other. -/
theorem Consumes.times {δ : Type} {p : Parser β ε α} {encode : δ → List β} {value : δ → α} {items : List δ}
    (each : ∀ item ∈ items, Consumes p (encode item) (value item)) :
    Consumes (times p items.length) (items.flatMap encode) (items.map value) := by
  induction items with
  | nil => exact .pure []
  | cons item items ih =>
      have rest := ih fun other member => each other (List.mem_cons_of_mem item member)
      exact (each item List.mem_cons_self).bind (rest.done (.pure _))

/-- A parser on a whole sequence with anything behind it. -/
theorem Consumes.run {p : Parser β ε α} {part : List β} {a : α} (consumes : Consumes p part a) (trailing : List β) :
    p ⟨part ++ trailing, 0⟩ = .ok (a, ⟨part ++ trailing, part.length⟩) := consumes [] trailing

/-- The parser reads this part, all of it and nothing behind it. -/
structure Exact (p : Parser β ε α) (part : List β) (a : α) : Prop where
  consumes : Consumes p part a
  needs : ∀ short, short <+: part → short ≠ part → ∀ before : List β, ∃ e, p ⟨before ++ short, before.length⟩ = .error e

/-- Whatever the parser accepts, it has read a part that it needs. -/
def Delimited (p : Parser β ε α) : Prop :=
  ∀ (before rest : List β) (a : α) (c : Cursor β), p ⟨before ++ rest, before.length⟩ = .ok (a, c) →
    ∃ part after, rest = part ++ after ∧ c = ⟨before ++ rest, (before ++ part).length⟩ ∧ Exact p part a

theorem Exact.pure (a : α) : Exact (Pure.pure a : Parser β ε α) [] a where
  consumes := .pure a
  needs := fun _ short other => absurd (List.prefix_nil.mp short) other

theorem Exact.bind {p : Parser β ε α} {f : α → Parser β ε γ} {part rest : List β} {a : α} {c : γ} (first : Exact p part a)
    (next : Exact (f a) rest c) : Exact (p >>= f) (part ++ rest) c where
  consumes := first.consumes.bind next.consumes
  needs := by
    intro short within other before
    show ∃ e, (p ⟨before ++ short, before.length⟩ >>= fun r => f r.1 r.2) = .error e
    -- the sequence ends inside the first part, or inside the second
    by_cases inside : short <+: part ∧ short ≠ part
    · obtain ⟨e, fails⟩ := first.needs short inside.1 inside.2 before
      exact ⟨e, by rw [fails]; rfl⟩
    · have behind : part <+: short := by
        rcases List.prefix_or_prefix_of_prefix within (List.prefix_append part rest) with left | right
        · by_cases same : short = part
          · exact same ▸ List.prefix_rfl
          · exact absurd ⟨left, same⟩ inside
        · exact right
      obtain ⟨t, rfl⟩ := behind
      have part' : t <+: rest := (List.prefix_append_right_inj part).mp within
      have other' : t ≠ rest := fun same => other (same ▸ rfl)
      obtain ⟨e, fails⟩ := next.needs t part' other' (before ++ part)
      refine ⟨e, ?_⟩
      rw [← List.append_assoc, first.consumes before t]
      exact fails

theorem Delimited.pure (a : α) : Delimited (Pure.pure a : Parser β ε α) := by
  intro before rest b c read
  obtain ⟨rfl, rfl⟩ := Prod.mk.inj (Except.ok.inj read)
  exact ⟨[], rest, rfl, by rw [List.append_nil], .pure a⟩

theorem Delimited.throw (e : ε) : Delimited (throw e : Parser β ε α) := by
  intro before rest b c read
  cases read

theorem Delimited.bind_of {p : Parser β ε α} {f : α → Parser β ε γ} (first : Delimited p)
    (next : ∀ part a, Consumes p part a → Delimited (f a)) : Delimited (p >>= f) := by
  intro before rest c cursor read
  have read : (p ⟨before ++ rest, before.length⟩ >>= fun r => f r.1 r.2) = .ok (c, cursor) := read
  cases step : p ⟨before ++ rest, before.length⟩ with
  | error e =>
      rw [step] at read
      cases read
  | ok r =>
      obtain ⟨a, mid⟩ := r
      rw [step] at read
      obtain ⟨part, after, rfl, rfl, exact⟩ := first before rest a mid step
      have read : f a ⟨before ++ (part ++ after), (before ++ part).length⟩ = .ok (c, cursor) := read
      rw [← List.append_assoc] at read
      obtain ⟨part', after', rfl, rfl, exact'⟩ := next part a exact.consumes (before ++ part) after c cursor read
      refine ⟨part ++ part', after', (List.append_assoc part part' after').symm, ?_, exact.bind exact'⟩
      simp only [List.append_assoc]

theorem Delimited.bind {p : Parser β ε α} {f : α → Parser β ε γ} (first : Delimited p) (next : ∀ a, Delimited (f a)) :
    Delimited (p >>= f) := first.bind_of fun _ a _ => next a

theorem Delimited.ite {p q : Parser β ε α} {condition : Prop} [Decidable condition] (yes : Delimited p) (no : Delimited q) :
    Delimited (if condition then p else q) := by
  split
  · exact yes
  · exact no

theorem Delimited.times {p : Parser β ε α} (each : Delimited p) (n : Nat) : Delimited (times p n) := by
  induction n with
  | zero => exact .pure []
  | succ n ih => exact each.bind fun a => ih.bind fun rest => .pure (a :: rest)

/-- A parser run on a whole sequence: what it accepts it also accepts with anything behind
the part it read, and never with less. -/
theorem Delimited.run {p : Parser β ε α} (delimited : Delimited p) {data : List β} {a : α} {c : Cursor β} (read : p ⟨data, 0⟩ = .ok (a, c)) :
    ∃ n, n ≤ data.length ∧ c = ⟨data, n⟩ ∧
      (∀ trailing, p ⟨data.take n ++ trailing, 0⟩ = .ok (a, ⟨data.take n ++ trailing, n⟩)) ∧
      ∀ k, k < n → ∃ e, p ⟨data.take k, 0⟩ = .error e := by
  obtain ⟨part, after, rfl, rfl, exact⟩ := delimited [] data a c read
  have taken : (part ++ after).take part.length = part := List.take_left
  refine ⟨part.length, ?_, rfl, ?_, ?_⟩
  · rw [List.length_append]
    exact Nat.le_add_right _ _
  · intro trailing
    rw [taken]
    exact exact.consumes.run trailing
  · intro k less
    have short : (part ++ after).take k = part.take k := List.take_append_of_le_length (Nat.le_of_lt less)
    have other : part.take k ≠ part := by
      intro same
      have := congrArg List.length same
      rw [List.length_take] at this
      omega
    rw [short]
    exact exact.needs (part.take k) (List.take_prefix k part) other []

/-- How a parser stops: with an error of its own, or at an access outside the sequence. -/
inductive Fault (ε : Type) where
  | error (e : ε)
  | outOfBounds
deriving DecidableEq

def slice (data : List β) (start stop : Nat) : Except (Fault ε) (List β) :=
  if start ≤ stop ∧ stop ≤ data.length then .ok ((data.drop start).take (stop - start)) else .error .outOfBounds

def index (data : List β) (i : Nat) : Except (Fault ε) β :=
  match data[i]? with
  | some b => .ok b
  | none => .error .outOfBounds

/-- From a position within the sequence, the trapping parser does what the other one does
without a trap, and the position stays within. -/
structure InBounds (p : Parser β (Fault ε) α) (q : Parser β ε α) : Prop where
  same : ∀ c : Cursor β, c.pos ≤ c.data.length → p c = (q c).mapError Fault.error
  within : ∀ (c : Cursor β) (a : α) (c' : Cursor β), c.pos ≤ c.data.length → q c = .ok (a, c') → c'.pos ≤ c'.data.length

theorem InBounds.pure (a : α) : InBounds (Pure.pure a : Parser β (Fault ε) α) (Pure.pure a) where
  same := fun _ _ => rfl
  within := by
    intro c b c' inside read
    obtain ⟨-, rfl⟩ := Prod.mk.inj (Except.ok.inj read)
    exact inside

theorem InBounds.throw (e : ε) : InBounds (throw (Fault.error e) : Parser β (Fault ε) α) (throw e) where
  same := fun _ _ => rfl
  within := fun _ _ _ _ read => nomatch read

theorem InBounds.bind {p : Parser β (Fault ε) α} {q : Parser β ε α} {f : α → Parser β (Fault ε) γ} {g : α → Parser β ε γ}
    (first : InBounds p q) (next : ∀ a, InBounds (f a) (g a)) : InBounds (p >>= f) (q >>= g) where
  same := by
    intro c inside
    show (p c >>= fun r => f r.1 r.2) = (q c >>= fun r => g r.1 r.2).mapError Fault.error
    rw [first.same c inside]
    cases step : q c with
    | error e => rfl
    | ok r => exact (next r.1).same r.2 (first.within c r.1 r.2 inside step)
  within := by
    intro c b c' inside read
    have read : (q c >>= fun r => g r.1 r.2) = .ok (b, c') := read
    cases step : q c with
    | error e =>
        rw [step] at read
        cases read
    | ok r =>
        rw [step] at read
        exact (next r.1).within r.2 b c' (first.within c r.1 r.2 inside step) read

theorem InBounds.ite {p p' : Parser β (Fault ε) α} {q q' : Parser β ε α} {condition : Prop} [Decidable condition] (yes : InBounds p q)
    (no : InBounds p' q') : InBounds (if condition then p else p') (if condition then q else q') := by
  split
  · exact yes
  · exact no

theorem InBounds.times {p : Parser β (Fault ε) α} {q : Parser β ε α} (each : InBounds p q) (n : Nat) :
    InBounds (times p n) (times q n) := by
  induction n with
  | zero => exact .pure []
  | succ n ih => exact each.bind fun a => ih.bind fun rest => .pure (a :: rest)

end Cursors
