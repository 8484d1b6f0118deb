import Nabla.Lib.Cursor

/-! Formats: the items a parser reads, with what is written of each and what it makes of it. -/
namespace Cursors

variable {β ε α γ δ η : Type}

/-- The parser reads what is written of the good items, all of it and nothing else, and no
two items are written alike. -/
structure Format (p : Parser β ε α) (good : δ → Prop) (encode : δ → List β) (value : δ → α) : Prop where
  delimited : Delimited p
  consumes : ∀ item, good item → Consumes p (encode item) (value item)
  written : ∀ part a, Consumes p part a → ∃ item, good item ∧ part = encode item ∧ a = value item
  unique : ∀ item item', good item → good item' → encode item = encode item' → item = item'

/-- A parser reads one part from the front of a sequence. -/
theorem Consumes.unique {p : Parser β ε α} {part part' after after' : List β} {a a' : α} (one : Consumes p part a)
    (other : Consumes p part' a') (same : part ++ after = part' ++ after') : part = part' ∧ a = a' ∧ after = after' := by
  have left := one.run after
  rw [same, other.run after'] at left
  obtain ⟨rfl, cursors⟩ := Prod.mk.inj (Except.ok.inj left)
  obtain ⟨rfl, rfl⟩ := List.append_inj same (Cursor.mk.inj cursors).2.symm
  exact ⟨rfl, rfl, rfl⟩

theorem Delimited.consumes_bind {p : Parser β ε α} {f : α → Parser β ε γ} {part : List β} {c : γ} (first : Delimited p)
    (next : ∀ front a, Consumes p front a → Delimited (f a)) (both : Consumes (p >>= f) part c) :
    ∃ front a back, part = front ++ back ∧ Consumes p front a ∧ Consumes (f a) back c := by
  have read : (p ⟨part ++ [], 0⟩ >>= fun r => f r.1 r.2) = .ok (c, ⟨part ++ [], part.length⟩) := both.run []
  rw [List.append_nil] at read
  cases step : p ⟨part, 0⟩ with
  | error e =>
      rw [step] at read
      cases read
  | ok r =>
      obtain ⟨a, mid⟩ := r
      rw [step] at read
      obtain ⟨front, back, rfl, rfl, exact⟩ := first [] part a mid step
      have read : f a ⟨front ++ back, front.length⟩ = .ok (c, ⟨front ++ back, (front ++ back).length⟩) := read
      obtain ⟨back', after, rfl, cursors, exact'⟩ := next front a exact.consumes front back c _ read
      -- the second parser stops at the end, so that it has read all that was left
      have length := (Cursor.mk.inj cursors).2
      rw [List.length_append, List.length_append, List.length_append] at length
      have nothing : after = [] := List.length_eq_zero_iff.mp (by omega)
      subst nothing
      rw [List.append_nil]
      exact ⟨front, a, back', rfl, exact.consumes, exact'.consumes⟩

/-- One item is written as nothing. -/
theorem Format.single {good : δ → Prop} {encode : δ → List β} {value : δ → α} {a : α} (item : δ) (is : ∀ i, good i ↔ i = item)
    (empty : encode item = []) (here : value item = a) : Format (Pure.pure a : Parser β ε α) good encode value where
  delimited := .pure a
  consumes := by
    intro i member
    rw [(is i).mp member, empty, here]
    exact .pure a
  written := by
    intro part b read
    obtain ⟨rfl, rfl, -⟩ := @Consumes.unique _ _ _ _ part [] [] part b a read (.pure a) (List.append_nil part)
    exact ⟨item, (is item).mpr rfl, empty.symm, here.symm⟩
  unique := fun i i' member member' _ => ((is i).mp member).trans ((is i').mp member').symm

theorem Format.throw {good : δ → Prop} {encode : δ → List β} {value : δ → α} (e : ε) (none : ∀ i, ¬ good i) :
    Format (throw e : Parser β ε α) good encode value where
  delimited := .throw e
  consumes := fun i member => absurd member (none i)
  written := by
    intro part a read
    have fails := read.run []
    cases fails
  unique := fun i _ member _ _ => absurd member (none i)

/-- The first parser reads a key of the item, and what follows reads the items of that key. -/
theorem Format.keyed {p : Parser β ε α} {f : α → Parser β ε γ} {good : δ → Prop} {encode : δ → List β} {value : δ → α} {key : η → δ}
    {good' : η → Prop} {rest : η → List β} {value' : η → γ} (first : Format p good encode value)
    (keys : ∀ i, good' i → good (key i))
    (next : ∀ d, good d → Format (f (value d)) (fun i => good' i ∧ key i = d) rest value') :
    Format (p >>= f) good' (fun i => encode (key i) ++ rest i) value' := by
  have follows : ∀ part a, Consumes p part a → Delimited (f a) := by
    intro part a read
    obtain ⟨d, member, -, rfl⟩ := first.written part a read
    exact (next d member).delimited
  constructor
  · exact first.delimited.bind_of follows
  · intro i member
    exact (first.consumes _ (keys i member)).bind ((next _ (keys i member)).consumes i ⟨member, rfl⟩)
  · intro part c read
    obtain ⟨front, a, back, rfl, one, two⟩ := first.delimited.consumes_bind follows read
    obtain ⟨d, member, rfl, rfl⟩ := first.written front a one
    obtain ⟨i, ⟨member', rfl⟩, rfl, rfl⟩ := (next d member).written back c two
    exact ⟨i, member', rfl, rfl⟩
  · intro i i' member member' same
    obtain ⟨front, -, back⟩ := (first.consumes _ (keys i member)).unique (first.consumes _ (keys i' member')) same
    have key := first.unique _ _ (keys i member) (keys i' member') front
    exact (next _ (keys i member)).unique i i' ⟨member, rfl⟩ ⟨member', key.symm⟩ back

/-- The same parts, of other items. -/
theorem Format.map {p : Parser β ε α} {good : δ → Prop} {encode : δ → List β} {value : δ → α} {good' : η → Prop} {encode' : η → List β}
    {value' : η → α} (format : Format p good encode value) (item : δ → η) (goods : ∀ i, good' i ↔ ∃ d, good d ∧ i = item d)
    (encodes : ∀ d, good d → encode' (item d) = encode d) (values : ∀ d, good d → value' (item d) = value d) : Format p good' encode' value' where
  delimited := format.delimited
  consumes := by
    intro i member
    obtain ⟨d, here, rfl⟩ := (goods i).mp member
    rw [encodes d here, values d here]
    exact format.consumes d here
  written := by
    intro part a read
    obtain ⟨d, member, rfl, rfl⟩ := format.written part a read
    exact ⟨item d, (goods _).mpr ⟨d, member, rfl⟩, (encodes d member).symm, (values d member).symm⟩
  unique := by
    intro i i' member member' same
    obtain ⟨d, here, rfl⟩ := (goods i).mp member
    obtain ⟨d', here', rfl⟩ := (goods i').mp member'
    rw [encodes d here, encodes d' here'] at same
    rw [format.unique d d' here here' same]

/-- Two fields one after the other. -/
theorem Format.bind {p : Parser β ε α} {f : α → Parser β ε γ} {good : δ → Prop} {encode : δ → List β} {value : δ → α}
    {good' : δ → η → Prop} {encode' : δ → η → List β} {value' : δ → η → γ} (first : Format p good encode value)
    (next : ∀ d, good d → Format (f (value d)) (good' d) (encode' d) (value' d)) :
    Format (p >>= f) (fun i : δ × η => good i.1 ∧ good' i.1 i.2) (fun i => encode i.1 ++ encode' i.1 i.2)
      (fun i => value' i.1 i.2) := by
  apply Format.keyed first
  · exact fun i member => member.1
  · intro d member
    refine (next d member).map (Prod.mk d) ?_ (fun _ _ => rfl) fun _ _ => rfl
    intro i
    constructor
    · intro ⟨⟨_, member'⟩, key⟩
      subst key
      exact ⟨i.2, member', rfl⟩
    · intro ⟨y, member', is⟩
      subst is
      exact ⟨⟨member, member'⟩, rfl⟩

/-- What the last step makes of the item. -/
theorem Format.done {p : Parser β ε α} {good : δ → Prop} {encode : δ → List β} {value : δ → α} (format : Format p good encode value)
    (result : α → γ) : Format (p >>= fun a => Pure.pure (result a)) good encode fun i => result (value i) := by
  have ends : Format (p >>= fun a => Pure.pure (result a)) good (fun i => encode (id i) ++ []) fun i => result (value i) := by
    apply Format.keyed format
    · exact fun i member => member
    · intro d member
      exact .single d (fun i => ⟨fun both => both.2, fun is => ⟨is.symm ▸ member, is⟩⟩) rfl rfl
  simpa only [List.append_nil, id] using ends

/-- Items one after the other. -/
theorem Format.times {p : Parser β ε α} {good : δ → Prop} {encode : δ → List β} {value : δ → α} (each : Format p good encode value) (n : Nat) :
    Format (times p n) (fun items : List δ => items.length = n ∧ ∀ item ∈ items, good item) (fun items => items.flatMap encode)
      (fun items => items.map value) := by
  induction n with
  | zero =>
      refine .single [] ?_ rfl rfl
      intro items
      constructor
      · exact fun ⟨length, _⟩ => List.length_eq_zero_iff.mp length
      · intro is
        subst is
        exact ⟨rfl, fun item member => absurd member List.not_mem_nil⟩
  | succ n ih =>
      refine (each.bind fun d _ => ih.done (value d :: ·)).map (fun i => i.1 :: i.2) ?_ (fun _ _ => rfl) fun _ _ => rfl
      intro items
      constructor
      · intro ⟨length, members⟩
        obtain ⟨first, rest, rfl⟩ := List.exists_cons_of_length_eq_add_one length
        obtain ⟨member, members⟩ := List.forall_mem_cons.mp members
        exact ⟨(first, rest), ⟨member, Nat.succ.inj length, members⟩, rfl⟩
      · intro ⟨⟨first, rest⟩, ⟨member, length, members⟩, is⟩
        subst is
        exact ⟨congrArg Nat.succ length, List.forall_mem_cons.mpr ⟨member, members⟩⟩

theorem Format.run_iff {p : Parser β ε α} {good : δ → Prop} {encode : δ → List β} {value : δ → α} (format : Format p good encode value)
    {data : List β} {a : α} :
    (∃ c, p ⟨data, 0⟩ = .ok (a, c)) ↔ ∃ item after, good item ∧ data = encode item ++ after ∧ a = value item := by
  constructor
  · intro ⟨c, read⟩
    obtain ⟨part, after, rfl, -, exact⟩ := format.delimited [] data a c read
    obtain ⟨item, member, rfl, rfl⟩ := format.written part a exact.consumes
    exact ⟨item, after, member, rfl, rfl⟩
  · intro ⟨item, after, member, is, is'⟩
    subst is is'
    exact ⟨_, (format.consumes item member).run after⟩

theorem Format.front_unique {p : Parser β ε α} {good : δ → Prop} {encode : δ → List β} {value : δ → α} (format : Format p good encode value)
    {item item' : δ} {after after' : List β} (member : good item) (member' : good item')
    (same : encode item ++ after = encode item' ++ after') : item = item' :=
  format.unique item item' member member' ((format.consumes item member).unique (format.consumes item' member') same).1

end Cursors
