import Mathlib.Logic.Function.Basic
import Nabla.Lib.Copies

/-! Tables published in epochs, each with a numbered log of its own: between any two states
of one epoch the log says how a copy of the first becomes one of the second. -/
namespace Bags

variable {τ : Type}

/-- A state of the table: its epoch, the last number logged by then, its rows. -/
structure Edition (τ : Type) where
  epoch : Nat
  seq : Nat
  rows : List τ

/-- The log of an epoch, numbered on from `first`. -/
structure Volume (τ : Type) where
  first : Nat
  events : List (Event τ)

def Volume.last (v : Volume τ) : Nat := v.first + v.events.length

def Volume.append (v : Volume τ) (new : List (Event τ)) : Volume τ := ⟨v.first, v.events ++ new⟩

/-- The events with a number past `p`, up to `q`. -/
def Volume.between (v : Volume τ) (p q : Nat) : List (Event τ) := (v.events.drop (p - v.first)).take (q - p)

structure Story (τ : Type) where
  epoch : Nat
  volumes : Nat → Volume τ

def Story.grow (s : Story τ) (new : List (Event τ)) : Story τ :=
  { s with volumes := Function.update s.volumes s.epoch ((s.volumes s.epoch).append new) }

def Story.renew (s : Story τ) (first : Nat) : Story τ := ⟨s.epoch + 1, Function.update s.volumes (s.epoch + 1) ⟨first, []⟩⟩

@[simp] theorem Volume.append_first (v : Volume τ) (new : List (Event τ)) : (v.append new).first = v.first := rfl

@[simp] theorem Volume.append_last (v : Volume τ) (new : List (Event τ)) : (v.append new).last = v.last + new.length := by
  rw [Volume.last, Volume.last, Volume.append, List.length_append, Nat.add_assoc]

@[simp] theorem Volume.between_self (v : Volume τ) (p : Nat) : v.between p p = [] := by
  rw [Volume.between, Nat.sub_self, List.take_zero]

theorem Volume.between_append {v : Volume τ} {p q : Nat} (low : v.first ≤ p) (within : q ≤ v.last) (new : List (Event τ)) :
    (v.append new).between p q = v.between p q := by
  rw [Volume.last] at within
  rw [Volume.between, Volume.between, Volume.append, List.drop_append, List.take_append]
  have enough : q - p - (v.events.drop (p - v.first)).length = 0 := by
    rw [List.length_drop]
    omega
  rw [enough, List.take_zero, List.append_nil]

theorem Volume.between_split {v : Volume τ} {p q r : Nat} (low : v.first ≤ p) (le : p ≤ q) (le' : q ≤ r) :
    v.between p r = v.between p q ++ v.between q r := by
  have parts : q - v.first = p - v.first + (q - p) := by omega
  have whole : r - p = q - p + (r - q) := by omega
  rw [Volume.between, Volume.between, Volume.between, parts, ← List.drop_drop, whole, List.take_add]

theorem Volume.between_new {v : Volume τ} {p : Nat} (low : v.first ≤ p) (within : p ≤ v.last) (new : List (Event τ)) :
    (v.append new).between p (v.last + new.length) = v.between p v.last ++ new := by
  rw [Volume.last] at within
  have whole : ∀ w : Volume τ, w.first ≤ p → w.between p w.last = w.events.drop (p - w.first) := by
    intro w lower
    rw [Volume.between, List.take_of_length_le]
    rw [List.length_drop, Volume.last]
    omega
  have rest : p - v.first - v.events.length = 0 := by omega
  rw [← Volume.append_last, whole (v.append new) low, whole v low, Volume.append, List.drop_append, rest, List.drop_zero]

theorem Volume.between_section {earlier new rest : List (Event τ)} (first : Nat) :
    Volume.between ⟨first, earlier ++ (new ++ rest)⟩ (first + earlier.length) (first + earlier.length + new.length) = new := by
  rw [Volume.between, Nat.add_sub_cancel_left, Nat.add_sub_cancel_left]
  dsimp only
  rw [List.drop_left, List.take_left]

variable [DecidableEq τ]

/-- The editions of a story: each within the log of its epoch, one of them at its end, any
two of an epoch as far apart as the log says. -/
structure Story.Tells (s : Story τ) (editions : List (Edition τ)) : Prop where
  known : ∀ e ∈ editions, e.epoch ≤ s.epoch
  within : ∀ e ∈ editions, (s.volumes e.epoch).first ≤ e.seq ∧ e.seq ≤ (s.volumes e.epoch).last
  agree : ∀ e ∈ editions, ∀ e' ∈ editions, e.epoch = e'.epoch → e.seq ≤ e'.seq →
    Patches e.rows ((s.volumes e.epoch).between e.seq e'.seq) e'.rows
  ended : ∀ e ∈ editions, ∃ e' ∈ editions, e'.epoch = e.epoch ∧ e'.seq = (s.volumes e.epoch).last

theorem Story.Tells.nil (s : Story τ) : s.Tells [] where
  known := fun _ member => absurd member List.not_mem_nil
  within := fun _ member => absurd member List.not_mem_nil
  agree := fun _ member => absurd member List.not_mem_nil
  ended := fun _ member => absurd member List.not_mem_nil

/-- The log of an epoch can be played on any of its editions, as far as one likes, and gives
the edition that is there. -/
theorem Story.Tells.plays {s : Story τ} {editions : List (Edition τ)} (tells : s.Tells editions) {e : Edition τ} (member : e ∈ editions) {q : Nat}
    (low : e.seq ≤ q) (high : q ≤ (s.volumes e.epoch).last) :
    ∃ copy, patchAll e.rows ((s.volumes e.epoch).between e.seq q) = some copy ∧
      ∀ e' ∈ editions, e'.epoch = e.epoch → e'.seq = q → copy.Perm e'.rows := by
  obtain ⟨last, inside, same, reached⟩ := tells.ended e member
  obtain ⟨patched, done, _⟩ := tells.agree e member last inside same.symm (reached ▸ low.trans high)
  rw [reached, Volume.between_split (tells.within e member).1 low high, patchAll_append, Option.bind_eq_some_iff] at done
  obtain ⟨copy, first, _⟩ := done
  refine ⟨copy, first, fun e' inside' same' there => ?_⟩
  obtain ⟨patched', done', perm⟩ := tells.agree e member e' inside' same'.symm (there ▸ low)
  rw [there, first] at done'
  exact Option.some.inj done' ▸ perm

/-- Another state that a current one becomes by what is logged next. -/
theorem Story.Tells.grow {s : Story τ} {editions : List (Edition τ)} (tells : s.Tells editions) {current : Edition τ} (member : current ∈ editions)
    (epoch : current.epoch = s.epoch) (last : current.seq = (s.volumes s.epoch).last) {new : List (Event τ)} {rows : List τ}
    (patches : Patches current.rows new rows) :
    (s.grow new).Tells (⟨s.epoch, (s.volumes s.epoch).last + new.length, rows⟩ :: editions) := by
  have here : (s.grow new).volumes s.epoch = (s.volumes s.epoch).append new := Function.update_self _ _ _
  have other : ∀ e, e ≠ s.epoch → (s.grow new).volumes e = s.volumes e := fun e away => Function.update_of_ne away _ _
  have forward : ∀ e ∈ editions, e.epoch = s.epoch →
      Patches e.rows (((s.volumes s.epoch).append new).between e.seq ((s.volumes s.epoch).last + new.length)) rows := by
    intro e within same
    have bounds := tells.within e within
    rw [same] at bounds
    rw [Volume.between_new bounds.1 bounds.2]
    have before := tells.agree e within current member (same.trans epoch.symm) (last ▸ bounds.2)
    rw [same, last] at before
    exact before.trans patches
  constructor
  · exact List.forall_mem_cons.mpr ⟨le_refl _, tells.known⟩
  · refine List.forall_mem_cons.mpr ⟨?_, fun e within => ?_⟩
    · have low := (tells.within current member).1
      rw [epoch, last] at low
      dsimp only
      rw [here, Volume.append_first, Volume.append_last]
      omega
    · have bounds := tells.within e within
      by_cases same : e.epoch = s.epoch
      · rw [same] at bounds ⊢
        rw [here, Volume.append_first, Volume.append_last]
        omega
      · rw [other _ same]
        exact bounds
  · intro e left e' right same order
    rcases List.mem_cons.mp left with rfl | left
    · rcases List.mem_cons.mp right with rfl | right
      · rw [Volume.between_self]
        exact .nil (.refl _)
      · -- an earlier state that is not behind is the same one
        have bounds := tells.within e' right
        have same' : e'.epoch = s.epoch := same.symm
        rw [same'] at bounds
        have length : new.length = 0 := by
          dsimp only at order
          omega
        have level : e'.seq = (s.volumes s.epoch).last + new.length := by
          dsimp only at order
          omega
        have equal := forward e' right same'
        dsimp only
        rw [here, level, Volume.between_self]
        rw [level, Volume.between_self] at equal
        exact .nil equal.perm_of_nil.symm
    · rcases List.mem_cons.mp right with rfl | right
      · have same' : e.epoch = s.epoch := same
        rw [same', here]
        exact forward e left same'
      · by_cases current : e.epoch = s.epoch
        · have low := (tells.within e left).1
          have high := (tells.within e' right).2
          rw [← same, current] at high
          rw [current] at low
          rw [current, here, Volume.between_append low high, ← current]
          exact tells.agree e left e' right same order
        · rw [other _ current]
          exact tells.agree e left e' right same order
  · intro e within
    by_cases same : e.epoch = s.epoch
    · refine ⟨_, List.mem_cons_self, same.symm, ?_⟩
      rw [same, here, Volume.append_last]
    · rcases List.mem_cons.mp within with rfl | within
      · exact absurd rfl same
      · obtain ⟨e', inside, same', reached⟩ := tells.ended e within
        exact ⟨e', List.mem_cons_of_mem _ inside, same', by rw [other _ same, reached]⟩

theorem Story.Tells.renew {s : Story τ} {editions : List (Edition τ)} (tells : s.Tells editions) (first : Nat) : (s.renew first).Tells editions := by
  have same : ∀ e ∈ editions, (s.renew first).volumes e.epoch = s.volumes e.epoch := by
    intro e member
    have known := tells.known e member
    exact Function.update_of_ne (by omega) _ _
  constructor
  · exact fun e member => (tells.known e member).trans (Nat.le_succ _)
  · intro e member
    rw [same e member]
    exact tells.within e member
  · intro e left
    rw [same e left]
    exact tells.agree e left
  · intro e member
    rw [same e member]
    exact tells.ended e member

theorem Story.Tells.enter {s : Story τ} {editions : List (Edition τ)} (tells : s.Tells editions) (fresh : ∀ e ∈ editions, e.epoch ≠ s.epoch)
    {seq : Nat} (last : seq = (s.volumes s.epoch).last) (rows : List τ) : s.Tells (⟨s.epoch, seq, rows⟩ :: editions) := by
  constructor
  · exact List.forall_mem_cons.mpr ⟨le_refl _, tells.known⟩
  · exact List.forall_mem_cons.mpr ⟨⟨last ▸ Nat.le_add_right _ _, last.le⟩, tells.within⟩
  · intro e left e' right same order
    rcases List.mem_cons.mp left with rfl | left
    · rcases List.mem_cons.mp right with rfl | right
      · rw [Volume.between_self]
        exact .nil (.refl _)
      · exact absurd same.symm (fresh e' right)
    · rcases List.mem_cons.mp right with rfl | right
      · exact absurd same (fresh e left)
      · exact tells.agree e left e' right same order
  · refine List.forall_mem_cons.mpr ⟨⟨_, List.mem_cons_self, rfl, last⟩, fun e member => ?_⟩
    obtain ⟨e', inside, same, reached⟩ := tells.ended e member
    exact ⟨e', List.mem_cons_of_mem _ inside, same, reached⟩

end Bags
