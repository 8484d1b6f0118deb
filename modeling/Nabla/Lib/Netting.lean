import Nabla.Lib.Keyed
import Mathlib.Data.Multiset.AddSub
import Mathlib.Algebra.Order.Sub.Defs

/-! Netting the changes of a keyed table: of a stream of rows removed and added, one entry
for each key with its row before and after, and the shorter stream that the entries stand
for. -/
namespace Bags

variable {ρ κ τ : Type} [DecidableEq κ]

inductive Event (ρ : Type) where
  | remove (row : ρ)
  | add (row : ρ)

def Event.row : Event ρ → ρ
  | .remove row | .add row => row

def Event.removed : Event ρ → Option ρ
  | .remove row => some row
  | .add _ => none

def Event.added : Event ρ → Option ρ
  | .remove _ => none
  | .add row => some row

def Event.play (key : ρ → κ) (table : List ρ) : Event ρ → List ρ
  | .remove row => table.filter fun r => !decide (key r = key row)
  | .add row => table ++ [row]

/-- The row is there to leave, or its key is free to join. -/
def Event.Fits (key : ρ → κ) (table : List ρ) : Event ρ → Prop
  | .remove row => row ∈ table
  | .add row => key row ∉ table.map key

def playAll (key : ρ → κ) (table : List ρ) (events : List (Event ρ)) : List ρ := events.foldl (Event.play key) table

def AllFit (key : ρ → κ) : List ρ → List (Event ρ) → Prop
  | _, [] => True
  | table, e :: events => e.Fits key table ∧ AllFit key (e.play key table) events

def rowAt (key : ρ → κ) (k : κ) (table : List ρ) : Option ρ := table.find? fun r => decide (key r = k)

variable {key : ρ → κ}

theorem rowAt_append (k : κ) (left right : List ρ) : rowAt key k (left ++ right) = (rowAt key k left).or (rowAt key k right) :=
  List.find?_append

theorem rowAt_key {k : κ} {table : List ρ} {row : ρ} (found : rowAt key k table = some row) : key row = k :=
  of_decide_eq_true (List.find?_some (p := fun r => decide (key r = k)) found)

theorem rowAt_mem {k : κ} {table : List ρ} {row : ρ} (found : rowAt key k table = some row) : row ∈ table :=
  List.mem_of_find?_eq_some found

theorem rowAt_eq_none {k : κ} {table : List ρ} : rowAt key k table = none ↔ k ∉ table.map key := by
  simp only [rowAt, List.find?_eq_none, decide_eq_true_eq, List.mem_map, not_exists, not_and]

theorem Keyed.rowAt_iff {table : List ρ} (keyed : Keyed key table) {k : κ} {row : ρ} :
    rowAt key k table = some row ↔ row ∈ table ∧ key row = k := by
  constructor
  · exact fun found => ⟨rowAt_mem found, rowAt_key found⟩
  · rintro ⟨member, rfl⟩
    exact keyed.find_of_mem member

theorem Event.Fits.keyed {table : List ρ} {e : Event ρ} (fits : e.Fits key table) (keyed : Keyed key table) :
    Keyed key (e.play key table) := by
  cases e with
  | remove row => exact keyed.filter _
  | add row =>
      rw [Keyed, Event.play, List.map_append, List.map_singleton]
      refine List.Nodup.append keyed (List.nodup_singleton _) ?_
      rw [List.disjoint_singleton]
      exact fits

theorem AllFit.keyed {table : List ρ} {events : List (Event ρ)} (fits : AllFit key table events) (keyed : Keyed key table) :
    Keyed key (playAll key table events) := by
  induction events generalizing table with
  | nil => exact keyed
  | cons e events ih => exact ih fits.2 (fits.1.keyed keyed)

theorem rowAt_play_other (table : List ρ) {e : Event ρ} {k : κ} (other : k ≠ key e.row) :
    rowAt key k (e.play key table) = rowAt key k table := by
  cases e with
  | remove row =>
      rw [rowAt, Event.play, List.find?_filter]
      apply congrArg (List.find? · table)
      funext r
      by_cases here : key r = k
      · have kept : k ≠ key row := other
        simp [here, kept]
      · simp [here]
  | add row =>
      rw [Event.play, rowAt_append, show rowAt key k [row] = none from ?_, Option.or_none]
      rw [rowAt_eq_none, List.map_singleton, List.mem_singleton]
      exact other

theorem Event.Fits.rowAt_play {table : List ρ} {e : Event ρ} (fits : e.Fits key table) :
    rowAt key (key e.row) (e.play key table) = e.added := by
  cases e with
  | remove row =>
      rw [Event.added, rowAt_eq_none, Event.play, List.mem_map]
      rintro ⟨r, kept, same⟩
      rw [List.mem_filter, decide_eq_true (show key r = key row from same)] at kept
      exact Bool.false_ne_true kept.2
  | add row =>
      have free : rowAt key (key row) table = none := rowAt_eq_none.mpr fits
      rw [Event.row, Event.play, rowAt_append, free, Option.none_or, rowAt, List.find?_singleton, if_pos (decide_eq_true rfl)]
      rfl

theorem playAll_append (table : List ρ) (before : List (Event ρ)) (e : Event ρ) :
    playAll key table (before ++ [e]) = e.play key (playAll key table before) := by
  rw [playAll, List.foldl_append]
  rfl

theorem rowAt_playAll_other (table : List ρ) (events : List (Event ρ)) {e : Event ρ} {k : κ} (other : k ≠ key e.row) :
    rowAt key k (playAll key table (events ++ [e])) = rowAt key k (playAll key table events) := by
  rw [playAll_append]
  exact rowAt_play_other _ other

theorem Event.Fits.rowAt_playAll {table : List ρ} {events : List (Event ρ)} {e : Event ρ} (fits : e.Fits key (playAll key table events)) :
    rowAt key (key e.row) (playAll key table (events ++ [e])) = e.added := by
  rw [playAll_append]
  exact fits.rowAt_play

theorem playAll_both (table : List ρ) (first second : List (Event ρ)) :
    playAll key table (first ++ second) = playAll key (playAll key table first) second := List.foldl_append

theorem AllFit.append {table : List ρ} {first second : List (Event ρ)} (fits : AllFit key table first)
    (later : AllFit key (playAll key table first) second) : AllFit key table (first ++ second) := by
  induction first generalizing table with
  | nil => exact later
  | cons e first ih => exact ⟨fits.1, ih fits.2 later⟩

theorem Event.play_perm {table table' : List ρ} (same : table.Perm table') (e : Event ρ) :
    (e.play key table).Perm (e.play key table') := by
  cases e with
  | remove row => exact same.filter _
  | add row => exact same.append_right _

omit [DecidableEq κ] in
theorem Event.Fits.perm {table table' : List ρ} (same : table.Perm table') {e : Event ρ} (fits : e.Fits key table) :
    e.Fits key table' := by
  cases e with
  | remove row => exact same.mem_iff.mp fits
  | add row => exact fun taken => fits ((same.map key).mem_iff.mpr taken)

theorem playAll_perm {table table' : List ρ} (same : table.Perm table') (events : List (Event ρ)) :
    (playAll key table events).Perm (playAll key table' events) := by
  induction events generalizing table table' with
  | nil => exact same
  | cons e events ih => exact ih (e.play_perm same)

theorem AllFit.perm {table table' : List ρ} (same : table.Perm table') {events : List (Event ρ)} (fits : AllFit key table events) :
    AllFit key table' events := by
  induction events generalizing table table' with
  | nil => trivial
  | cons e events ih => exact ⟨fits.1.perm same, ih (e.play_perm same) fits.2⟩

theorem fits_removals {table gone : List ρ} (within : gone ⊆ table) (keyed : Keyed key gone) :
    AllFit key table (gone.map .remove) ∧
      playAll key table (gone.map .remove) = table.filter fun r => !decide (key r ∈ gone.map key) := by
  induction gone generalizing table with
  | nil => exact ⟨trivial, (List.filter_eq_self.mpr fun r _ => by simp only [List.map_nil, List.not_mem_nil, decide_false, Bool.not_false]).symm⟩
  | cons row gone ih =>
      obtain ⟨free, keyed⟩ := List.nodup_cons.mp keyed
      have left : gone ⊆ (Event.remove row).play key table := by
        intro r member
        rw [Event.play, List.mem_filter, Bool.not_eq_true', decide_eq_false_iff_not]
        exact ⟨within (List.mem_cons_of_mem _ member), fun same => free (same ▸ List.mem_map_of_mem member)⟩
      obtain ⟨fits, rest⟩ := ih left keyed
      refine ⟨⟨within List.mem_cons_self, fits⟩, ?_⟩
      show playAll key ((Event.remove row).play key table) (gone.map .remove) = _
      rw [rest, Event.play, List.filter_filter]
      refine List.filter_congr fun r _ => ?_
      simp only [List.map_cons, List.mem_cons, Bool.decide_or, Bool.not_or, Bool.and_comm]

theorem Keyed.removals {table : List ρ} (keyed : Keyed key table) (hit : ρ → Bool) :
    AllFit key table ((table.filter hit).map .remove) ∧
      playAll key table ((table.filter hit).map .remove) = table.filter fun r => !hit r := by
  obtain ⟨fits, left⟩ := fits_removals (List.filter_subset_self table) (keyed.filter hit)
  refine ⟨fits, left.trans (List.filter_congr fun r member => ?_)⟩
  congr 1
  rw [Bool.eq_iff_iff, decide_eq_true_eq, List.mem_map]
  constructor
  · rintro ⟨s, selected, same⟩
    obtain ⟨within, yes⟩ := List.mem_filter.mp selected
    rwa [← keyed.eq_of_mem within member same]
  · exact fun yes => ⟨r, List.mem_filter.mpr ⟨member, yes⟩, rfl⟩

theorem Keyed.replacement {table : List ρ} (keyed : Keyed key table) {row row' : ρ} (member : row ∈ table) (same : key row' = key row) :
    AllFit key table [.remove row, .add row'] ∧
      (playAll key table [.remove row, .add row']).Perm (table.map fun r => if key r = key row then row' else r) := by
  obtain ⟨front, back, rfl⟩ := List.append_of_mem member
  have split : (front ++ row :: back).Perm (row :: (front ++ back)) := List.perm_middle
  have left : (Event.remove row).play key (front ++ row :: back) |>.Perm (front ++ back) := keyed.delete_perm split
  have others : ∀ r ∈ front ++ back, key r ≠ key row := by
    intro r within shared
    exact (List.nodup_cons.mp (keyed.perm split)).1 (shared ▸ List.mem_map_of_mem within)
  refine ⟨⟨member, ?_, trivial⟩, ?_⟩
  · rw [Event.Fits, (left.map key).mem_iff, List.mem_map]
    rintro ⟨r, within, shared⟩
    exact others r within (shared.trans same)
  · have kept : (front ++ back).map (fun r => if key r = key row then row' else r) = front ++ back := by
      conv_rhs => rw [← List.map_id (front ++ back)]
      exact List.map_congr_left fun r within => if_neg (others r within)
    refine (left.append_right [row']).trans ((List.perm_append_singleton _ _).trans ?_)
    refine List.Perm.trans ?_ (split.map _).symm
    rw [List.map_cons, if_pos rfl, kept]

/-- The row of a key before its first event and after its last. -/
structure Entry (ρ κ : Type) where
  key : κ
  before : Option ρ
  after : Option ρ

def record (key : ρ → κ) : List (Entry ρ κ) → Event ρ → List (Entry ρ κ)
  | [], e => [⟨key e.row, e.removed, e.added⟩]
  | s :: entries, e =>
    if s.key = key e.row then { s with after := e.added } :: entries else s :: record key entries e

def summarize (key : ρ → κ) (events : List (Event ρ)) : List (Entry ρ κ) := events.foldl (record key) []

theorem record_free {entries : List (Entry ρ κ)} {e : Event ρ} (free : key e.row ∉ entries.map Entry.key) :
    record key entries e = entries ++ [⟨key e.row, e.removed, e.added⟩] := by
  induction entries with
  | nil => rfl
  | cons s entries ih =>
      rw [List.map_cons, List.mem_cons, not_or] at free
      rw [record, if_neg (Ne.symm free.1), ih free.2]
      rfl

theorem record_keys {entries : List (Entry ρ κ)} {e : Event ρ} (taken : key e.row ∈ entries.map Entry.key) :
    (record key entries e).map Entry.key = entries.map Entry.key := by
  induction entries with
  | nil => exact absurd taken List.not_mem_nil
  | cons s entries ih =>
      by_cases here : s.key = key e.row
      · rw [record, if_pos here]
        rfl
      · rw [List.map_cons, List.mem_cons] at taken
        rw [record, if_neg here, List.map_cons, ih (taken.resolve_left (Ne.symm here))]
        rfl

theorem mem_record {entries : List (Entry ρ κ)} (distinct : (entries.map Entry.key).Nodup) {e : Event ρ}
    (taken : key e.row ∈ entries.map Entry.key) {s : Entry ρ κ} (member : s ∈ record key entries e) :
    s.key ≠ key e.row ∧ s ∈ entries ∨ ∃ s₀ ∈ entries, s₀.key = key e.row ∧ s = { s₀ with after := e.added } := by
  induction entries with
  | nil => exact absurd taken List.not_mem_nil
  | cons head entries ih =>
      rw [List.map_cons, List.nodup_cons] at distinct
      by_cases here : head.key = key e.row
      · rw [record, if_pos here, List.mem_cons] at member
        rcases member with rfl | later
        · exact Or.inr ⟨head, List.mem_cons_self, here, rfl⟩
        · refine Or.inl ⟨fun same => distinct.1 ?_, List.mem_cons_of_mem _ later⟩
          rw [here, ← same]
          exact List.mem_map_of_mem later
      · rw [record, if_neg here, List.mem_cons] at member
        rw [List.map_cons, List.mem_cons] at taken
        rcases member with rfl | later
        · exact Or.inl ⟨here, List.mem_cons_self⟩
        · rcases ih distinct.2 (taken.resolve_left (Ne.symm here)) later with ⟨other, kept⟩ | ⟨s₀, kept, same, eq⟩
          · exact Or.inl ⟨other, List.mem_cons_of_mem _ kept⟩
          · exact Or.inr ⟨s₀, List.mem_cons_of_mem _ kept, same, eq⟩

def firstEvent (key : ρ → κ) (events : List (Event ρ)) (k : κ) : Nat := (events.map fun e => key e.row).idxOf k

/-- What the entries say of a stream played on a table: one for each key with events, in
the order of first appearance, with the rows the table has before and after. -/
structure Nets (key : ρ → κ) (table : List ρ) (events : List (Event ρ)) (entries : List (Entry ρ κ)) : Prop where
  distinct : (entries.map Entry.key).Nodup
  keys : ∀ k, k ∈ entries.map Entry.key ↔ k ∈ events.map fun e => key e.row
  before : ∀ s ∈ entries, s.before = rowAt key s.key table
  after : ∀ s ∈ entries, s.after = rowAt key s.key (playAll key table events)
  untouched : ∀ k, k ∉ entries.map Entry.key → rowAt key k (playAll key table events) = rowAt key k table
  order : (entries.map Entry.key).Pairwise fun k l => firstEvent key events k ≤ firstEvent key events l

theorem Nets.nil (table : List ρ) : Nets key table [] [] where
  distinct := List.nodup_nil
  keys := fun _ => Iff.rfl
  before := fun _ member => absurd member List.not_mem_nil
  after := fun _ member => absurd member List.not_mem_nil
  untouched := fun _ _ => rfl
  order := .nil

theorem Event.Fits.rowAt_before {table : List ρ} {e : Event ρ} (fits : e.Fits key table) (keyed : Keyed key table) :
    rowAt key (key e.row) table = e.removed := by
  cases e with
  | remove row => exact keyed.find_of_mem fits
  | add row => exact rowAt_eq_none.mpr fits

section Step

variable {table : List ρ} {events : List (Event ρ)} {entries : List (Entry ρ κ)} (nets : Nets key table events entries) {e : Event ρ}
  (fits : e.Fits key (playAll key table events))
include nets fits

theorem Nets.step_free (keyed : Keyed key (playAll key table events)) (free : key e.row ∉ entries.map Entry.key) :
    Nets key table (events ++ [e]) (record key entries e) := by
  have last : ∀ k ∈ entries.map Entry.key, firstEvent key (events ++ [e]) k = firstEvent key events k := by
    intro k member
    rw [firstEvent, List.map_append]
    exact List.idxOf_append_of_mem ((nets.keys k).mp member)
  have apart : ∀ s ∈ entries, s.key ≠ key e.row := fun s member same => free (same ▸ List.mem_map_of_mem member)
  have names : (record key entries e).map Entry.key = entries.map Entry.key ++ [key e.row] := by
    rw [record_free free, List.map_append]
    rfl
  constructor
  · rw [names]
    exact List.Nodup.append nets.distinct (List.nodup_singleton _) (List.disjoint_singleton.mpr free)
  · intro k
    rw [names, List.map_append, List.mem_append, List.mem_append, nets.keys k]
    rfl
  · intro s member
    rw [record_free free, List.mem_append, List.mem_singleton] at member
    rcases member with earlier | rfl
    · exact nets.before s earlier
    · exact (fits.rowAt_before keyed).symm.trans (nets.untouched _ free)
  · intro s member
    rw [record_free free, List.mem_append, List.mem_singleton] at member
    rcases member with earlier | rfl
    · rw [rowAt_playAll_other _ _ (apart s earlier)]
      exact nets.after s earlier
    · exact fits.rowAt_playAll.symm
  · intro k absent
    rw [names, List.mem_append, List.mem_singleton, not_or] at absent
    rw [rowAt_playAll_other _ _ absent.2]
    exact nets.untouched k absent.1
  · rw [names, List.pairwise_append]
    refine ⟨nets.order.imp_of_mem fun left right ordered => ?_, List.pairwise_singleton _ _, fun k member l within => ?_⟩
    · rwa [last _ left, last _ right]
    · obtain rfl := List.mem_singleton.mp within
      rw [last k member]
      have early := List.idxOf_lt_length_iff.mpr ((nets.keys k).mp member)
      have late : (events.map fun e => key e.row).length ≤ firstEvent key (events ++ [e]) (key e.row) := by
        rw [firstEvent, List.map_append, List.idxOf_append_of_notMem fun taken => free ((nets.keys _).mpr taken)]
        exact Nat.le_add_right _ _
      exact Nat.le_trans (Nat.le_of_lt early) late

theorem Nets.step_taken (taken : key e.row ∈ entries.map Entry.key) : Nets key table (events ++ [e]) (record key entries e) := by
  have names : (record key entries e).map Entry.key = entries.map Entry.key := record_keys taken
  constructor
  · rw [names]
    exact nets.distinct
  · intro k
    rw [names, List.map_append, List.mem_append, nets.keys k]
    refine ⟨Or.inl, ?_⟩
    rintro (earlier | own)
    · exact earlier
    · rw [List.mem_singleton.mp own]
      exact (nets.keys _).mp taken
  · intro s member
    rcases mem_record nets.distinct taken member with ⟨_, kept⟩ | ⟨s₀, kept, same, rfl⟩
    · exact nets.before s kept
    · exact nets.before s₀ kept
  · intro s member
    rcases mem_record nets.distinct taken member with ⟨differs, kept⟩ | ⟨s₀, kept, same, rfl⟩
    · rw [rowAt_playAll_other _ _ differs]
      exact nets.after s kept
    · exact fits.rowAt_playAll.symm.trans (congrArg (rowAt key · _) same.symm)
  · intro k absent
    rw [names] at absent
    have other : k ≠ key e.row := fun same => absent (same ▸ taken)
    rw [rowAt_playAll_other _ _ other]
    exact nets.untouched k absent
  · rw [names]
    refine nets.order.imp_of_mem fun left right ordered => ?_
    rwa [firstEvent, firstEvent, List.map_append, List.idxOf_append_of_mem ((nets.keys _).mp left),
      List.idxOf_append_of_mem ((nets.keys _).mp right)]

end Step

theorem Nets.step {table : List ρ} {events : List (Event ρ)} {entries : List (Entry ρ κ)} (nets : Nets key table events entries)
    {e : Event ρ} (keyed : Keyed key (playAll key table events)) (fits : e.Fits key (playAll key table events)) :
    Nets key table (events ++ [e]) (record key entries e) := by
  by_cases taken : key e.row ∈ entries.map Entry.key
  · exact nets.step_taken fits taken
  · exact nets.step_free fits keyed taken

theorem Nets.run {table : List ρ} {done todo : List (Event ρ)} {entries : List (Entry ρ κ)} (nets : Nets key table done entries)
    (keyed : Keyed key (playAll key table done)) (fits : AllFit key (playAll key table done) todo) :
    Nets key table (done ++ todo) (todo.foldl (record key) entries) := by
  induction todo generalizing done entries with
  | nil =>
      rw [List.append_nil]
      exact nets
  | cons e todo ih =>
      have next := nets.step keyed fits.1
      rw [List.append_cons]
      apply ih next
      · rw [playAll_append]
        exact fits.1.keyed keyed
      · rw [playAll_append]
        exact fits.2

theorem nets_summarize {table : List ρ} {events : List (Event ρ)} (keyed : Keyed key table) (fits : AllFit key table events) :
    Nets key table events (summarize key events) := (Nets.nil table).run keyed fits

variable [DecidableEq τ]

/-- The row before leaves and the row after joins, unless the two look the same. -/
def Entry.events (view : ρ → τ) (s : Entry ρ κ) : List (Event ρ) :=
  if s.before.map view = s.after.map view then []
  else (s.before.map Event.remove).toList ++ (s.after.map Event.add).toList

def netEvents (key : ρ → κ) (view : ρ → τ) (events : List (Event ρ)) : List (Event ρ) :=
  (summarize key events).flatMap (Entry.events view)

def Entry.Coherent (key : ρ → κ) (s : Entry ρ κ) : Prop := ∀ row, s.before = some row ∨ s.after = some row → key row = s.key

theorem Nets.coherent {table : List ρ} {events : List (Event ρ)} {entries : List (Entry ρ κ)} (nets : Nets key table events entries) :
    ∀ s ∈ entries, s.Coherent key := by
  intro s member row found
  rcases found with before | after
  · rw [nets.before s member] at before
    exact rowAt_key before
  · rw [nets.after s member] at after
    exact rowAt_key after

omit [DecidableEq κ] in
theorem Entry.Coherent.events {view : ρ → τ} {s : Entry ρ κ} (coherent : s.Coherent key) {e : Event ρ} (member : e ∈ s.events view) :
    key e.row = s.key := by
  rw [Entry.events] at member
  split at member
  · exact absurd member List.not_mem_nil
  · simp only [List.mem_append, Option.mem_toList, Option.map_eq_some_iff] at member
    rcases member with ⟨row, found, rfl⟩ | ⟨row, found, rfl⟩
    · exact coherent row (Or.inl found)
    · exact coherent row (Or.inr found)

theorem filter_blocks {view : ρ → τ} {entries : List (Entry ρ κ)} (distinct : (entries.map Entry.key).Nodup)
    (coherent : ∀ s ∈ entries, s.Coherent key) {s : Entry ρ κ} (member : s ∈ entries) :
    ((entries.flatMap (Entry.events view)).filter fun e => decide (key e.row = s.key)) = s.events view := by
  induction entries with
  | nil => exact absurd member List.not_mem_nil
  | cons head entries ih =>
      rw [List.map_cons, List.nodup_cons] at distinct
      have own : ∀ t ∈ head :: entries, ∀ e ∈ t.events view, key e.row = t.key := fun t within e => (coherent t within).events
      rw [List.flatMap_cons, List.filter_append]
      rcases List.mem_cons.mp member with rfl | later
      · have rest : ((entries.flatMap (Entry.events view)).filter fun e => decide (key e.row = s.key)) = [] := by
          rw [List.filter_eq_nil_iff]
          intro e within same
          obtain ⟨t, inEntries, inBlock⟩ := List.mem_flatMap.mp within
          rw [decide_eq_true_eq, own t (List.mem_cons_of_mem _ inEntries) e inBlock] at same
          exact distinct.1 (same ▸ List.mem_map_of_mem inEntries)
        rw [rest, List.append_nil, List.filter_eq_self]
        exact fun e within => decide_eq_true (own s List.mem_cons_self e within)
      · have first : ((head.events view).filter fun e => decide (key e.row = s.key)) = [] := by
          rw [List.filter_eq_nil_iff]
          intro e within same
          rw [decide_eq_true_eq, own head List.mem_cons_self e within] at same
          exact distinct.1 (same ▸ List.mem_map_of_mem later)
        rw [first, List.nil_append]
        exact ih distinct.2 (fun t within => coherent t (List.mem_cons_of_mem _ within)) later

section Net

variable {view : ρ → τ} {table : List ρ} {events : List (Event ρ)} {entries : List (Entry ρ κ)} (nets : Nets key table events entries)
include nets

/-- Of each key, its row before leaves and its row after joins when they do not look the same. -/
theorem Nets.filter_key (k : κ) :
    ((entries.flatMap (Entry.events view)).filter fun e => decide (key e.row = k)) =
      Entry.events view ⟨k, rowAt key k table, rowAt key k (playAll key table events)⟩ := by
  by_cases seen : k ∈ entries.map Entry.key
  · obtain ⟨s, member, rfl⟩ := List.mem_map.mp seen
    rw [filter_blocks nets.distinct nets.coherent member, ← nets.before s member, ← nets.after s member]
  · rw [nets.untouched k seen, Entry.events, if_pos rfl, List.filter_eq_nil_iff]
    intro e within same
    obtain ⟨t, inEntries, inBlock⟩ := List.mem_flatMap.mp within
    rw [decide_eq_true_eq, (nets.coherent t inEntries).events inBlock] at same
    exact seen (same ▸ List.mem_map_of_mem inEntries)

/-- Keys keep the order of their first events. -/
theorem Nets.ordered : (entries.flatMap (Entry.events view)).Pairwise fun d e =>
    firstEvent key events (key d.row) ≤ firstEvent key events (key e.row) := by
  rw [List.pairwise_flatMap]
  constructor
  · intro s member
    refine List.pairwise_of_forall_mem_list fun d left e right => ?_
    exact Nat.le_of_eq (by rw [(nets.coherent s member).events left, (nets.coherent s member).events right])
  · refine (List.pairwise_map.mp nets.order).imp_of_mem fun {s t} left right ordered d inLeft e inRight => ?_
    rwa [(nets.coherent s left).events inLeft, (nets.coherent t right).events inRight]

end Net

theorem record_last {entries : List (Entry ρ κ)} {s : Entry ρ κ} (free : s.key ∉ entries.map Entry.key) {e : Event ρ}
    (same : key e.row = s.key) : record key (entries ++ [s]) e = entries ++ [{ s with after := e.added }] := by
  induction entries with
  | nil => rw [List.nil_append, record, if_pos same.symm]; rfl
  | cons head entries ih =>
      rw [List.map_cons, List.mem_cons, not_or] at free
      have differs : head.key ≠ key e.row := fun eq => free.1 (same ▸ eq.symm)
      rw [List.cons_append, record, if_neg differs, ih free.2]
      rfl

/-- The block of an entry that is not there yet adds it, unless the rows look the same. -/
theorem foldl_block {view : ρ → τ} {entries : List (Entry ρ κ)} {s : Entry ρ κ} (coherent : s.Coherent key)
    (free : s.key ∉ entries.map Entry.key) :
    (s.events view).foldl (record key) entries = if s.before.map view = s.after.map view then entries else entries ++ [s] := by
  rw [Entry.events]
  split
  · rfl
  · obtain ⟨k, before, after⟩ := s
    have named : ∀ row, before = some row ∨ after = some row → key row = k := coherent
    have first : ∀ e : Event ρ, key e.row = k → record key entries e = entries ++ [⟨k, e.removed, e.added⟩] := by
      rintro e rfl
      exact record_free free
    cases before with
    | none =>
        cases after with
        | none => contradiction
        | some row => exact first (.add row) (named row (Or.inr rfl))
    | some row =>
        have removed := first (.remove row) (named row (Or.inl rfl))
        cases after with
        | none => exact removed
        | some row' =>
            change record key (record key entries (.remove row)) (.add row') = _
            rw [removed]
            exact @record_last _ _ _ _ _ ⟨k, some row, none⟩ free _ (named row' (Or.inr rfl))

theorem foldl_blocks {view : ρ → τ} {done entries : List (Entry ρ κ)} (coherent : ∀ s ∈ entries, s.Coherent key)
    (distinct : ((done ++ entries).map Entry.key).Nodup) :
    (entries.flatMap (Entry.events view)).foldl (record key) done =
      done ++ entries.filter fun s => !decide (s.before.map view = s.after.map view) := by
  induction entries generalizing done with
  | nil => rw [List.filter_nil, List.append_nil]; rfl
  | cons s entries ih =>
      have later := fun t member => coherent t (List.mem_cons_of_mem _ member)
      have free : s.key ∉ done.map Entry.key := by
        intro taken
        rw [List.map_append, List.nodup_append] at distinct
        exact distinct.2.2 _ taken _ List.mem_cons_self rfl
      rw [List.flatMap_cons, List.foldl_append, foldl_block (coherent s List.mem_cons_self) free]
      by_cases same : s.before.map view = s.after.map view
      · rw [if_pos same, List.filter_cons_of_neg (by simp [same])]
        refine ih later (distinct.sublist ?_)
        exact ((List.sublist_cons_self s entries).append_left done).map Entry.key
      · rw [List.append_cons] at distinct
        rw [if_neg same, ih later distinct, List.filter_cons_of_pos (by simp [same]), ← List.append_cons]

omit [DecidableEq κ] in
theorem blocks_filter (view : ρ → τ) (entries : List (Entry ρ κ)) :
    (entries.filter fun s => !decide (s.before.map view = s.after.map view)).flatMap (Entry.events view) =
      entries.flatMap (Entry.events view) := by
  induction entries with
  | nil => rfl
  | cons s entries ih =>
      by_cases same : s.before.map view = s.after.map view
      · rw [List.filter_cons_of_neg (by simp [same]), ih, List.flatMap_cons, Entry.events, if_pos same, List.nil_append]
      · rw [List.filter_cons_of_pos (by simp [same]), List.flatMap_cons, ih, List.flatMap_cons]

theorem Nets.idempotent {view : ρ → τ} {table : List ρ} {events : List (Event ρ)} {entries : List (Entry ρ κ)}
    (nets : Nets key table events entries) :
    netEvents key view (entries.flatMap (Entry.events view)) = entries.flatMap (Entry.events view) := by
  have distinct : (([] ++ entries).map Entry.key).Nodup := nets.distinct
  rw [netEvents, summarize, foldl_blocks nets.coherent distinct]
  exact blocks_filter view entries

theorem record_rows {entries : List (Entry ρ κ)} {e : Event ρ} {P : ρ → Prop} (own : P e.row)
    (known : ∀ s ∈ entries, ∀ row, s.before = some row ∨ s.after = some row → P row) :
    ∀ s ∈ record key entries e, ∀ row, s.before = some row ∨ s.after = some row → P row := by
  have fresh : ∀ row, e.removed = some row ∨ e.added = some row → P row := by
    intro row found
    cases e <;> rcases found with found | found <;> cases found <;> exact own
  induction entries with
  | nil =>
      intro s member
      rw [record, List.mem_singleton] at member
      subst member
      exact fresh
  | cons head entries ih =>
      intro s member
      rw [record] at member
      split at member
      · rcases List.mem_cons.mp member with rfl | later
        · rintro row (before | after)
          · exact known head List.mem_cons_self row (Or.inl before)
          · exact fresh row (Or.inr after)
        · exact known s (List.mem_cons_of_mem _ later)
      · rcases List.mem_cons.mp member with rfl | later
        · exact known _ List.mem_cons_self
        · exact ih (fun t within => known t (List.mem_cons_of_mem _ within)) s later

theorem foldl_rows {events : List (Event ρ)} {entries : List (Entry ρ κ)} {P : ρ → Prop} (own : ∀ e ∈ events, P e.row)
    (known : ∀ s ∈ entries, ∀ row, s.before = some row ∨ s.after = some row → P row) :
    ∀ s ∈ events.foldl (record key) entries, ∀ row, s.before = some row ∨ s.after = some row → P row := by
  induction events generalizing entries with
  | nil => exact known
  | cons e events ih =>
      exact ih (fun f member => own f (List.mem_cons_of_mem _ member)) (record_rows (own e List.mem_cons_self) known)

theorem netEvents_rows {view : ρ → τ} {events : List (Event ρ)} {P : ρ → Prop} (own : ∀ e ∈ events, P e.row) :
    ∀ e ∈ netEvents key view events, P e.row := by
  intro e member
  obtain ⟨s, inEntries, inBlock⟩ := List.mem_flatMap.mp member
  have rows := foldl_rows own (fun _ within => absurd within List.not_mem_nil) s inEntries
  rw [Entry.events] at inBlock
  split at inBlock
  · exact absurd inBlock List.not_mem_nil
  · simp only [List.mem_append, Option.mem_toList, Option.map_eq_some_iff] at inBlock
    rcases inBlock with ⟨row, found, rfl⟩ | ⟨row, found, rfl⟩
    · exact rows row (Or.inl found)
    · exact rows row (Or.inr found)

omit [DecidableEq κ] in
theorem picked_sublist (view : ρ → τ) {entries : List (Entry ρ κ)} (coherent : ∀ s ∈ entries, s.Coherent key) {pick : Event ρ → Option ρ}
    (side : pick = Event.removed ∨ pick = Event.added) :
    (((entries.flatMap (Entry.events view)).filterMap pick).map key).Sublist (entries.map Entry.key) := by
  induction entries with
  | nil => exact .slnil
  | cons s entries ih =>
      have later := ih fun t member => coherent t (List.mem_cons_of_mem _ member)
      have own : ∀ row, s.before = some row ∨ s.after = some row → key row = s.key := coherent s List.mem_cons_self
      rw [List.flatMap_cons, List.filterMap_append, List.map_append, List.map_cons, ← List.singleton_append]
      refine List.Sublist.append ?_ later
      rw [Entry.events]
      split
      · exact List.nil_sublist _
      · obtain ⟨k, before, after⟩ := s
        rcases side with rfl | rfl <;> cases before <;> cases after
        all_goals first
          | exact List.nil_sublist _
          | exact own _ (Or.inl rfl) ▸ List.Sublist.refl _
          | exact own _ (Or.inr rfl) ▸ List.Sublist.refl _

theorem rowAt_filter (keep : κ → Bool) (k : κ) (table : List ρ) :
    rowAt key k (table.filter fun r => keep (key r)) = if keep k then rowAt key k table else none := by
  induction table with
  | nil => rw [List.filter_nil]; exact (ite_self none).symm
  | cons r table ih =>
      by_cases here : key r = k
      · subst here
        cases kept : keep (key r) with
        | true => simp [rowAt, kept]
        | false => simpa [kept] using ih
      · have skip : rowAt key k (r :: table) = rowAt key k table := by simp [rowAt, here]
        rw [skip, ← ih, List.filter_cons]
        split
        · simp [rowAt, here]
        · rfl

omit [DecidableEq τ] in
theorem perm_of_rowAt {view : ρ → τ} {left right : List ρ} (keyed : Keyed key left) (keyed' : Keyed key right)
    (same : ∀ k, (rowAt key k left).map view = (rowAt key k right).map view) : (left.map view).Perm (right.map view) := by
  induction left generalizing right with
  | nil =>
      cases right with
      | nil => exact .refl _
      | cons r right =>
          have found := same (key r)
          rw [(keyed'.rowAt_iff).mpr ⟨List.mem_cons_self, rfl⟩] at found
          cases found
  | cons a left ih =>
      have found := same (key a)
      rw [keyed.rowAt_iff.mpr ⟨List.mem_cons_self, rfl⟩, Option.map_some, eq_comm, Option.map_eq_some_iff] at found
      obtain ⟨b, at_b, look⟩ := found
      obtain ⟨member, named⟩ := keyed'.rowAt_iff.mp at_b
      have first : right.Perm (b :: right.filter fun r => !decide (key r = key a)) := by
        obtain ⟨s, t, rfl⟩ := List.append_of_mem member
        have split : (s ++ b :: t).Perm (b :: (s ++ t)) := List.perm_middle
        exact split.trans ((named ▸ keyed'.delete_perm split).symm.cons b)
      have free : rowAt key (key a) left = none := rowAt_eq_none.mpr (List.nodup_cons.mp keyed).1
      have rest := ih (List.nodup_cons.mp keyed).2 (keyed'.filter fun r => !decide (key r = key a)) fun k => by
        rw [rowAt_filter fun l => !decide (l = key a)]
        by_cases here : k = key a
        · subst here
          rw [free]
          simp
        · have skip : rowAt key k (a :: left) = rowAt key k left := by simp [rowAt, Ne.symm here]
          rw [← skip, same k]
          simp [here]
      rw [List.map_cons, ← look]
      exact (rest.cons (view b)).trans (first.map view).symm

def differs (key : ρ → κ) (view : ρ → τ) (before after : List ρ) (k : κ) : Bool :=
  !decide ((rowAt key k before).map view = (rowAt key k after).map view)

omit [DecidableEq κ] [DecidableEq τ] in
theorem mem_removed {events : List (Event ρ)} {row : ρ} : row ∈ events.filterMap Event.removed ↔ .remove row ∈ events := by
  rw [List.mem_filterMap]
  constructor
  · rintro ⟨_ | _, member, found⟩
    · cases found
      exact member
    · cases found
  · exact fun member => ⟨_, member, rfl⟩

omit [DecidableEq κ] [DecidableEq τ] in
theorem mem_added {events : List (Event ρ)} {row : ρ} : row ∈ events.filterMap Event.added ↔ .add row ∈ events := by
  rw [List.mem_filterMap]
  constructor
  · rintro ⟨_ | _, member, found⟩
    · cases found
    · cases found
      exact member
  · exact fun member => ⟨_, member, rfl⟩

omit [DecidableEq κ] in
theorem perm_append_diff (left right : List τ) : ((left ++ right).diff left).Perm right := by
  rw [← Multiset.coe_eq_coe, ← Multiset.coe_sub, ← Multiset.coe_add, Multiset.add_comm, Multiset.add_sub_cancel_right]

section Contents

variable {view : ρ → τ} {table : List ρ} {events : List (Event ρ)} {entries : List (Entry ρ κ)} (nets : Nets key table events entries)
include nets

theorem Nets.remove_mem {row : ρ} : .remove row ∈ entries.flatMap (Entry.events view) ↔
    rowAt key (key row) table = some row ∧ differs key view table (playAll key table events) (key row) = true := by
  have block := @Nets.filter_key _ _ _ _ _ _ view _ _ _ nets (key row)
  have own : .remove row ∈ entries.flatMap (Entry.events view) ↔
      .remove row ∈ (entries.flatMap (Entry.events view)).filter fun e => decide (key e.row = key row) := by
    rw [List.mem_filter, decide_eq_true_eq]
    exact (and_iff_left rfl).symm
  rw [own, block, Entry.events, differs]
  split
  · simp [*]
  · simp [*]

theorem Nets.add_mem {row : ρ} : .add row ∈ entries.flatMap (Entry.events view) ↔
    rowAt key (key row) (playAll key table events) = some row ∧ differs key view table (playAll key table events) (key row) = true := by
  have block := @Nets.filter_key _ _ _ _ _ _ view _ _ _ nets (key row)
  have own : .add row ∈ entries.flatMap (Entry.events view) ↔
      .add row ∈ (entries.flatMap (Entry.events view)).filter fun e => decide (key e.row = key row) := by
    rw [List.mem_filter, decide_eq_true_eq]
    exact (and_iff_left rfl).symm
  rw [own, block, Entry.events, differs]
  split
  · simp [*]
  · simp [*]

theorem Nets.removed_perm (keyed : Keyed key table) : ((entries.flatMap (Entry.events view)).filterMap Event.removed).Perm
    (table.filter fun r => differs key view table (playAll key table events) (key r)) := by
  have once := picked_sublist view nets.coherent (Or.inl rfl)
  rw [List.perm_ext_iff_of_nodup (List.Nodup.of_map key (nets.distinct.sublist once)) (keyed.filter _).nodup]
  intro row
  rw [mem_removed, nets.remove_mem, keyed.rowAt_iff, List.mem_filter]
  simp only [and_true]

theorem Nets.removed_subperm (keyed : Keyed key table) :
    ((entries.flatMap (Entry.events view)).filterMap Event.removed).Subperm table :=
  (nets.removed_perm keyed).subperm.trans List.filter_sublist.subperm

theorem Nets.added_perm (keyed : Keyed key (playAll key table events)) :
    ((entries.flatMap (Entry.events view)).filterMap Event.added).Perm
      ((playAll key table events).filter fun r => differs key view table (playAll key table events) (key r)) := by
  have once := picked_sublist view nets.coherent (Or.inr rfl)
  rw [List.perm_ext_iff_of_nodup (List.Nodup.of_map key (nets.distinct.sublist once)) (keyed.filter _).nodup]
  intro row
  rw [mem_added, nets.add_mem, keyed.rowAt_iff, List.mem_filter]
  simp only [and_true]

/-- The contents before without the rows that leave, and with the rows that join, look like
the contents after. -/
theorem Nets.contents (keyed : Keyed key table) (keyed' : Keyed key (playAll key table events)) :
    ((table.map view).diff (((entries.flatMap (Entry.events view)).filterMap Event.removed).map view) ++
      ((entries.flatMap (Entry.events view)).filterMap Event.added).map view).Perm ((playAll key table events).map view) := by
  have part : ∀ rows : List ρ, (rows.map view).Perm
      ((rows.filter fun r => differs key view table (playAll key table events) (key r)).map view ++
        (rows.filter fun r => !differs key view table (playAll key table events) (key r)).map view) := by
    intro rows
    rw [← List.map_append]
    exact ((List.filter_append_perm _ rows).map view).symm
  have rest : ((table.filter fun r => !differs key view table (playAll key table events) (key r)).map view).Perm
      (((playAll key table events).filter fun r => !differs key view table (playAll key table events) (key r)).map view) := by
    apply perm_of_rowAt (keyed.filter _) (keyed'.filter _)
    intro k
    rw [rowAt_filter fun l => !differs key view table (playAll key table events) l,
      rowAt_filter fun l => !differs key view table (playAll key table events) l]
    by_cases same : (rowAt key k table).map view = (rowAt key k (playAll key table events)).map view
    · simp [differs, same]
    · simp [differs, same]
  have gone := ((part table).diff_right _).trans ((List.Perm.refl _).diff ((@Nets.removed_perm _ _ _ _ _ _ view _ _ _ nets keyed).map view))
  have come := (@Nets.added_perm _ _ _ _ _ _ view _ _ _ nets keyed').map view
  have kept := gone.trans (perm_append_diff _ _)
  exact ((kept.trans rest).append come).trans (List.perm_append_comm.trans (part (playAll key table events)).symm)

end Contents

end Bags
