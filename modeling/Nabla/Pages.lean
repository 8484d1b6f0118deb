import Mathlib.Data.List.TakeWhile
import Nabla.DeltaLog
import Nabla.Incremental

/-! What `nabla.changes` returns of a delta log in order: whole source transactions, one
page after the other. -/
namespace Nabla
open Bags

variable {pf : Platform}

/-- A cursor between two source transactions of the epoch. -/
def Written.Boundary (w : Written) (after : Nat) : Prop :=
  ∃ earlier later, w.deltas = earlier ++ later ∧ after = w.first + earlier.length ∧
    ∀ a ∈ earlier, ∀ b ∈ later, a.together b = false

def Written.since (w : Written) (after : Nat) : List LoggedDelta := w.deltas.filter fun d => decide (after < d.seq)

/-- The first `limit` rows, and what belongs with the last of them. -/
def wholePage (log : List LoggedDelta) (limit : Nat) : List LoggedDelta :=
  match (log.take limit).getLast? with
  | none => []
  | some last => log.take limit ++ (log.drop limit).takeWhile fun d => d.together last

theorem LoggedDelta.together_iff {a b : LoggedDelta} : a.together b = true ↔ a.lsn = b.lsn ∧ a.xid = b.xid := by
  rw [LoggedDelta.together, Bool.and_eq_true, decide_eq_true_eq, decide_eq_true_eq]

theorem dropWhile_later {last : LoggedDelta} {log : List LoggedDelta} (order : (last :: log).Pairwise InOrder) :
    ∀ d ∈ log.dropWhile (fun d => d.together last), last.lsn < d.lsn := by
  induction log with
  | nil => exact fun d member => absurd member List.not_mem_nil
  | cons head log ih =>
      intro d member
      rw [List.pairwise_cons, List.pairwise_cons] at order
      obtain ⟨before, after, rest⟩ := order
      by_cases same : head.together last = true
      · rw [List.dropWhile_cons_of_pos (p := fun d : LoggedDelta => d.together last) same] at member
        exact ih (.cons (fun e within => before e (List.mem_cons_of_mem _ within)) rest) d member
      · rw [List.dropWhile_cons_of_neg (p := fun d : LoggedDelta => d.together last) same] at member
        obtain ⟨_, le, xid⟩ := before head List.mem_cons_self
        have lt : last.lsn < head.lsn := by
          refine lt_of_le_of_ne le fun eq => same ?_
          exact LoggedDelta.together_iff.mpr ⟨eq.symm, (xid eq).symm⟩
        rcases List.mem_cons.mp member with rfl | later
        · exact lt
        · exact lt.trans_le (after d later).2.1

theorem filter_together {last : LoggedDelta} {log : List LoggedDelta} (order : (last :: log).Pairwise InOrder) :
    log.filter (fun d => decide (last.seq < d.seq) && d.together last) = log.takeWhile fun d => d.together last := by
  have seqs := (List.pairwise_cons.mp order).1
  have split := List.takeWhile_append_dropWhile (p := fun d : LoggedDelta => d.together last) (l := log)
  conv_lhs => rw [← split]
  rw [List.filter_append, List.filter_eq_self.mpr, List.filter_eq_nil_iff.mpr, List.append_nil]
  · intro d member both
    rw [Bool.and_eq_true, LoggedDelta.together_iff] at both
    exact absurd both.2.1 (dropWhile_later order d member).ne'
  · intro d member
    rw [Bool.and_eq_true, decide_eq_true_eq]
    exact ⟨(seqs d (List.takeWhile_sublist _ |>.subset member)).1, List.mem_takeWhile_imp (p := fun d : LoggedDelta => d.together last) member⟩

theorem pairwise_seq {log : List LoggedDelta} (order : log.Pairwise InOrder) :
    log.Pairwise fun a b => decide (a.seq ≤ b.seq) = true :=
  order.imp fun inOrder => decide_eq_true inOrder.1.le

theorem last_of_order {log : List LoggedDelta} (order : log.Pairwise InOrder) {last d : LoggedDelta}
    (final : log.getLast? = some last) (member : d ∈ log) : d = last ∨ InOrder d last := by
  obtain ⟨init, rfl⟩ := List.getLast?_eq_some_iff.mp final
  rcases List.mem_append.mp member with earlier | same
  · exact .inr ((List.pairwise_append.mp order).2.2 d earlier last List.mem_cons_self)
  · exact .inl (List.mem_singleton.mp same)

theorem seq_le_last {log : List LoggedDelta} (order : log.Pairwise InOrder) {last d : LoggedDelta}
    (final : log.getLast? = some last) (member : d ∈ log) : d.seq ≤ last.seq := by
  rcases last_of_order order final member with rfl | before
  · exact le_refl _
  · exact before.1.le

theorem lsn_le_last {log : List LoggedDelta} (order : log.Pairwise InOrder) {last d : LoggedDelta}
    (final : log.getLast? = some last) (member : d ∈ log) : d.lsn ≤ last.lsn := by
  rcases last_of_order order final member with rfl | before
  · exact le_refl _
  · exact before.2.1

theorem wholePage_sublist (log : List LoggedDelta) (limit : Nat) : (wholePage log limit).Sublist log := by
  unfold wholePage
  split
  · exact List.nil_sublist _
  · conv_rhs => rw [← List.take_append_drop limit log]
    exact (List.Sublist.refl _).append (List.takeWhile_sublist _)

theorem page_since (deltas : List LoggedDelta) (order : deltas.Pairwise InOrder) (after limit : Nat) :
    page deltas (after : Int) limit = (deltas.filter fun d => decide (after < d.seq)).take limit := by
  have same : deltas.filter (fun d => decide ((after : Int) < (d.seq : Int))) = deltas.filter fun d => decide (after < d.seq) := by
    refine List.filter_congr fun d _ => ?_
    exact decide_eq_decide.mpr Int.ofNat_lt
  rw [page, same, List.mergeSort_of_pairwise (pairwise_seq (order.filter _))]

theorem pageRows_since {deltas : List LoggedDelta} (order : deltas.Pairwise InOrder) (after : Nat) (maxRows : Int) :
    pageRows deltas (after : Int) maxRows = wholePage (deltas.filter fun d => decide (after < d.seq)) (max maxRows 1).toNat := by
  generalize limited : (max maxRows 1).toNat = limit
  generalize since : (deltas.filter fun d => decide (after < d.seq)) = log
  have order' : log.Pairwise InOrder := since ▸ order.filter _
  have first : page deltas (after : Int) limit = log.take limit := by rw [page_since deltas order, since]
  have whole : log.take limit ++ rest deltas (log.take limit) limit = wholePage log limit := by
    unfold rest wholePage
    cases final : (log.take limit).getLast? with
    | none =>
        rw [List.getLast?_eq_none_iff.mp final]
        rfl
    | some last =>
        have member := List.mem_of_getLast? final
        have inDeltas : after < last.seq := by
          have within := List.mem_of_mem_take member
          rw [← since, List.mem_filter, decide_eq_true_eq] at within
          exact within.2
        have parts := order'
        rw [← List.take_append_drop limit log, List.pairwise_append] at parts
        have beyond : (last :: log.drop limit).Pairwise InOrder := .cons (fun b later => parts.2.2 last member b later) parts.2.1
        dsimp only
        by_cases full : limit ≤ (log.take limit).length
        · rw [if_pos full, ← filter_together beyond]
          congr 1
          have narrowed : deltas.filter (fun d => decide (last.seq < d.seq) && d.together last) =
              log.filter fun d => decide (last.seq < d.seq) && d.together last := by
            rw [← since, List.filter_filter]
            refine List.filter_congr fun d _ => ?_
            by_cases later : last.seq < d.seq
            · rw [decide_eq_true (inDeltas.trans later), Bool.and_true]
            · rw [decide_eq_false later, Bool.false_and, Bool.false_and]
          have none : (log.take limit).filter (fun d => decide (last.seq < d.seq) && d.together last) = [] := by
            refine List.filter_eq_nil_iff.mpr fun d within => ?_
            rw [Bool.and_eq_true, decide_eq_true_eq, not_and]
            exact fun later => absurd later (seq_le_last parts.1 final within).not_gt
          rw [narrowed]
          conv_lhs => rw [← List.take_append_drop limit log]
          rw [List.filter_append, none, List.nil_append]
        · rw [if_neg full, List.drop_eq_nil_of_le, List.takeWhile_nil]
          rw [List.length_take] at full
          omega
  rw [pageRows, limited]
  show ((page deltas (after : Int) limit) ++ rest deltas (page deltas (after : Int) limit) limit).mergeSort _ = _
  rw [first, whole]
  exact List.mergeSort_of_pairwise (pairwise_seq (order'.sublist (wholePage_sublist log limit)))

/-- A page ends between two transactions, and short of `limit` rows only at the end. -/
theorem wholePage_split {log : List LoggedDelta} (order : log.Pairwise InOrder) {limit : Nat} (some : 1 ≤ limit) :
    ∃ later, log = wholePage log limit ++ later ∧ (∀ a ∈ wholePage log limit, ∀ b ∈ later, a.together b = false) ∧
      ((wholePage log limit).length < limit → later = []) ∧ (wholePage log limit = [] → log = []) := by
  unfold wholePage
  cases final : (log.take limit).getLast? with
  | none =>
      have empty := List.getLast?_eq_none_iff.mp final
      have none : log = [] := by
        rcases List.take_eq_nil_iff.mp empty with zero | none
        · omega
        · exact none
      exact ⟨[], none, fun a member => absurd member List.not_mem_nil, fun _ => rfl, fun _ => none⟩
  | some last =>
      have parts := order
      rw [← List.take_append_drop limit log, List.pairwise_append] at parts
      have member := List.mem_of_getLast? final
      have beyond : (last :: log.drop limit).Pairwise InOrder := .cons (fun b later => parts.2.2 last member b later) parts.2.1
      refine ⟨(log.drop limit).dropWhile fun d => d.together last, ?_, ?_, ?_, ?_⟩
      · dsimp only
        rw [List.append_assoc, List.takeWhile_append_dropWhile, List.take_append_drop]
      · intro a left b right
        have lt := dropWhile_later beyond b right
        have le : a.lsn ≤ last.lsn := by
          rcases List.mem_append.mp left with taken | kept
          · exact lsn_le_last parts.1 final taken
          · exact (LoggedDelta.together_iff.mp (List.mem_takeWhile_imp (p := fun d : LoggedDelta => d.together last) kept)).1.le
        rw [Bool.eq_false_iff, Ne, LoggedDelta.together_iff, not_and]
        exact fun eq => absurd eq (le.trans_lt lt).ne
      · intro short
        dsimp only at short
        rw [List.length_append, List.length_take] at short
        rw [List.drop_eq_nil_of_le (by omega), List.dropWhile_nil]
      · intro none
        dsimp only at none
        rw [List.append_eq_nil_iff] at none
        exact absurd (none.1 ▸ member) List.not_mem_nil

theorem ViewRow.Keeps.seqs {row : ViewRow} {w : Written} (keeps : row.Keeps w) :
    w.deltas.map LoggedDelta.seq = List.range' (w.first + 1) w.deltas.length := by
  obtain ⟨blocks, eq, _, _⟩ := keeps.blocks
  rw [eq, seqs_numberBlocks, length_numberBlocks]

/-- A log numbered on from `first`, in order. -/
structure Written.Laid (w : Written) : Prop where
  seqs : w.deltas.map LoggedDelta.seq = List.range' (w.first + 1) w.deltas.length
  order : w.deltas.Pairwise InOrder

theorem ViewRow.Keeps.laid {row : ViewRow} {w : Written} (keeps : row.Keeps w) : w.Laid := ⟨keeps.seqs, keeps.order⟩

theorem Written.Laid.nil {w : Written} (none : w.deltas = []) : w.Laid where
  seqs := by rw [none]; rfl
  order := none ▸ .nil

theorem seqs_cut {first : Nat} {earlier later : List LoggedDelta}
    (seqs : (earlier ++ later).map LoggedDelta.seq = List.range' (first + 1) (earlier ++ later).length) :
    earlier.map LoggedDelta.seq = List.range' (first + 1) earlier.length ∧
      later.map LoggedDelta.seq = List.range' (first + earlier.length + 1) later.length := by
  rw [List.map_append, List.length_append, ← List.range'_append_1] at seqs
  obtain ⟨left, right⟩ := List.append_inj seqs (by rw [List.length_map, List.length_range'])
  exact ⟨left, by rw [right, Nat.add_right_comm]⟩

theorem seq_of_mem {first : Nat} {log : List LoggedDelta} (seqs : log.map LoggedDelta.seq = List.range' (first + 1) log.length)
    {d : LoggedDelta} (member : d ∈ log) : first < d.seq ∧ d.seq ≤ first + log.length := by
  have listed := List.mem_map_of_mem (f := LoggedDelta.seq) member
  rw [seqs, List.mem_range'_1] at listed
  omega

theorem filter_cut {first : Nat} {earlier later : List LoggedDelta}
    (seqs : (earlier ++ later).map LoggedDelta.seq = List.range' (first + 1) (earlier ++ later).length) :
    (earlier ++ later).filter (fun d => decide (first + earlier.length < d.seq)) = later := by
  obtain ⟨left, right⟩ := seqs_cut seqs
  rw [List.filter_append, List.filter_eq_nil_iff.mpr, List.filter_eq_self.mpr, List.nil_append]
  · intro d member
    exact decide_eq_true (seq_of_mem right member).1
  · intro d member
    rw [decide_eq_true_eq, not_lt]
    exact (seq_of_mem left member).2

/-- How a cursor stands to the retained deltas: none of those after it is gone, or some are. -/
theorem ViewRow.Keeps.cursor {row : ViewRow} {w : Written} (keeps : row.Keeps w) {earlier later : List LoggedDelta}
    (cut : w.deltas = earlier ++ later) :
    ((∀ d ∈ later, d ∈ row.deltas) ∧ ∃ gone kept, earlier = gone ++ kept ∧ row.deltas = kept ++ later ∧
      (gone ≠ [] → row.deltas ≠ [])) ∨
    ((∃ d ∈ later, d ∉ row.deltas) ∧ ∃ lost, lost ≠ [] ∧ later = lost ++ row.deltas ∧ row.deltas ≠ []) := by
  obtain ⟨gone, split, some⟩ := keeps.retained
  rcases List.append_eq_append_iff.mp (split.symm.trans cut) with ⟨kept, front, back⟩ | ⟨lost, front, back⟩
  · refine .inl ⟨fun d member => ?_, gone, kept, front, back, some⟩
    rw [back]
    exact List.mem_append_right _ member
  · cases lost with
    | nil =>
        rw [List.nil_append] at back
        rw [List.append_nil] at front
        exact .inl ⟨fun d member => back ▸ member, gone, [], by rw [front, List.append_nil], back.symm, some⟩
    | cons d lost =>
        refine .inr ⟨⟨d, ?_, ?_⟩, d :: lost, List.cons_ne_nil _ _, back, some ?_⟩
        · rw [back]
          exact List.mem_cons_self
        · have order := keeps.order
          rw [cut, back, List.cons_append, List.pairwise_append, List.pairwise_cons] at order
          intro retained
          exact absurd (order.2.1.1 d (List.mem_append_right _ retained)).1 (lt_irrefl _)
        · rw [front]
          exact List.append_ne_nil_of_right_ne_nil _ (List.cons_ne_nil _ _)

theorem oldest_retained {first : Nat} {log : List LoggedDelta} (retained : log ≠ [])
    (seqs : log.map LoggedDelta.seq = List.range' (first + 1) log.length) :
    (log.map LoggedDelta.seq).min? = some (first + 1) := by
  rw [List.min?_eq_some_iff, seqs]
  have positive := List.length_pos_iff.mpr retained
  constructor
  · rw [List.mem_range'_1]
    omega
  · intro seq member
    exact (List.mem_range'_1.mp member).1

/-- A view `changes` serves. -/
def ViewRow.Served (row : ViewRow) : Prop := row.status ≠ .stale ∧ row.status ≠ .failed

theorem changes_served {row : ViewRow} (served : row.Served) (after maxRows : Int) (includeHidden : Bool) :
    changes row after row.epoch maxRows includeHidden =
      match (row.deltas.map LoggedDelta.seq).min? with
      | some oldest =>
        if after < (oldest : Int) - 1 then .error (errLagged row.name oldest)
        else .ok ((pageRows row.deltas after maxRows).map
          (LoggedDelta.output (if includeHidden then [] else row.spec.hiddenColumns)))
      | none =>
        if after < row.lastSeq then .error (errLagged row.name (row.lastSeq + 1))
        else .ok ((pageRows row.deltas after maxRows).map
          (LoggedDelta.output (if includeHidden then [] else row.spec.hiddenColumns))) := by
  unfold changes
  rw [if_neg (not_not_intro rfl)]
  cases status : row.status with
  | stale => exact absurd status served.1
  | failed => exact absurd status served.2
  | initializing => rfl
  | refreshing => rfl
  | live => rfl

theorem ViewRow.Keeps.changes_lagged {row : ViewRow} {w : Written} (keeps : row.Keeps w) (served : row.Served)
    {earlier later lost : List LoggedDelta} (cut : w.deltas = earlier ++ later) (gone : lost ≠ [])
    (back : later = lost ++ row.deltas) (some : row.deltas ≠ []) (maxRows : Int) (includeHidden : Bool) :
    ∃ oldest, changes row (w.first + earlier.length : Nat) row.epoch maxRows includeHidden =
      .error (errLagged row.name oldest) := by
  have seqs := keeps.seqs
  rw [cut, back, ← List.append_assoc] at seqs
  have retained := oldest_retained some (seqs_cut seqs).2
  refine ⟨(w.first + (earlier ++ lost).length + 1 : Nat), ?_⟩
  rw [changes_served served, retained]
  refine if_pos ?_
  have positive := List.length_pos_iff.mpr gone
  rw [List.length_append]
  omega

theorem ViewRow.Keeps.changes_page {row : ViewRow} {w : Written} (keeps : row.Keeps w) (served : row.Served)
    {earlier later gone kept : List LoggedDelta} (cut : w.deltas = earlier ++ later) (front : earlier = gone ++ kept)
    (back : row.deltas = kept ++ later) (some : gone ≠ [] → row.deltas ≠ []) (maxRows : Int) (includeHidden : Bool) :
    changes row (w.first + earlier.length : Nat) row.epoch maxRows includeHidden =
      .ok ((wholePage later (max maxRows 1).toNat).map
        (LoggedDelta.output (if includeHidden then [] else row.spec.hiddenColumns))) := by
  have seqs := keeps.seqs
  have order := keeps.order
  have whole : w.deltas = gone ++ row.deltas := by rw [cut, front, back, List.append_assoc]
  have rows : pageRows row.deltas (w.first + earlier.length : Nat) maxRows = wholePage later (max maxRows 1).toNat := by
    have mine : row.deltas.filter (fun d => decide (w.first + earlier.length < d.seq)) = later := by
      have all := seqs
      rw [whole] at all
      have own := (seqs_cut all).2
      rw [back] at own ⊢
      have length : w.first + earlier.length = w.first + gone.length + kept.length := by
        rw [front, List.length_append, Nat.add_assoc]
      rw [length]
      exact filter_cut own
    rw [whole, List.pairwise_append] at order
    rw [pageRows_since order.2.1, mine]
  rw [changes_served served]
  by_cases none : row.deltas = []
  · -- nothing is retained and nothing was ever logged: the cursor is the last sequence
    have nothing : gone = [] := not_not.mp fun lost => some lost none
    have last := keeps.last
    have end_ : w.deltas.length = earlier.length := by
      rw [none, eq_comm, List.append_eq_nil_iff] at back
      rw [cut, back.2, List.append_nil]
    rw [rows, none]
    refine if_neg ?_
    omega
  · rw [whole] at seqs
    rw [oldest_retained none (seqs_cut seqs).2, rows]
    refine if_neg ?_
    rw [front, List.length_append]
    omega

theorem limit_pos (maxRows : Int) : 1 ≤ (max maxRows 1).toNat := by
  have least := le_max_right maxRows 1
  omega

/-- What a call returns at a boundary, in the epoch's terms: the lag error, or whole
transactions up to the next boundary, and the last of them unless the page is full. -/
structure ViewRow.Serves (row : ViewRow) (w : Written) (after : Nat) (maxRows : Int) (includeHidden : Bool) : Prop where
  lagged : (∃ oldest, changes row after row.epoch maxRows includeHidden = .error (errLagged row.name oldest)) ↔
    ∃ d ∈ w.since after, d ∉ row.deltas
  page : (∀ d ∈ w.since after, d ∈ row.deltas) → ∃ rows later, w.since after = rows ++ later ∧
    changes row after row.epoch maxRows includeHidden =
      .ok (rows.map (LoggedDelta.output (if includeHidden then [] else row.spec.hiddenColumns))) ∧
    rows.map LoggedDelta.seq = List.range' (after + 1) rows.length ∧ w.Boundary (after + rows.length) ∧
    ((rows.length : Int) < maxRows → later = []) ∧ (rows = [] → later = [])

theorem ViewRow.Keeps.serves {row : ViewRow} {w : Written} (keeps : row.Keeps w) (served : row.Served) {after : Nat}
    (boundary : w.Boundary after) (maxRows : Int) (includeHidden : Bool) : row.Serves w after maxRows includeHidden := by
  obtain ⟨earlier, later, cut, rfl, apart⟩ := boundary
  have seqs := keeps.seqs
  have order := keeps.order
  rw [cut] at seqs order
  have since : w.since (w.first + earlier.length) = later := by rw [Written.since, cut, filter_cut seqs]
  obtain ⟨rest, split, whole, short, nothing⟩ :=
    wholePage_split (List.pairwise_append.mp order).2.1 (limit_pos maxRows)
  constructor
  · rw [since]
    rcases keeps.cursor cut with ⟨all, gone, kept, front, back, retained⟩ | ⟨lost, front, gone, back, retained⟩
    · constructor
      · rintro ⟨oldest, refused⟩
        rw [keeps.changes_page served cut front back retained] at refused
        exact absurd refused (by simp only [reduceCtorEq, not_false_iff])
      · rintro ⟨d, member, missing⟩
        exact absurd (all d member) missing
    · exact ⟨fun _ => lost, fun _ => keeps.changes_lagged served cut gone back retained maxRows includeHidden⟩
  · rw [since]
    intro all
    rcases keeps.cursor cut with ⟨_, gone, kept, front, back, retained⟩ | ⟨⟨d, member, missing⟩, _⟩
    · refine ⟨_, rest, split, keeps.changes_page served cut front back retained maxRows includeHidden, ?_, ?_, ?_, ?_⟩
      · have later' := (seqs_cut seqs).2
        conv at later' => rw [split]
        exact (seqs_cut later').1
      · refine ⟨earlier ++ wholePage later (max maxRows 1).toNat, rest, ?_, ?_, ?_⟩
        · rw [cut, List.append_assoc, ← split]
        · rw [List.length_append, Nat.add_assoc]
        · intro a left b right
          rcases List.mem_append.mp left with before | here
          · exact apart a before b (split ▸ List.mem_append_right _ right)
          · exact whole a here b right
      · intro less
        exact short (by omega)
      · intro none
        rw [none, List.nil_append] at split
        exact split.symm.trans (nothing none)
    · exact absurd (all d member) missing

def drain (row : ViewRow) (maxRows : Int) (includeHidden : Bool) : Nat → Nat → Except ApiError (List Client.ServerRow)
  | 0, _ => .ok []
  | calls + 1, after =>
    match changes row after row.epoch maxRows includeHidden with
    | .error e => .error e
    | .ok rows =>
      match rows.getLast? with
      | none => .ok []
      | some last => (drain row maxRows includeHidden calls last.seq.toNat).map (rows ++ ·)

theorem ViewRow.Keeps.since_seqs {row : ViewRow} {w : Written} (keeps : row.Keeps w) {after : Nat} (boundary : w.Boundary after) :
    (w.since after).map LoggedDelta.seq = List.range' (after + 1) (w.since after).length := by
  obtain ⟨earlier, later, cut, rfl, _⟩ := boundary
  have seqs := keeps.seqs
  rw [cut] at seqs
  rw [Written.since, cut, filter_cut seqs]
  exact (seqs_cut seqs).2

theorem Written.since_rest {w : Written} {after : Nat} {rows later : List LoggedDelta}
    (seqs : (w.since after).map LoggedDelta.seq = List.range' (after + 1) (w.since after).length)
    (split : w.since after = rows ++ later) : w.since (after + rows.length) = later := by
  have narrowed : w.since (after + rows.length) = (w.since after).filter fun d => decide (after + rows.length < d.seq) := by
    rw [Written.since, Written.since, List.filter_filter]
    refine List.filter_congr fun d _ => ?_
    by_cases beyond : after + rows.length < d.seq
    · rw [decide_eq_true beyond, decide_eq_true (by omega), Bool.and_self]
    · rw [decide_eq_false beyond, Bool.false_and]
  rw [split] at seqs
  rw [narrowed, split]
  exact filter_cut seqs

theorem ViewRow.Keeps.drain {row : ViewRow} {w : Written} (keeps : row.Keeps w) (served : row.Served) (maxRows : Int)
    (includeHidden : Bool) {calls after : Nat} (boundary : w.Boundary after) (kept : ∀ d ∈ w.since after, d ∈ row.deltas)
    (enough : (w.since after).length ≤ calls) :
    Nabla.drain row maxRows includeHidden calls after =
      .ok ((w.since after).map (LoggedDelta.output (if includeHidden then [] else row.spec.hiddenColumns))) := by
  induction calls generalizing after with
  | zero =>
      rw [List.length_eq_zero_iff.mp (Nat.le_zero.mp enough)]
      rfl
  | succ calls ih =>
      obtain ⟨rows, later, split, answered, seqs, next, _, nothing⟩ := (keeps.serves served boundary maxRows includeHidden).page kept
      have rest := Written.since_rest (keeps.since_seqs boundary) split
      rw [Nabla.drain, answered]
      dsimp only
      rw [List.getLast?_map]
      cases final : rows.getLast? with
      | none =>
          have none := List.getLast?_eq_none_iff.mp final
          rw [split, none, nothing none]
          rfl
      | some last =>
          have some : rows ≠ [] := fun none => by
            rw [none] at final
            exact absurd final (by simp only [List.getLast?_nil, reduceCtorEq, not_false_iff])
          have positive := List.length_pos_iff.mpr some
          have lastSeq : last.seq = after + rows.length := by
            have mapped : (rows.map LoggedDelta.seq).getLast? = Option.some last.seq := by rw [List.getLast?_map, final]; rfl
            rw [seqs, List.getLast?_range'] at mapped
            rw [if_neg (by omega), Option.some.injEq] at mapped
            omega
          have shorter : (w.since (after + rows.length)).length ≤ calls := by
            rw [rest]
            rw [split, List.length_append] at enough
            omega
          have onward := ih next (fun d member => kept d (split ▸ List.mem_append_right _ (rest ▸ member))) shorter
          rw [Option.map_some]
          show (Nabla.drain row maxRows includeHidden calls ((last.seq : Int)).toNat).map _ = _
          rw [Int.toNat_natCast, lastSeq, onward, rest, split, List.map_append]
          rfl

/-- The retained rows: consecutive up to `last_seq`, positions never going back, and the
end of blocks of which each holds the rows of one source transaction. -/
structure ViewRow.WellLogged (row : ViewRow) (w : Written) : Prop where
  bounded : row.deltas.length ≤ row.lastSeq
  seqs : row.deltas.map LoggedDelta.seq = List.range' (row.lastSeq - row.deltas.length + 1) row.deltas.length
  order : row.deltas.Pairwise InOrder
  blocks : ∃ blocks gone, numberBlocks w.first blocks = gone ++ row.deltas ∧
    (blocks.map fun b => b.1.endLsn).Pairwise (· < ·)

theorem ViewRow.Keeps.wellLogged {row : ViewRow} {w : Written} (keeps : row.Keeps w) : row.WellLogged w := by
  obtain ⟨gone, split, _⟩ := keeps.retained
  obtain ⟨blocks, written, increasing, _⟩ := keeps.blocks
  have seqs := keeps.seqs
  have order := keeps.order
  have last := keeps.last
  rw [split] at seqs order last
  rw [List.length_append] at last
  refine ⟨by omega, ?_, (List.pairwise_append.mp order).2.1, blocks, gone, written.symm.trans split, increasing⟩
  rw [(seqs_cut seqs).2]
  congr 2
  omega

theorem Logged.pages {c : Catalog} {w : Nat → Written} (run : Logged pf c w) {row : ViewRow} (member : row ∈ c.views) :
    row.WellLogged (w row.id) ∧ (row.Served → ∀ after, (w row.id).Boundary after → ∀ maxRows includeHidden,
      row.Serves (w row.id) after maxRows includeHidden ∧
      ((∀ d ∈ (w row.id).since after, d ∈ row.deltas) → ∀ calls, ((w row.id).since after).length ≤ calls →
        drain row maxRows includeHidden calls after = .ok (((w row.id).since after).map
          (LoggedDelta.output (if includeHidden then [] else row.spec.hiddenColumns))))) := by
  have keeps := run.keeps.2 row member
  refine ⟨keeps.wellLogged, fun served after boundary maxRows includeHidden => ⟨?_, fun kept calls enough => ?_⟩⟩
  · exact keeps.serves served boundary maxRows includeHidden
  · exact keeps.drain served maxRows includeHidden boundary kept enough

def shopOrders (endLsn : Nat) (ids : List String) : SourceTransaction :=
  ⟨endLsn, endLsn - 1, endLsn, ids.map fun id => .insert 1 (encodeRow .basic (shopRelation 1) (shopRow (.text id) (.text "c") .null))⟩

def ordersStream : List SourceTransaction := [shopDecoded .null, shopOrders 20 ["p", "q"], shopOrders 30 ["r"]]

/-- Three transactions read in pages of two rows, which would cut the second. -/
theorem shop_pages : ∃ row : ViewRow, ∃ w : Written, (w.deltas.map fun d => (d.seq, d.xid)) = [(1, 1), (2, 20), (3, 20), (4, 30)] ∧
    row.Serves w 0 2 false ∧ drain row 2 false 4 0 = .ok (w.deltas.map (LoggedDelta.output row.spec.hiddenColumns)) := by
  obtain ⟨first, applied, views, seqs⟩ : ∃ first,
      applyRound .basic shopSettings Faults.none (some ∘ shopRelation) shopCatalog ordersStream = .ok first ∧
      (first.catalog.views.map fun row => (row.id, row.status, row.deltas)) = [(7, .live, first.logged 7)] ∧
      ((first.logged 7).map fun d => (d.seq, d.xid)) = [(1, 1), (2, 20), (3, 20), (4, 30)] := ⟨_, rfl, rfl, rfl⟩
  have start : Logged .basic shopCatalog (shopCatalog.restarted fun _ => ⟨0, []⟩) :=
    .start (show [7].Nodup by decide) fun row member => by
      obtain rfl := List.mem_singleton.mp member
      rfl
  have run := start.round (show 1 ≤ shopSettings.retainDeltas by decide) applied
  cases first' : first.catalog.views with
  | nil =>
      rw [first'] at views
      exact absurd views (by simp only [List.map_nil, reduceCtorEq, not_false_iff])
  | cons row rows =>
      rw [first', List.map_cons] at views
      obtain ⟨head, _⟩ := List.cons.inj views
      obtain ⟨id, rest⟩ := Prod.mk.inj head
      obtain ⟨status, deltas⟩ := Prod.mk.inj rest
      have member : row ∈ first.catalog.views := first' ▸ List.mem_cons_self
      have written : ((shopCatalog.restarted fun _ => ⟨0, []⟩) row.id).append (first.logged row.id) = ⟨0, row.deltas⟩ := by
        rw [id, deltas]
        rfl
      have logged := run.pages member
      rw [written] at logged
      rw [← deltas] at seqs
      have since : (⟨0, row.deltas⟩ : Written).since 0 = row.deltas := by
        refine List.filter_eq_self.mpr fun d within => ?_
        have listed := List.mem_map_of_mem (f := fun d : LoggedDelta => (d.seq, d.xid)) within
        have positive : ∀ p ∈ [(1, 1), (2, 20), (3, 20), (4, 30)], 0 < p.1 := by decide
        rw [seqs] at listed
        exact decide_eq_true (positive _ listed)
      have length : row.deltas.length = 4 := by
        have counted := congrArg List.length seqs
        rwa [List.length_map] at counted
      obtain ⟨serves, drained⟩ := logged.2 ⟨by rw [status]; decide, by rw [status]; decide⟩ 0
        ⟨[], row.deltas, rfl, rfl, fun a within => absurd within List.not_mem_nil⟩ 2 false
      have all := drained (fun d within => since ▸ within) 4 (by rw [since, length])
      rw [since] at all
      exact ⟨row, ⟨0, row.deltas⟩, seqs, serves, all⟩

/-- A stale view that has everything a cursor asks for refuses it all the same. -/
theorem shopStale_unserved : ¬ ∀ {pf : Platform} {c : Catalog} {w : Nat → Written} (_ : Logged pf c w) {row : ViewRow}
    (_ : row ∈ c.views) (after : Nat) (_ : (w row.id).Boundary after) (maxRows : Int) (includeHidden : Bool),
    row.Serves (w row.id) after maxRows includeHidden := by
  intro claim
  let stale : ViewRow := { shopView 10 [] with status := .stale }
  let c : Catalog := { shopCatalog with views := [stale] }
  have run : Logged .basic c (c.restarted fun _ => ⟨0, []⟩) := .start (show [7].Nodup by decide) fun row member => by
    obtain rfl := List.mem_singleton.mp member
    rfl
  have boundary : (c.restarted (fun _ => ⟨0, []⟩) stale.id).Boundary 0 :=
    ⟨[], [], rfl, rfl, fun a member => absurd member List.not_mem_nil⟩
  obtain ⟨rows, _, _, answered, _⟩ := (claim run List.mem_cons_self 0 boundary 1 false).page fun d member =>
    absurd member List.not_mem_nil
  exact absurd answered (by simp only [changes, stale, reduceCtorEq, not_false_iff])

end Nabla
