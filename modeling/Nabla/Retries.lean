import Nabla.Delivery

/-! `record_failure` over a run of rounds: how often a view failed, and at which transaction. -/
namespace Nabla
open Bags

variable {pf : Platform} {settings : Settings} {faults : Faults} {rels : List (Nat × Relation)}

/-- The view's failure counter after transactions that end at `ends`: as before, or one
higher because the view failed at the first of them it had not absorbed. -/
inductive LiveView.Counted (settings : Settings) (ends : List Nat) (v v' : LiveView) : Prop
  | kept (flag : v'.failedThisRound = v.failedThisRound) (memory : v'.applyFailures = v.applyFailures)
      (count : v'.row.applyFailures = v.row.applyFailures)
  | failed (e : Nat) (alive : v.dead = false) (dead : v'.dead = true) (first : ends.find? (v'.frontier < ·) = some e)
      (flag : v'.failedThisRound = true) (count : v'.row.applyFailures = v.applyFailures + 1)
      (status : v'.row.status = if max settings.maxApplyFailures 1 ≤ v.applyFailures + 1 then .stale else v.row.status)

structure LiveView.Tried (settings : Settings) (ends : List Nat) (v v' : LiveView) : Prop where
  id : v'.row.id = v.row.id
  onward : v.frontier ≤ v'.frontier
  through : v'.dead = false → v'.row.status = v.row.status ∧ ∀ x ∈ ends, x ≤ v'.frontier
  retried : v.dead = false → v'.dead = true → v'.row.status = .live → v'.failedThisRound = true
  dropped : v.dead = true → v'.dead = true ∧ v'.frontier = v.frontier ∧ v'.row = v.row ∧ v'.failedThisRound = v.failedThisRound
  counted : v.Counted settings ends v'

theorem LiveView.Tried.refl (settings : Settings) (v : LiveView) : v.Tried settings [] v where
  id := rfl
  onward := le_refl _
  through := fun _ => ⟨rfl, fun _ member => absurd member List.not_mem_nil⟩
  retried := fun alive dead => absurd (alive.symm.trans dead) Bool.false_ne_true
  dropped := fun dead => ⟨dead, rfl, rfl, rfl⟩
  counted := .kept rfl rfl rfl

theorem LiveView.Tried.append {ends ends' : List Nat} {v v₁ v' : LiveView} (first : v.Tried settings ends v₁)
    (second : v₁.Tried settings ends' v') : v.Tried settings (ends ++ ends') v' where
  id := second.id.trans first.id
  onward := first.onward.trans second.onward
  through := by
    intro alive'
    have alive : v₁.dead = false := by
      rw [← Bool.not_eq_true]
      exact fun dead => absurd (alive'.symm.trans (second.dropped dead).1) Bool.false_ne_true
    obtain ⟨status, reached⟩ := first.through alive
    obtain ⟨status', reached'⟩ := second.through alive'
    refine ⟨status'.trans status, fun x member => ?_⟩
    rcases List.mem_append.mp member with left | right
    · exact (reached x left).trans second.onward
    · exact reached' x right
  retried := by
    intro alive dead' live
    cases dead : v₁.dead with
    | false => exact second.retried dead dead' live
    | true =>
        obtain ⟨_, _, row, flag⟩ := second.dropped dead
        rw [flag]
        exact first.retried alive dead (row ▸ live)
  dropped := by
    intro dead
    obtain ⟨dead₁, frontier, row, flag⟩ := first.dropped dead
    obtain ⟨dead', frontier', row', flag'⟩ := second.dropped dead₁
    exact ⟨dead', frontier'.trans frontier, row'.trans row, flag'.trans flag⟩
  counted := by
    cases first.counted with
    | kept flag memory count =>
        cases second.counted with
        | kept flag' memory' count' => exact .kept (flag'.trans flag) (memory'.trans memory) (count'.trans count)
        | failed e alive₁ dead' next flag' count' status' =>
            obtain ⟨status, reached⟩ := first.through alive₁
            have alive : v.dead = false := by
              rw [← Bool.not_eq_true]
              exact fun dead => absurd (alive₁.symm.trans (first.dropped dead).1) Bool.false_ne_true
            have none : ends.find? (v'.frontier < ·) = none := by
              rw [List.find?_eq_none]
              intro x member
              rw [decide_eq_true_eq, not_lt]
              exact (reached x member).trans second.onward
            refine .failed e alive dead' ?_ flag' (memory ▸ count') ?_
            · rw [List.find?_append, none, next, Option.none_or]
            · rw [status', memory, status]
    | failed e alive dead next flag count status =>
        obtain ⟨dead', frontier', row', flag'⟩ := second.dropped dead
        refine .failed e alive dead' ?_ (flag'.trans flag) (row' ▸ count) (row' ▸ status)
        rw [List.find?_append, frontier', next, Option.some_or]

theorem LiveView.recordFailure_tried (settings : Settings) (message : String) (ops : List Op) {v : LiveView} {e : Nat}
    (alive : v.dead = false) (behind : v.frontier < e) :
    v.Tried settings [e] ({ v with ops := ops }.recordFailure settings message) where
  id := rfl
  onward := le_refl _
  through := fun alive' => Bool.noConfusion alive'
  retried := fun _ _ _ => rfl
  dropped := fun dead => absurd (alive.symm.trans dead) Bool.false_ne_true
  counted := by
    refine .failed e alive rfl ?_ rfl rfl rfl
    exact List.find?_cons_of_pos (decide_eq_true behind)

theorem executeView_tried (tx : SourceTransaction) (v : LiveView) :
    v.Tried settings [tx.endLsn] (executeView pf settings faults tx v) := by
  unfold executeView
  by_cases skipped : (v.dead || decide (tx.endLsn ≤ v.frontier)) = true
  · rw [if_pos skipped]
    refine ⟨rfl, le_refl _, fun alive => ⟨rfl, fun x member => ?_⟩, fun alive dead => ?_, fun dead => ⟨dead, rfl, rfl, rfl⟩,
      .kept rfl rfl rfl⟩
    · obtain rfl := List.mem_singleton.mp member
      rwa [alive, Bool.false_or, decide_eq_true_eq] at skipped
    · exact absurd (alive.symm.trans dead) Bool.false_ne_true
  · rw [if_neg skipped]
    rw [Bool.not_eq_true, Bool.or_eq_false_iff, decide_eq_false_iff_not, not_le] at skipped
    obtain ⟨alive, behind⟩ := skipped
    have notDead : v.dead ≠ true := fun dead => absurd (alive.symm.trans dead) Bool.false_ne_true
    cases stale : v.stale with
    | some reason =>
        exact ⟨rfl, le_refl _, fun alive' => Bool.noConfusion alive', fun _ _ live => Status.noConfusion live,
          fun dead => absurd dead notDead, .kept rfl rfl rfl⟩
    | none =>
        cases failed : v.failed with
        | some message => exact LiveView.recordFailure_tried settings message v.ops alive behind
        | none =>
            cases executed : inSubtransaction (faults.executing v.row.id tx.endLsn v.ops) (execute pf v.row.spec v.row.storage v.ops) with
            | error message =>
                have tried := LiveView.recordFailure_tried settings message [] alive behind
                rw [stale, failed] at tried
                exact tried
            | ok written =>
                refine ⟨rfl, behind.le, fun _ => ⟨rfl, fun x member => ?_⟩, fun _ dead => absurd dead notDead,
                  fun dead => absurd dead notDead, .kept rfl rfl rfl⟩
                exact (List.mem_singleton.mp member).le

theorem LiveView.Kept.tried {e : Nat} {v v' : LiveView} (kept : v.Kept e v') : v.Tried settings [] v' := by
  obtain ⟨same, _⟩ := kept
  rw [same]
  exact ⟨rfl, le_refl _, fun _ => ⟨rfl, fun _ member => absurd member List.not_mem_nil⟩,
    fun alive dead => absurd (alive.symm.trans dead) Bool.false_ne_true, fun dead => ⟨dead, rfl, rfl, rfl⟩, .kept rfl rfl rfl⟩

theorem applyTransaction_tried {tx : SourceTransaction} {st st' : RoundState} {blocked : Bool}
    (applied : applyTransaction pf settings faults rels tx st = .ok (st', blocked)) :
    List.Forall₂ (LiveView.Tried settings [tx.endLsn]) st.views st'.views := by
  unfold applyTransaction at applied
  obtain ⟨planned, changed, same⟩ := ok_of_map applied
  obtain ⟨rfl, _⟩ := Prod.mk.inj same
  refine forall₂_trans (fun v v₁ v' first second => ?_) (applyChanges_views changed)
    (forall₂_map_right (R := LiveView.Tried settings [tx.endLsn]) _ fun v _ => executeView_tried tx v)
  exact first.tried.append second

theorem applyTransactions_tried {ti : Nat} {txs : List SourceTransaction} {st st' : RoundState} {blockedAt : Option Nat}
    (ran : applyTransactions pf settings faults rels ti txs st = .ok (st', blockedAt)) :
    List.Forall₂ (LiveView.Tried settings (txs.map SourceTransaction.endLsn)) st.views st'.views := by
  induction txs generalizing ti st blockedAt with
  | nil =>
      obtain ⟨rfl, rfl⟩ := Prod.mk.inj (Except.ok.inj ran)
      exact List.forall₂_same.mpr fun v _ => .refl settings v
  | cons tx txs ih =>
      rw [applyTransactions] at ran
      cases first : applyTransaction pf settings faults rels tx st with
      | error message => simp only [first, reduceCtorEq] at ran
      | ok step =>
          obtain ⟨st₁, blocked⟩ := step
          simp only [first] at ran
          obtain ⟨r, rest, same⟩ := ok_of_map ran
          obtain ⟨rfl, _⟩ := Prod.mk.inj same
          exact forall₂_trans (fun v v₁ v' one more => one.append more) (applyTransaction_tried first) (ih rest)

/-- The transaction the round left a view at: the first of the peek it failed to absorb. -/
def RoundResult.failedAt (result : RoundResult) (txs : List SourceTransaction) (id : Nat) : Option Nat :=
  (result.views.find? (·.row.id = id)).bind fun v =>
    if v.failedThisRound then (txs.map SourceTransaction.endLsn).find? (v.frontier < ·) else none

def Catalog.Offers (c : Catalog) (txs : List SourceTransaction) (id : Nat) : Prop :=
  ∃ row ∈ c.views, row.id = id ∧ row.status = .live ∧ ∃ tx ∈ txs, row.frontier < tx.endLsn

instance (c : Catalog) (txs : List SourceTransaction) (id : Nat) : Decidable (c.Offers txs id) :=
  inferInstanceAs (Decidable (∃ row ∈ c.views, row.id = id ∧ row.status = .live ∧ ∃ tx ∈ txs, row.frontier < tx.endLsn))

/-- How the rounds that had a transaction for it went for each view, the latest first: the
transaction it failed at, if any. -/
abbrev Attempts := Nat → List (Option Nat)

def Attempts.record (a : Attempts) (c : Catalog) (txs : List SourceTransaction) (result : RoundResult) : Attempts :=
  fun id => if c.Offers txs id then result.failedAt txs id :: a id else a id

def Attempts.through (a : Attempts) (pf : Platform) (settings : Settings) (faults : Faults) (cache : Nat → Option Relation) (c : Catalog)
    (txs : List SourceTransaction) : Attempts :=
  if txs = [] then a
  else match applyRound pf settings faults cache c txs with
    | .ok result => a.record c txs result
    | .error _ => a

/-- A round in which a view that had failed absorbs the transaction it failed at does not
have it fail at a later one. -/
def NoLaterFailure (c : Catalog) (txs : List SourceTransaction) (result : RoundResult) : Prop :=
  ∀ row ∈ c.views, row.status = .live → 0 < row.applyFailures → result.failedAt txs row.id ≠ none → result.absorbed row.id = []

/-- The durable states of the worker over a stream of source transactions under one
`nabla.max_apply_failures`, with how the rounds went. `others` is what other sessions and
population do: a view that becomes live starts with no failure. -/
inductive Retries (guard : Catalog → List SourceTransaction → RoundResult → Prop) (pf : Platform) (m : Nat)
    (stream : List SourceTransaction) : Durable → Attempts → Prop where
  | start {c : Catalog} {confirmed : Nat} {a : Attempts} (ids : Keyed ViewRow.id c.views)
      (none : ∀ row ∈ c.views, row.status ≠ .live) : Retries guard pf m stream ⟨c, some confirmed⟩ a
  | others {d : Durable} {c : Catalog} {a a' : Attempts} (run : Retries guard pf m stream d a) (ids : Keyed ViewRow.id c.views)
      (views : ∀ row' ∈ c.views, row'.status = .live →
        (∃ row ∈ d.catalog.views, row.status = .live ∧ row.id = row'.id ∧ row.frontier = row'.frontier ∧
          row.applyFailures = row'.applyFailures ∧ a' row'.id = a row'.id) ∨
        (row'.applyFailures = 0 ∧ a' row'.id = [] ∧ ∀ confirmed, d.slot = some confirmed → confirmed ≤ row'.frontier)) :
      Retries guard pf m stream { d with catalog := c } a'
  | round {d d' : Durable} {settings : Settings} {faults : Faults} {cache : Nat → Option Relation} {peek : Peek} {confirmed : Nat}
      {a : Attempts} (run : Retries guard pf m stream d a) (limit : settings.maxApplyFailures = m) (slot : d.slot = some confirmed)
      (lag : peek.lag ≤ settings.maxSlotLagBytes) (reads : peek.Reads stream confirmed)
      (guarded : ∀ result, applyRound pf settings faults cache d.catalog peek.transactions = .ok result →
        guard d.catalog peek.transactions result)
      (state : d' ∈ runRound pf settings faults cache peek d) :
      Retries guard pf m stream d' (a.through pf settings faults cache d.catalog peek.transactions)

/-- The view is marked stale by apply failures in the round. -/
def RoundResult.GivesUp (result : RoundResult) (txs : List SourceTransaction) (row' : ViewRow) : Prop :=
  row'.status = .stale ∧ (result.failedAt txs row'.id).isSome = true

/-- The first of the transactions past a position. -/
structure Next (ends : List Nat) (p e : Nat) : Prop where
  member : e ∈ ends
  past : p < e
  first : ∀ x ∈ ends, p < x → e ≤ x

theorem Next.unique {ends : List Nat} {p e e' : Nat} (next : Next ends p e) (next' : Next ends p e') : e = e' :=
  le_antisymm (next.first e' next'.member next'.past) (next'.first e next.member next.past)

theorem Next.of_find {ends : List Nat} {p e : Nat} (ordered : ends.Pairwise (· < ·)) (found : ends.find? (p < ·) = some e) : Next ends p e := by
  obtain ⟨past, before, after, rfl, none⟩ := List.find?_eq_some_iff_append.mp found
  rw [decide_eq_true_eq] at past
  refine ⟨List.mem_append_right _ List.mem_cons_self, past, fun x member low => ?_⟩
  rcases List.mem_append.mp member with left | right
  · exact absurd (decide_eq_true low) (by simpa using none x left)
  · rcases List.mem_cons.mp right with rfl | later
    · exact le_refl _
    · exact (List.rel_of_pairwise_cons (List.pairwise_append.mp ordered).2.1 later).le

theorem LiveView.finish_failures {v : LiveView} {row : ViewRow} (done : v.finish settings = .ok row) :
    row.applyFailures = if v.absorbed = [] ∨ v.failedThisRound = true then v.row.applyFailures else 0 := by
  unfold LiveView.finish at done
  cases last : v.absorbed.getLast? with
  | none =>
      simp only [last, Except.ok.injEq] at done
      rw [if_pos (.inl (List.getLast?_eq_none_iff.mp last)), done]
  | some e =>
      have some : v.absorbed ≠ [] := fun empty => by rw [empty] at last; cases last
      have reset : (if v.failedThisRound = true then v.row.applyFailures else 0) =
          if v.absorbed = [] ∨ v.failedThisRound = true then v.row.applyFailures else 0 := by
        simp only [some, false_or]
      simp only [last] at done
      cases pending : v.pending.getLast? with
      | none =>
          simp only [pending, Except.ok.injEq] at done
          rw [← reset, ← done]
      | some logged =>
          simp only [pending] at done
          obtain ⟨_, _, rfl⟩ := ok_of_map done
          exact reset

/-- What a round makes of the counter of a live row. -/
structure ViewRow.Counts (settings : Settings) (txs : List SourceTransaction) (result : RoundResult) (row row' : ViewRow) : Prop where
  quiet : result.failedAt txs row.id = none →
    row'.applyFailures = (if result.absorbed row.id = [] then row.applyFailures else 0) ∧
      (row'.status = .live → ∀ tx ∈ txs, tx.endLsn ≤ row'.frontier)
  failing : ∀ e, result.failedAt txs row.id = some e → row'.applyFailures = row.applyFailures + 1 ∧
    row'.status = (if max settings.maxApplyFailures 1 ≤ row.applyFailures + 1 then .stale else .live) ∧
      (txs.map SourceTransaction.endLsn).find? (row'.frontier < ·) = some e

theorem applyRound_counts {cache : Nat → Option Relation} {c : Catalog} {txs : List SourceTransaction} {result : RoundResult}
    (ids : Keyed ViewRow.id c.views) (ordered : txs.Pairwise fun t u => t.endLsn < u.endLsn)
    (applied : applyRound pf settings faults cache c txs = .ok result) :
    ∀ row' ∈ result.catalog.views, ∃ row ∈ c.views, row'.id = row.id ∧ row.Went txs result row' ∧
      (row.status ≠ .live → row' = row ∧ result.failedAt txs row.id = none) ∧ (row.status = .live → row.Counts settings txs result row') := by
  intro row' member
  obtain ⟨row₁, inCatalog₁, went⟩ := (applyRound_went ids ordered applied).2 row' member
  obtain ⟨row, inCatalog, rowId, handled⟩ := (applyRound_rows (R := fun v v' => v.Ran 0 (txs.map SourceTransaction.endLsn) result.blockedAt v' ∧
    v.Tried settings (txs.map SourceTransaction.endLsn) v') (fun step => step.1.same.id)
    (fun _ ran => forall₂_both (applyTransactions_ran ordered ran) (applyTransactions_tried ran)) ids applied).2 row' member
  obtain rfl := ids.eq_of_mem inCatalog₁ inCatalog (went.id.symm.trans rowId)
  refine ⟨row₁, inCatalog, rowId, went, ?_⟩
  cases handled with
  | other status same absent =>
      refine ⟨fun _ => ⟨same, ?_⟩, fun live => absurd live status⟩
      rw [RoundResult.failedAt, absent]
      rfl
  | live v v' status loaded step found finished =>
      refine ⟨fun other => absurd status other, fun _ => ?_⟩
      obtain ⟨ran, tried⟩ := step
      have done := LiveView.finish_ok finished
      have alive : v.dead = false := by rw [loaded]; rfl
      have calm : v.failedThisRound = false := by rw [loaded]; rfl
      have count : v.row.applyFailures = row₁.applyFailures := by rw [loaded]; rfl
      have memory : v.applyFailures = row₁.applyFailures := by rw [loaded]; rfl
      have wasLive : v.row.status = .live := by rw [loaded]; exact status
      have frontier : row'.frontier = v'.frontier := by
        have before : v.frontier = v.row.frontier := by rw [loaded]; rfl
        have none : v.absorbed = [] := by rw [loaded]; rfl
        obtain ⟨n, _, absorbed, reached, _⟩ := ran.absorbs alive
        rw [done.frontier, reached, absorbed, none, List.nil_append, ran.same.frontier, before]
      have absorbedIs : result.absorbed row₁.id = v'.absorbed := by rw [RoundResult.absorbed, found, Option.map_some, Option.getD_some]
      have failedIs : result.failedAt txs row₁.id =
          if v'.failedThisRound then (txs.map SourceTransaction.endLsn).find? (v'.frontier < ·) else none := by
        rw [RoundResult.failedAt, found, Option.bind_some]
      have failures := LiveView.finish_failures finished
      cases tried.counted with
      | kept flag' memory' count' =>
          rw [calm] at flag'
          rw [flag', if_neg Bool.false_ne_true] at failedIs
          constructor
          · intro _
            refine ⟨?_, fun live tx inTxs => ?_⟩
            · rw [failures, flag', absorbedIs, count', count]
              simp only [Bool.false_eq_true, or_false]
            · have alive' : v'.dead = false := by
                rw [← Bool.not_eq_true]
                exact fun dead => absurd (flag'.symm.trans (tried.retried alive dead (done.status ▸ live))) Bool.false_ne_true
              rw [frontier]
              exact (tried.through alive').2 _ (List.mem_map_of_mem inTxs)
          · intro e failed
            exact absurd (failedIs.symm.trans failed) (by simp only [reduceCtorEq, not_false_iff])
      | failed e _ _ next flag' count' status' =>
          rw [flag', if_pos rfl, next] at failedIs
          constructor
          · intro none
            exact absurd (failedIs.symm.trans none) (by simp only [reduceCtorEq, not_false_iff])
          · intro e' failed
            obtain rfl := Option.some.inj (failedIs.symm.trans failed)
            refine ⟨?_, ?_, frontier ▸ next⟩
            · rw [failures, flag', if_pos (.inr rfl), count', memory]
            · rw [done.status, status', memory, wasLive]

/-- The failures counted for a view are those of the last rounds, all at the transaction it
has to absorb next. -/
structure ViewRow.Streak (ends : List Nat) (m : Nat) (outcomes : List (Option Nat)) (row : ViewRow) : Prop where
  counted : ∃ e earlier, outcomes = List.replicate row.applyFailures (some e) ++ earlier ∧ (earlier = [] ∨ earlier.head? = some none) ∧
    (0 < row.applyFailures → Next ends row.frontier e)
  below : row.applyFailures < max m 1

theorem take_streak {n m : Nat} {e : Nat} {earlier : List (Option Nat)} (ended : earlier = [] ∨ earlier.head? = some none) :
    (∃ e', (List.replicate n (some e) ++ earlier).take m = List.replicate m (some e')) ↔ m ≤ n := by
  constructor
  · rintro ⟨e', same⟩
    by_contra beyond
    have at_n : ((List.replicate n (some e) ++ earlier).take m)[n]? = some (some e') := by
      rw [same, List.getElem?_replicate, if_pos (not_le.mp beyond)]
    rw [List.getElem?_take_of_lt (not_le.mp beyond), List.getElem?_append_right (List.length_replicate ▸ le_refl n),
      List.length_replicate, Nat.sub_self, ← List.head?_eq_getElem?] at at_n
    rcases ended with rfl | head
    · cases at_n
    · rw [head] at at_n
      cases at_n
  · intro within
    refine ⟨e, ?_⟩
    rw [List.take_append_of_le_length (List.length_replicate ▸ within), List.take_replicate, min_eq_left within]

theorem ViewRow.Went.onward {txs : List SourceTransaction} {result : RoundResult} {row row' : ViewRow} (went : row.Went txs result row') :
    row.frontier ≤ row'.frontier := by
  by_cases live : row.status = .live
  · obtain ⟨n, _, absorbed, frontier, _⟩ := went.through live
    rw [frontier]
    cases last : (result.absorbed row.id).getLast? with
    | none => exact le_refl _
    | some e =>
        have member := List.mem_of_getLast? last
        rw [absorbed] at member
        exact (of_decide_eq_true (List.mem_filter.mp member).2).le
  · rw [(went.other live).1]

/-- A view that absorbed nothing stands where it stood. -/
theorem ViewRow.Went.still {txs : List SourceTransaction} {result : RoundResult} {row row' : ViewRow} (went : row.Went txs result row')
    (live : row.status = .live) (nothing : result.absorbed row.id = []) : row'.frontier = row.frontier := by
  obtain ⟨_, _, _, frontier, _⟩ := went.through live
  rw [frontier, nothing]
  rfl

section Round

variable {ends : List Nat} {m confirmed cut : Nat} {outcomes : List (Option Nat)} {txs : List SourceTransaction} {result : RoundResult}
  {row row' : ViewRow}

/-- The transaction a view failed at is the next of the stream for it. -/
theorem ViewRow.Counts.next (counts : row.Counts settings txs result row') (ordered : ends.Pairwise (· < ·))
    (peeked : txs.map SourceTransaction.endLsn = window ends confirmed cut) (safe : ∀ x ∈ ends, x ≤ confirmed → x ≤ row.frontier)
    (went : row.Went txs result row') {e : Nat} (failed : result.failedAt txs row.id = some e) : Next ends row'.frontier e := by
  have found := (counts.failing e failed).2.2
  rw [peeked] at found
  have next := Next.of_find (ordered.filter _) found
  obtain ⟨inEnds, _, upTo⟩ := mem_window.mp next.member
  refine ⟨inEnds, next.past, fun x member past => ?_⟩
  by_cases within : x ≤ cut
  · refine next.first x (mem_window.mpr ⟨member, ?_, within⟩) past
    by_contra low
    have old := safe x member (not_lt.mp low)
    exact absurd (old.trans went.onward) (not_le.mpr past)
  · exact upTo.trans (not_le.mp within).le

/-- A view that failed before and fails again has absorbed nothing, so it fails at the same
transaction. -/
theorem ViewRow.Streak.failing (streak : row.Streak ends m outcomes) (live : row.status = .live) (counts : row.Counts settings txs result row')
    (ordered : ends.Pairwise (· < ·)) (peeked : txs.map SourceTransaction.endLsn = window ends confirmed cut)
    (safe : ∀ x ∈ ends, x ≤ confirmed → x ≤ row.frontier) (went : row.Went txs result row')
    (once : 0 < row.applyFailures → result.failedAt txs row.id ≠ none → result.absorbed row.id = []) {e : Nat}
    (failed : result.failedAt txs row.id = some e) :
    ∃ earlier, some e :: outcomes = List.replicate (row.applyFailures + 1) (some e) ++ earlier ∧ (earlier = [] ∨ earlier.head? = some none) := by
  obtain ⟨e₀, earlier, rfl, ended, pending⟩ := streak.counted
  refine ⟨earlier, ?_, ended⟩
  cases count : row.applyFailures with
  | zero => rfl
  | succ n =>
      have again : 0 < row.applyFailures := by omega
      have still := went.still live (once again (by rw [failed]; exact Option.some_ne_none e))
      have next := counts.next ordered peeked safe went failed
      rw [still] at next
      rw [(pending again).unique next]
      rfl

theorem ViewRow.Streak.gives_up (streak : row.Streak ends m outcomes) (limit : settings.maxApplyFailures = m) (live : row.status = .live)
    (counts : row.Counts settings txs result row') (ordered : ends.Pairwise (· < ·))
    (peeked : txs.map SourceTransaction.endLsn = window ends confirmed cut) (safe : ∀ x ∈ ends, x ≤ confirmed → x ≤ row.frontier)
    (went : row.Went txs result row')
    (once : 0 < row.applyFailures → result.failedAt txs row.id ≠ none → result.absorbed row.id = []) :
    result.GivesUp txs row' ↔ ∃ e, (result.failedAt txs row.id :: outcomes).take (max m 1) = List.replicate (max m 1) (some e) := by
  rw [RoundResult.GivesUp, went.id]
  cases failed : result.failedAt txs row.id with
  | none =>
      constructor
      · rintro ⟨_, some⟩
        cases some
      · rintro ⟨e, same⟩
        have one : max m 1 = (max m 1 - 1) + 1 := by omega
        rw [one, List.take_succ_cons, List.replicate_succ] at same
        cases (List.cons.inj same).1
  | some e =>
      obtain ⟨_, status, _⟩ := counts.failing e failed
      obtain ⟨earlier, split, ended⟩ := streak.failing live counts ordered peeked safe went once failed
      rw [split, take_streak ended, status, limit]
      by_cases spent : max m 1 ≤ row.applyFailures + 1
      · rw [if_pos spent]
        exact ⟨fun _ => spent, fun _ => ⟨rfl, rfl⟩⟩
      · rw [if_neg spent]
        exact ⟨fun gone => Status.noConfusion gone.1, fun reached => absurd reached spent⟩

/-- What a round leaves of the streak of a view that stays live. -/
theorem ViewRow.Streak.round (streak : row.Streak ends m outcomes) (limit : settings.maxApplyFailures = m) (live : row.status = .live)
    (live' : row'.status = .live) (counts : row.Counts settings txs result row') (ordered : ends.Pairwise (· < ·))
    (peeked : txs.map SourceTransaction.endLsn = window ends confirmed cut) (safe : ∀ x ∈ ends, x ≤ confirmed → x ≤ row.frontier)
    (went : row.Went txs result row')
    (once : 0 < row.applyFailures → result.failedAt txs row.id ≠ none → result.absorbed row.id = []) :
    row'.Streak ends m (if ∃ tx ∈ txs, row.frontier < tx.endLsn then result.failedAt txs row.id :: outcomes else outcomes) := by
  cases failed : result.failedAt txs row.id with
  | some e =>
      obtain ⟨count, status, found⟩ := counts.failing e failed
      have next := counts.next ordered peeked safe went failed
      have offered : ∃ tx ∈ txs, row.frontier < tx.endLsn := by
        obtain ⟨tx, inTxs, rfl⟩ := List.mem_map.mp (List.mem_of_find?_eq_some found)
        exact ⟨tx, inTxs, went.onward.trans_lt next.past⟩
      obtain ⟨earlier, split, ended⟩ := streak.failing live counts ordered peeked safe went once failed
      rw [if_pos offered, split]
      refine ⟨⟨e, earlier, by rw [count], ended, fun _ => next⟩, ?_⟩
      rw [count]
      by_contra spent
      rw [limit, if_pos (not_lt.mp spent)] at status
      exact Status.noConfusion (status.symm.trans live')
  | none =>
      obtain ⟨count, reached⟩ := counts.quiet failed
      by_cases offered : ∃ tx ∈ txs, row.frontier < tx.endLsn
      · rw [if_pos offered]
        obtain ⟨tx, inTxs, ahead⟩ := offered
        have some : result.absorbed row.id ≠ [] := fun nothing =>
          absurd (went.still live nothing ▸ reached live' tx inTxs) (not_le.mpr ahead)
        rw [if_neg some] at count
        refine ⟨⟨0, none :: outcomes, by rw [count]; rfl, .inr rfl, fun again => ?_⟩, ?_⟩
        · omega
        · omega
      · rw [if_neg offered]
        have nothing : result.absorbed row.id = [] := by
          obtain ⟨n, _, absorbed, _⟩ := went.through live
          rw [absorbed, List.filter_eq_nil_iff]
          intro x member
          obtain ⟨tx, inTxs, rfl⟩ := List.mem_map.mp (List.mem_of_mem_take member)
          rw [decide_eq_true_eq]
          exact fun ahead => offered ⟨tx, inTxs, ahead⟩
        rw [if_pos nothing] at count
        obtain ⟨e, earlier, split, ended, pending⟩ := streak.counted
        refine ⟨⟨e, earlier, by rw [count, split], ended, fun again => ?_⟩, count ▸ streak.below⟩
        rw [went.still live nothing]
        exact pending (count ▸ again)

end Round

structure Durable.Streaks (ends : List Nat) (m : Nat) (a : Attempts) (confirmed : Nat) (d : Durable) : Prop where
  slot : d.slot = some confirmed
  ids : Keyed ViewRow.id d.catalog.views
  safe : ∀ row ∈ d.catalog.views, row.status = .live → ∀ x ∈ ends, x ≤ confirmed → x ≤ row.frontier
  views : ∀ row ∈ d.catalog.views, row.status = .live → row.Streak ends m (a row.id)

/-- Moving on to a position before the next transaction keeps the streak. -/
theorem ViewRow.Streak.moved {ends : List Nat} {m : Nat} {outcomes : List (Option Nat)} {row : ViewRow} (streak : row.Streak ends m outcomes)
    {frontier : Nat} (onward : row.frontier ≤ frontier) (before : ∀ e, 0 < row.applyFailures → Next ends row.frontier e → frontier < e) :
    ({ row with frontier := frontier } : ViewRow).Streak ends m outcomes := by
  obtain ⟨⟨e, earlier, split, ended, pending⟩, below⟩ := streak
  refine ⟨⟨e, earlier, split, ended, fun again => ?_⟩, below⟩
  have next := pending again
  exact ⟨next.member, before e again next, fun x member past => next.first x member (onward.trans_lt past)⟩

theorem Durable.idle_streaks {ends : List Nat} {m : Nat} {a : Attempts} {c : Catalog} {slot : Option Nat} {peek : Peek} {lastEnd : Nat} {d : Durable}
    (streaks : ∀ row ∈ c.views, row.status = .live → row.Streak ends m (a row.id))
    (before : peek.drained = true → ∀ row ∈ c.views, row.status = .live → ∀ e, Next ends row.frontier e → max peek.target lastEnd < e)
    (state : d ∈ Durable.idle ⟨c, slot⟩ peek lastEnd) : ∀ row ∈ d.catalog.views, row.status = .live → row.Streak ends m (a row.id) := by
  unfold Durable.idle at state
  by_cases drained : peek.drained = true
  · rw [if_pos drained] at state
    simp only [List.mem_cons, List.not_mem_nil, or_false] at state
    rcases state with rfl | rfl
    · exact streaks
    · intro row' member live
      obtain ⟨row, inViews, rfl⟩ := List.mem_map.mp member
      by_cases moves : (row.status = .live && decide (row.frontier < max peek.target lastEnd)) = true
      · rw [if_pos moves]
        obtain ⟨wasLive, low⟩ := Bool.and_eq_true_iff.mp moves
        rw [decide_eq_true_eq] at wasLive low
        exact (streaks row inViews wasLive).moved low.le fun e _ next => before drained row inViews wasLive e next
      · rw [if_neg moves] at live ⊢
        exact streaks row inViews live
  · rw [if_neg drained] at state
    exact absurd state List.not_mem_nil

/-- Behind its slot a view has absorbed everything: as a ledger of what it absorbed since. -/
theorem Durable.Streaks.exactlyOnce {ends : List Nat} {m confirmed : Nat} {a : Attempts} {d : Durable} (streaks : d.Streaks ends m a confirmed) :
    d.ExactlyOnce ends (fun id => ⟨((d.catalog.views.find? (·.id = id)).map ViewRow.frontier).getD 0, []⟩) confirmed where
  slot := streaks.slot
  ids := streaks.ids
  views := by
    intro row member live
    rw [streaks.ids.find_of_mem member, Option.map_some, Option.getD_some]
    exact ⟨le_refl _, (window_self _ _).symm, streaks.safe row member live⟩

theorem Catalog.offers_iff {c : Catalog} (ids : Keyed ViewRow.id c.views) {row : ViewRow} (member : row ∈ c.views) (live : row.status = .live)
    (txs : List SourceTransaction) : c.Offers txs row.id ↔ ∃ tx ∈ txs, row.frontier < tx.endLsn := by
  constructor
  · rintro ⟨other, inViews, same, _, offered⟩
    rwa [ids.eq_of_mem inViews member same] at offered
  · exact fun offered => ⟨row, member, rfl, live, offered⟩

/-- The streaks after a round that commits. -/
theorem Durable.Streaks.committed {ends : List Nat} {m confirmed cut : Nat} {a : Attempts} {c : Catalog} {cache : Nat → Option Relation}
    {txs : List SourceTransaction} {result : RoundResult} (streaks : Durable.Streaks ends m a confirmed ⟨c, some confirmed⟩)
    (limit : settings.maxApplyFailures = m) (ordered : ends.Pairwise (· < ·)) (sorted : txs.Pairwise fun t u => t.endLsn < u.endLsn)
    (peeked : txs.map SourceTransaction.endLsn = window ends confirmed cut) (applied : applyRound pf settings faults cache c txs = .ok result)
    (guarded : NoLaterFailure c txs result) :
    ∀ row' ∈ result.catalog.views, row'.status = .live → row'.Streak ends m (a.record c txs result row'.id) := by
  intro row' member live'
  obtain ⟨row, inViews, id, went, other, counts⟩ := applyRound_counts streaks.ids sorted applied row' member
  have live : row.status = .live := by
    by_contra status
    exact status ((other status).1 ▸ live')
  have next := (streaks.views row inViews live).round limit live live' (counts live) ordered peeked (streaks.safe row inViews live) went
    (guarded row inViews live)
  rw [id, Attempts.record]
  simp only [Catalog.offers_iff streaks.ids inViews live]
  exact next

/-- A live view after a round that no view holds back is past the whole peek. -/
theorem Durable.Streaks.whole {ends : List Nat} {m confirmed cut : Nat} {a : Attempts} {c : Catalog} {cache : Nat → Option Relation}
    {txs : List SourceTransaction} {result : RoundResult} (streaks : Durable.Streaks ends m a confirmed ⟨c, some confirmed⟩)
    (ordered : ends.Pairwise (· < ·)) (sorted : txs.Pairwise fun t u => t.endLsn < u.endLsn)
    (peeked : txs.map SourceTransaction.endLsn = window ends confirmed cut) (applied : applyRound pf settings faults cache c txs = .ok result)
    (free : result.blockedAt = none) {row' : ViewRow} (member : row' ∈ result.catalog.views) (live : row'.status = .live) :
    ∀ x ∈ window ends confirmed cut, x ≤ row'.frontier := by
  obtain ⟨row, inViews, delivered⟩ := (applyRound_delivered streaks.ids sorted applied).2 row' member live
  obtain ⟨_, n, within, stopped⟩ := delivered.exactlyOnce ordered peeked (streaks.exactlyOnce.views row inViews delivered.live)
  rcases stopped with rfl | ⟨k, blocked, _⟩
  · rwa [List.take_length] at within
  · exact absurd (blocked.symm.trans free) (Option.some_ne_none k)

theorem Durable.Streaks.round {stream : List SourceTransaction} {m confirmed : Nat} {a : Attempts} {d d' : Durable}
    {cache : Nat → Option Relation} {peek : Peek} (ordered : stream.Pairwise fun t u => t.endLsn < u.endLsn)
    (streaks : d.Streaks (stream.map SourceTransaction.endLsn) m a confirmed) (limit : settings.maxApplyFailures = m)
    (lag : peek.lag ≤ settings.maxSlotLagBytes) (reads : peek.Reads stream confirmed)
    (guarded : ∀ result, applyRound pf settings faults cache d.catalog peek.transactions = .ok result →
      NoLaterFailure d.catalog peek.transactions result)
    (state : d' ∈ runRound pf settings faults cache peek d) :
    ∃ moved, d'.Streaks (stream.map SourceTransaction.endLsn) m (a.through pf settings faults cache d.catalog peek.transactions) moved := by
  obtain ⟨moved, once⟩ := streaks.exactlyOnce.round ordered lag reads state
  refine ⟨moved, once.slot, once.ids, fun row member live => (once.views row member live).safe, ?_⟩
  obtain ⟨c, slot⟩ := d
  obtain rfl : slot = some confirmed := streaks.slot
  obtain ⟨cut, peeked, all⟩ := reads
  have increasing : (stream.map SourceTransaction.endLsn).Pairwise (· < ·) := List.pairwise_map.mpr ordered
  have sorted : peek.transactions.Pairwise fun t u => t.endLsn < u.endLsn := peeked ▸ ordered.filter _
  have ends : peek.transactions.map SourceTransaction.endLsn = window (stream.map SourceTransaction.endLsn) confirmed cut := by
    rw [peeked, ends_filter]
  -- nothing of the stream lies between a view past the peek and its cut
  have beyond : ∀ row : ViewRow, (∀ x ∈ stream.map SourceTransaction.endLsn, x ≤ confirmed → x ≤ row.frontier) →
      (∀ x ∈ window (stream.map SourceTransaction.endLsn) confirmed cut, x ≤ row.frontier) →
      ∀ e, Next (stream.map SourceTransaction.endLsn) row.frontier e → confirmed < e ∧ cut < e := by
    intro row safe past e next
    have above : confirmed < e := by
      by_contra low
      exact absurd (safe e next.member (not_lt.mp low)) (not_le.mpr next.past)
    refine ⟨above, ?_⟩
    by_contra within
    exact absurd (past e (mem_window.mpr ⟨next.member, above, not_lt.mp within⟩)) (not_le.mpr next.past)
  rcases mem_runRound lag state with ⟨empty, state⟩ | ⟨last, result, final, applied, states⟩
  · rw [Attempts.through, if_pos empty]
    refine Durable.idle_streaks streaks.views (fun drained row inViews live e next => ?_) state
    obtain ⟨above, afterCut⟩ := beyond row (streaks.safe row inViews live) (by rw [← ends, empty]; exact fun _ none => absurd none List.not_mem_nil) e next
    exact max_lt ((all drained).trans_lt afterCut) above
  · have some : peek.transactions ≠ [] := fun empty => by rw [empty] at final; cases final
    have recorded : a.through pf settings faults cache c peek.transactions = a.record c peek.transactions result := by
      simp only [Attempts.through, if_neg some, applied]
    have committed := streaks.committed limit increasing sorted ends applied (guarded result applied)
    rw [recorded]
    cases states with
    | committed => exact committed
    | held _ _ => exact committed
    | advanced _ => exact committed
    | idle free state =>
        refine Durable.idle_streaks committed (fun drained row' inViews live e next => ?_) state
        obtain ⟨row, before, went⟩ := (applyRound_went streaks.ids sorted applied).2 row' inViews
        have wasLive : row.status = .live := by
          by_contra other
          exact other ((went.other other).1 ▸ live)
        obtain ⟨above, afterCut⟩ := beyond row' (fun x member low => (streaks.safe row before wasLive x member low).trans went.onward)
          (streaks.whole increasing sorted ends applied free inViews live) e next
        have lastIn : last.endLsn ≤ cut := (mem_window.mp (ends ▸ List.mem_map_of_mem (List.mem_of_getLast? final))).2.2
        exact max_lt ((all drained).trans_lt afterCut) (max_lt above (lastIn.trans_lt afterCut))

theorem Retries.invariant {stream : List SourceTransaction} {m : Nat} {d : Durable} {a : Attempts}
    (ordered : stream.Pairwise fun t u => t.endLsn < u.endLsn) (run : Retries NoLaterFailure pf m stream d a) :
    ∃ confirmed, d.Streaks (stream.map SourceTransaction.endLsn) m a confirmed := by
  induction run with
  | start ids none =>
      exact ⟨_, rfl, ids, fun row member live => absurd live (none row member), fun row member live => absurd live (none row member)⟩
  | others run ids views ih =>
      obtain ⟨confirmed, streaks⟩ := ih
      refine ⟨confirmed, streaks.slot, ids, ?_, ?_⟩
      · intro row' member live
        rcases views row' member live with ⟨row, inViews, wasLive, _, frontier, _⟩ | ⟨_, _, ahead⟩
        · exact frontier ▸ streaks.safe row inViews wasLive
        · exact fun x _ low => low.trans (ahead confirmed streaks.slot)
      · intro row' member live
        rcases views row' member live with ⟨row, inViews, wasLive, id, frontier, count, same⟩ | ⟨none, fresh, _⟩
        · obtain ⟨counted, below⟩ := streaks.views row inViews wasLive
          rw [same, ← id]
          rw [count, frontier] at counted
          exact ⟨counted, count ▸ below⟩
        · rw [fresh]
          exact ⟨⟨0, [], by rw [none]; rfl, .inl rfl, fun again => by omega⟩, by omega⟩
  | round run limit slot lag reads guarded state ih =>
      obtain ⟨confirmed, streaks⟩ := ih
      obtain rfl := Option.some.inj (streaks.slot.symm.trans slot)
      exact streaks.round ordered limit lag reads guarded state

/-- Over a run whose rounds never have a view fail later than where it had failed, the
counter of a live view is the number of the last rounds that failed, all at the transaction
it has to absorb next, and a round marks a view stale exactly when one and the same
transaction failed in `m` rounds in a row. -/
theorem Retries.gives_up_iff {stream : List SourceTransaction} {m confirmed : Nat} {d : Durable} {a : Attempts} {cache : Nat → Option Relation}
    {peek : Peek} {result : RoundResult} (run : Retries NoLaterFailure pf m stream d a)
    (ordered : stream.Pairwise fun t u => t.endLsn < u.endLsn) (limit : settings.maxApplyFailures = m) (slot : d.slot = some confirmed)
    (reads : peek.Reads stream confirmed) (applied : applyRound pf settings faults cache d.catalog peek.transactions = .ok result)
    (guarded : NoLaterFailure d.catalog peek.transactions result) {row row' : ViewRow} (member : row ∈ d.catalog.views)
    (live : row.status = .live) (member' : row' ∈ result.catalog.views) (id : row'.id = row.id) :
    row.Streak (stream.map SourceTransaction.endLsn) m (a row.id) ∧
      (∀ e, (a row.id).take (max m 1) ≠ List.replicate (max m 1) (some e)) ∧
      (result.GivesUp peek.transactions row' ↔
        ∃ e, (result.failedAt peek.transactions row.id :: a row.id).take (max m 1) = List.replicate (max m 1) (some e)) := by
  obtain ⟨confirmed', streaks⟩ := run.invariant ordered
  obtain rfl := Option.some.inj (streaks.slot.symm.trans slot)
  obtain ⟨cut, peeked, _⟩ := reads
  have increasing : (stream.map SourceTransaction.endLsn).Pairwise (· < ·) := List.pairwise_map.mpr ordered
  have sorted : peek.transactions.Pairwise fun t u => t.endLsn < u.endLsn := peeked ▸ ordered.filter _
  have ends : peek.transactions.map SourceTransaction.endLsn = window (stream.map SourceTransaction.endLsn) confirmed' cut := by
    rw [peeked, ends_filter]
  have streak := streaks.views row member live
  refine ⟨streak, fun e same => ?_, ?_⟩
  · obtain ⟨e₀, earlier, split, ended, _⟩ := streak.counted
    rw [split] at same
    exact absurd ((take_streak ended).mp ⟨e, same⟩) (not_le.mpr streak.below)
  · obtain ⟨row₁, inViews, id₁, went, _, counts⟩ := applyRound_counts streaks.ids sorted applied row' member'
    obtain rfl := streaks.ids.eq_of_mem inViews member (id₁.symm.trans id)
    exact streak.gives_up limit live (counts live) increasing ends (streaks.safe row₁ member live) went (guarded row₁ member live)

def shopCustomer (key : String) (endLsn : Nat) : SourceTransaction :=
  ⟨endLsn, endLsn - 1, endLsn, [.insert 2 (encodeRow .basic (shopRelation 2) (shopRow (.text key) .null .null))]⟩

def shopStream : List SourceTransaction := [shopCustomer "c" 10, shopCustomer "d" 20]

def shopPeeked : Peek := ⟨0, 22, shopStream, true, false⟩

/-- The rows of the transaction that ends at `e` cannot be planned. -/
def lockedAt (e : Nat) : Faults := { Faults.none with plan := fun _ endLsn _ _ => if endLsn = e then some "lock timeout" else none }

def shopTwice : Settings := { shopSettings with maxApplyFailures := 2 }

theorem shopStream_ordered : shopStream.Pairwise fun t u => t.endLsn < u.endLsn := by decide

theorem shopPeeked_reads : shopPeeked.Reads shopStream 0 := ⟨22, rfl, fun _ => le_refl 22⟩

theorem shop_failedOnce {guard : Catalog → List SourceTransaction → RoundResult → Prop} {result : RoundResult}
    (applied : applyRound .basic shopTwice (lockedAt 10) (some ∘ shopRelation) shopCatalog shopStream = .ok result)
    (guarded : guard shopCatalog shopStream result) (blocked : result.blockedAt = some 0) (failed : result.failedAt shopStream 7 = some 10) :
    ∃ a : Attempts, Retries guard .basic 2 shopStream ⟨result.catalog, some 0⟩ a ∧ a 7 = [some 10] := by
  have empty : Retries guard .basic 2 shopStream ⟨{ shopCatalog with views := [] }, some 0⟩ fun _ => [] :=
    .start (Keyed.nil _) fun row member => absurd member List.not_mem_nil
  have populated : Retries guard .basic 2 shopStream ⟨shopCatalog, some 0⟩ fun _ => [] := by
    refine .others empty (show [7].Nodup by decide) fun row member _ => Or.inr ?_
    obtain rfl := List.mem_singleton.mp member
    exact ⟨rfl, rfl, fun _ _ => Nat.le_of_eq (Option.some.inj ‹some 0 = some _›).symm⟩
  have state : (⟨result.catalog, some 0⟩ : Durable) ∈ runRound .basic shopTwice (lockedAt 10) (some ∘ shopRelation) shopPeeked
      ⟨shopCatalog, some 0⟩ := by
    have stays : ¬ shopTwice.maxSlotLagBytes < shopPeeked.lag := by decide
    simp only [runRound, if_neg stays, show shopPeeked.quiet = false from rfl, Bool.false_eq_true, if_false,
      show shopPeeked.transactions = shopStream from rfl, show shopStream.getLast? = some (shopCustomer "d" 20) from rfl, applied, blocked]
    exact List.mem_singleton_self _
  refine ⟨_, .round populated rfl rfl (by decide) shopPeeked_reads (fun other same => ?_) state, ?_⟩
  · obtain rfl := Except.ok.inj (applied.symm.trans same)
    exact guarded
  · have offered : shopCatalog.Offers shopStream 7 :=
      ⟨shopView 0 [], List.mem_singleton_self _, rfl, rfl, shopCustomer "c" 10, List.mem_cons_self, show (0 : Nat) < 10 by decide⟩
    rw [Attempts.through, if_neg (show shopPeeked.transactions ≠ [] from List.cons_ne_nil _ _)]
    simp only [show shopPeeked.transactions = shopStream from rfl, applied, Attempts.record, if_pos offered, failed]

/-- The view fails at the first transaction, and then at that one again or, past it, at the
second. -/
theorem shop_rounds : ∃ first, applyRound .basic shopTwice (lockedAt 10) (some ∘ shopRelation) shopCatalog shopStream = .ok first ∧
    first.blockedAt = some 0 ∧ first.failedAt shopStream 7 = some 10 ∧ (∃ row, first.catalog.views = [row] ∧ row.id = 7 ∧ row.status = .live) ∧
    (∃ again, applyRound .basic shopTwice (lockedAt 10) (some ∘ shopRelation) first.catalog shopStream = .ok again ∧
      again.failedAt shopStream 7 = some 10 ∧ again.absorbed 7 = [] ∧ ∃ row, again.catalog.views = [row] ∧ row.id = 7) ∧
    ∃ later, applyRound .basic shopTwice (lockedAt 20) (some ∘ shopRelation) first.catalog shopStream = .ok later ∧
      later.failedAt shopStream 7 = some 20 ∧ ∃ row, later.catalog.views = [row] ∧ row.id = 7 ∧ row.status = .stale :=
  ⟨_, rfl, rfl, rfl, ⟨_, rfl, rfl, rfl⟩, ⟨_, rfl, rfl, rfl, _, rfl, rfl⟩, _, rfl, rfl, _, rfl, rfl, rfl⟩

/-- Failing twice at the first transaction marks the view stale. -/
theorem shop_gives_up : ∃ (d : Durable) (a : Attempts) (result : RoundResult) (row' : ViewRow), Retries NoLaterFailure .basic 2 shopStream d a ∧
    applyRound .basic shopTwice (lockedAt 10) (some ∘ shopRelation) d.catalog shopStream = .ok result ∧ row' ∈ result.catalog.views ∧
    a 7 = [some 10] ∧ result.failedAt shopStream 7 = some 10 ∧ result.GivesUp shopStream row' := by
  obtain ⟨first, applied, blocked, failed, ⟨row, views, id, live⟩, ⟨again, applied', failed', nothing, row', views', id'⟩, _⟩ := shop_rounds
  have fresh : NoLaterFailure shopCatalog shopStream first := by
    intro row member _ counted
    obtain rfl := List.mem_singleton.mp member
    exact absurd counted (Nat.lt_irrefl 0)
  obtain ⟨a, run, journal⟩ := shop_failedOnce applied fresh blocked failed
  have member : row ∈ first.catalog.views := views ▸ List.mem_singleton_self row
  have member' : row' ∈ again.catalog.views := views' ▸ List.mem_singleton_self row'
  have guarded : NoLaterFailure first.catalog shopStream again := by
    intro other inViews _ _ _
    rw [views] at inViews
    obtain rfl := List.mem_singleton.mp inViews
    rw [id]
    exact nothing
  have limit := run.gives_up_iff shopStream_ordered (show shopTwice.maxApplyFailures = 2 from rfl) rfl shopPeeked_reads applied' guarded
    member live member' (id'.trans id.symm)
  refine ⟨_, a, again, row', run, applied', member', journal, failed', limit.2.2.mpr ⟨10, ?_⟩⟩
  rw [id, show shopPeeked.transactions = shopStream from rfl, failed', journal]
  rfl

/-- Two transactions that fail once each mark the view stale, too: the failure of the first
is counted for the second, though the view has absorbed the first. -/
theorem shop_counts_across : ¬ ∀ {pf : Platform} {settings : Settings} {faults : Faults} {stream : List SourceTransaction} {m confirmed : Nat}
    {d : Durable} {a : Attempts} {cache : Nat → Option Relation} {peek : Peek} {result : RoundResult},
    stream.Pairwise (fun t u => t.endLsn < u.endLsn) → Retries (fun _ _ _ => True) pf m stream d a → settings.maxApplyFailures = m →
    d.slot = some confirmed → peek.Reads stream confirmed → applyRound pf settings faults cache d.catalog peek.transactions = .ok result →
    ∀ row ∈ d.catalog.views, row.status = .live → ∀ row' ∈ result.catalog.views, row'.id = row.id →
      (result.GivesUp peek.transactions row' ↔
        ∃ e, (result.failedAt peek.transactions row.id :: a row.id).take (max m 1) = List.replicate (max m 1) (some e)) := by
  intro claim
  obtain ⟨first, applied, blocked, failed, ⟨row, views, id, live⟩, _, later, applied', failed', row', views', id', stale⟩ := shop_rounds
  obtain ⟨a, run, journal⟩ := @shop_failedOnce (fun _ _ _ => True) first applied trivial blocked failed
  have member : row ∈ first.catalog.views := views ▸ List.mem_singleton_self row
  have member' : row' ∈ later.catalog.views := views' ▸ List.mem_singleton_self row'
  have limit := claim shopStream_ordered run rfl rfl shopPeeked_reads applied' row member live row' member' (id'.trans id.symm)
  have givesUp : later.GivesUp shopPeeked.transactions row' := by
    rw [RoundResult.GivesUp, id']
    exact ⟨stale, by rw [show shopPeeked.transactions = shopStream from rfl, failed']; rfl⟩
  obtain ⟨e, same⟩ := limit.mp givesUp
  rw [id, show shopPeeked.transactions = shopStream from rfl, failed', journal] at same
  obtain ⟨first, rest⟩ := List.cons.inj (show [some 20, some 10] = [some e, some e] from same)
  obtain ⟨second, _⟩ := List.cons.inj rest
  exact absurd (first.trans second.symm) (by decide)

end Nabla
