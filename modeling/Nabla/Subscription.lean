import Mathlib.Data.List.SplitBy
import Mathlib.Data.List.Induction
import Nabla.Client

/-! A subscription against a server whose log grows: the transactions a client hands out
are those of the log, each once, whole and in order. -/
namespace Nabla.Client

def ChangeRow.together (a b : ChangeRow) : Bool := a.xid = b.xid && a.lsn = b.lsn

theorem together_iff {a b : ChangeRow} : a.together b = true ↔ a.xid = b.xid ∧ a.lsn = b.lsn := by
  rw [ChangeRow.together, Bool.and_eq_true, decide_eq_true_eq, decide_eq_true_eq]

/-- A place between two source transactions. -/
def Cut (before later : List ChangeRow) : Prop := ∀ a ∈ before.getLast?, ∀ b ∈ later.head?, a.together b = false

theorem Cut.nil_left (later : List ChangeRow) : Cut [] later := fun _ member => absurd member (Option.not_mem_none _)

theorem Cut.nil_right (before : List ChangeRow) : Cut before [] := fun _ _ _ member => absurd member (Option.not_mem_none _)

/-- What is appended later does not move a cut. -/
theorem Cut.grow {before later new : List ChangeRow} (cut : Cut before later) (whole : Cut (before ++ later) new) :
    Cut before (later ++ new) := by
  cases later with
  | nil => rwa [List.append_nil] at whole
  | cons r later => exact cut

theorem Cut.split {before later : List ChangeRow} (cut : Cut before later) :
    (before ++ later).splitBy ChangeRow.together = before.splitBy ChangeRow.together ++ later.splitBy ChangeRow.together :=
  List.splitBy_append cut

theorem chain_head {g : List ChangeRow} (chain : g.IsChain fun a b => a.together b = true) {first last : ChangeRow}
    (head : g.head? = some first) (end_ : g.getLast? = some last) : first.xid = last.xid ∧ first.lsn = last.lsn := by
  induction g generalizing first with
  | nil => cases head
  | cons a g ih =>
      obtain rfl := Option.some.inj head
      cases g with
      | nil =>
          obtain rfl := Option.some.inj end_
          exact ⟨rfl, rfl⟩
      | cons b g =>
          rw [List.isChain_cons_cons] at chain
          rw [List.getLast?_cons_cons] at end_
          obtain ⟨xid, lsn⟩ := together_iff.mp chain.1
          obtain ⟨xid', lsn'⟩ := ih chain.2 rfl end_
          exact ⟨xid.trans xid', lsn.trans lsn'⟩

theorem foldl_appendRow (rows : List ChangeRow) : rows.foldl appendRow [] = rows.splitBy ChangeRow.together := by
  induction rows using List.reverseRecOn with
  | nil => rfl
  | append_singleton rows r ih =>
      rw [List.foldl_append, List.foldl_cons, List.foldl_nil, ih]
      unfold appendRow
      cases last : (rows.splitBy ChangeRow.together).getLast? with
      | none =>
          rw [List.getLast?_eq_none_iff] at last
          obtain rfl := List.splitBy_eq_nil.mp last
          rfl
      | some g =>
          have split : (rows.splitBy ChangeRow.together).dropLast ++ [g] = rows.splitBy ChangeRow.together :=
            List.dropLast_append_getLast? g last
          obtain ⟨flat, nonempty, chains, apart⟩ := List.splitBy_eq_iff.mp (Eq.refl (rows.splitBy ChangeRow.together))
          generalize (rows.splitBy ChangeRow.together).dropLast = earlier at split
          rw [← split] at flat nonempty chains apart ⊢
          rw [List.flatten_append, List.flatten_singleton] at flat
          have some : g ≠ [] := fun none => nonempty (none ▸ List.mem_append_right _ List.mem_cons_self)
          obtain ⟨first, head⟩ := Option.isSome_iff_exists.mp (List.isSome_head?.mpr some)
          obtain ⟨end_, final⟩ := Option.isSome_iff_exists.mp (List.getLast?_isSome.mpr some)
          have chain := chains g (List.mem_append_right _ List.mem_cons_self)
          obtain ⟨xid, lsn⟩ := chain_head chain head final
          have same : (g.head?.any fun first => first.xid = r.xid && first.lsn = r.lsn) = end_.together r := by
            rw [head, Option.any_some, xid, lsn]
            rfl
          dsimp only
          rw [same]
          cases continues : end_.together r with
          | true =>
              rw [if_pos rfl]
              refine (List.splitBy_eq_iff.mpr ⟨?_, ?_, ?_, ?_⟩).symm
              · rw [List.flatten_append, List.flatten_singleton, ← List.append_assoc, ← flat]
              · intro member
                rcases List.mem_append.mp member with inside | inside
                · exact nonempty (List.mem_append_left _ inside)
                · exact absurd (List.mem_singleton.mp inside).symm (List.append_ne_nil_of_left_ne_nil some _)
              · intro m member
                rcases List.mem_append.mp member with inside | inside
                · exact chains m (List.mem_append_left _ inside)
                · rw [List.mem_singleton.mp inside, List.isChain_append]
                  refine ⟨chain, List.isChain_singleton _, fun a left b right => ?_⟩
                  obtain rfl := Option.some.inj (final.symm.trans left)
                  obtain rfl := Option.some.inj right
                  exact continues
              · rw [List.isChain_append] at apart ⊢
                refine ⟨apart.1, List.isChain_singleton _, fun a left b right => ?_⟩
                obtain rfl := Option.some.inj right
                obtain ⟨ha, hb, differ⟩ := apart.2.2 a left g rfl
                exact ⟨ha, List.append_ne_nil_of_left_ne_nil some _, by rw [List.head_append_of_ne_nil]; exact differ⟩
          | false =>
              rw [if_neg Bool.false_ne_true, List.splitBy_append, ← split]
              · rfl
              · intro a left b right
                obtain rfl := Option.some.inj right
                rw [flat, List.getLast?_append, final, Option.some_or] at left
                obtain rfl := Option.some.inj left
                exact continues

structure Entry where
  lsn : String
  xid : Option Int
  op : Op
  row : Json

def numberRows (seq : Int) : List Entry → List ChangeRow
  | [] => []
  | e :: entries => ⟨seq + 1, e.lsn, e.xid, e.op, e.row⟩ :: numberRows (seq + 1) entries

theorem numberRows_append (seq : Int) (xs ys : List Entry) :
    numberRows seq (xs ++ ys) = numberRows seq xs ++ numberRows (seq + xs.length) ys := by
  induction xs generalizing seq with
  | nil =>
      rw [List.nil_append, List.length_nil, Int.natCast_zero, Int.add_zero]
      rfl
  | cons e xs ih =>
      rw [List.cons_append, numberRows, numberRows, ih, List.cons_append, List.length_cons]
      congr 3
      omega

theorem length_numberRows (seq : Int) (entries : List Entry) : (numberRows seq entries).length = entries.length := by
  induction entries generalizing seq with
  | nil => rfl
  | cons e entries ih => rw [numberRows, List.length_cons, List.length_cons, ih]

/-- Every delta the server wrote for one epoch of the view, numbered on from `first`. -/
structure Log where
  first : Int
  entries : List Entry

def Log.rows (log : Log) : List ChangeRow := numberRows log.first log.entries

/-- The view's `last_seq`. -/
def Log.last (log : Log) : Int := log.first + log.entries.length

/-- The rows with a sequence number past `p`, up to `q`. -/
def Log.between (log : Log) (p q : Int) : List ChangeRow := log.rows.filter fun r => decide (p < r.seq) && decide (r.seq ≤ q)

/-- `p` is the last sequence number of a source transaction, or stands before them all. -/
def Log.Boundary (log : Log) (p : Int) : Prop :=
  ∃ before later, log.rows = before ++ later ∧ p = log.first + before.length ∧ Cut before later

/-- The log with the deltas of further source transactions. -/
def Log.append (log : Log) (new : List Entry) : Log := ⟨log.first, log.entries ++ new⟩

structure Server where
  epoch : Int
  log : Int → Log

/-- What the server does between two calls of the client. -/
inductive Server.Step : Server → Server → Prop where
  /-- It logs whole source transactions. -/
  | grow (s : Server) (new : List Entry) : Cut (s.log s.epoch).rows (numberRows (s.log s.epoch).last new) →
      Step s { s with log := Function.update s.log s.epoch ((s.log s.epoch).append new) }
  /-- It rebuilds the view, under the next epoch. -/
  | rebuild (s : Server) (first : Int) : Step s ⟨s.epoch + 1, Function.update s.log (s.epoch + 1) ⟨first, []⟩⟩

def opText : Op → String
  | .insert => "I"
  | .delete => "D"

def ChangeRow.sent (r : ChangeRow) : ServerRow := ⟨r.seq, r.lsn, r.xid, opText r.op, r.row⟩

/-- The contract of `changes`: from one boundary to another, and short of `maxRows` rows
only when it reaches the end. -/
def Log.Answers (log : Log) (after maxRows : Int) (rows : List ServerRow) : Prop :=
  log.Boundary after → ∃ upTo, log.Boundary upTo ∧ after ≤ upTo ∧ rows = (log.between after upTo).map ChangeRow.sent ∧
    ((rows.length : Int) < maxRows → upTo = log.last)

/-- The server's answers to one iteration of the client. -/
structure Response.Obeys (server : Server) (sub : Subscription) (response : Response) : Prop where
  bootstrap : ∀ snapshot, response.bootstrap = .ok (.ready snapshot) →
    snapshot.epoch = server.epoch ∧ snapshot.cursor = (server.log server.epoch).last
  changes : ∀ rows, response.changes = .ok rows →
    sub.epoch = server.epoch ∧ (server.log server.epoch).Answers sub.after sub.batch rows

/-- A subscription from its opening on, iteration by iteration, with the events handed
out; `busy` inside a call of `next`. -/
inductive Session (batch : Int) : Bool → Subscription → Server → List Event → Prop where
  | opened (server : Server) : Session batch false (.opened batch) server []
  | server {busy : Bool} {sub : Subscription} {server server' : Server} {out : List Event} :
      Session batch busy sub server out → Server.Step server server' → Session batch busy sub server' out
  | step {busy : Bool} {sub sub' : Subscription} {server : Server} {out : List Event}
      {result : Option (Except Error Event)} (response : Response) : Session batch busy sub server out →
      response.Obeys server sub → sub.step response = (sub', result) →
      Session batch result.isNone sub' server (out ++ (result.bind Except.toOption).toList)

def Event.lastSeq : Event → Option Int
  | .snapshot _ _ cursor _ => some cursor
  | .transaction _ _ _ deltas => deltas.getLast?.map Delta.seq
  | .resync _ => none

def lastSeq (out : List Event) : Int := (out.reverse.findSome? Event.lastSeq).getD 0

def Event.isResync : Event → Bool
  | .resync _ => true
  | _ => false

theorem mem_numberRows {seq : Int} {entries : List Entry} {r : ChangeRow} (member : r ∈ numberRows seq entries) :
    seq < r.seq ∧ r.seq ≤ seq + entries.length := by
  induction entries generalizing seq with
  | nil => exact absurd member List.not_mem_nil
  | cons e entries ih =>
      rw [List.length_cons]
      rcases List.mem_cons.mp member with rfl | later
      · dsimp only
        omega
      · have bounds := ih later
        omega

theorem getLast_numberRows {seq : Int} {entries : List Entry} {r : ChangeRow}
    (last : (numberRows seq entries).getLast? = some r) : r.seq = seq + entries.length := by
  induction entries using List.reverseRecOn with
  | nil => cases last
  | append_singleton entries e _ =>
      rw [numberRows_append, numberRows, numberRows, List.getLast?_concat] at last
      obtain rfl := Option.some.inj last
      rw [List.length_append, List.length_singleton]
      dsimp only
      omega

theorem numberRows_split {seq : Int} {entries : List Entry} {before later : List ChangeRow}
    (split : numberRows seq entries = before ++ later) : ∃ xs ys, entries = xs ++ ys ∧ before = numberRows seq xs ∧
      later = numberRows (seq + before.length) ys := by
  have counts : entries.length = before.length + later.length := by
    rw [← length_numberRows seq entries, split, List.length_append]
  have parts := numberRows_append seq (entries.take before.length) (entries.drop before.length)
  rw [List.take_append_drop, split] at parts
  have size : (numberRows seq (entries.take before.length)).length = before.length := by
    rw [length_numberRows, List.length_take]
    omega
  obtain ⟨left, right⟩ := List.append_inj parts size.symm
  refine ⟨entries.take before.length, entries.drop before.length, (List.take_append_drop _ _).symm, left, ?_⟩
  rw [right, List.length_take]
  congr 2
  omega

theorem Log.between_split {log : Log} {before here later : List ChangeRow} (split : log.rows = before ++ (here ++ later)) :
    log.between (log.first + before.length) (log.first + before.length + here.length) = here := by
  obtain ⟨_, rest, _, left, right⟩ := numberRows_split split
  obtain ⟨_, _, _, middle, final⟩ := numberRows_split right.symm
  have low : ∀ r ∈ before, r.seq ≤ log.first + before.length := by
    intro r member
    have bounds := mem_numberRows (left ▸ member)
    rw [left, length_numberRows]
    exact bounds.2
  have within : ∀ r ∈ here, log.first + before.length < r.seq ∧ r.seq ≤ log.first + before.length + here.length := by
    intro r member
    have bounds := mem_numberRows (middle ▸ member)
    rw [middle, length_numberRows]
    exact bounds
  have high : ∀ r ∈ later, log.first + before.length + here.length < r.seq := by
    intro r member
    exact (mem_numberRows (final ▸ member)).1
  unfold Log.between
  rw [split, List.filter_append, List.filter_append, List.filter_eq_nil_iff.mpr, List.filter_eq_self.mpr,
    List.filter_eq_nil_iff.mpr, List.nil_append, List.append_nil]
  · intro r member
    have above := high r member
    simp only [Bool.and_eq_true, decide_eq_true_eq]
    omega
  · intro r member
    simp only [Bool.and_eq_true, decide_eq_true_eq]
    exact within r member
  · intro r member
    have below := low r member
    simp only [Bool.and_eq_true, decide_eq_true_eq]
    omega

/-- The source transactions of the log. -/
def Log.groups (log : Log) : List (List ChangeRow) := log.rows.splitBy ChangeRow.together

theorem Log.flatten_groups (log : Log) : log.groups.flatten = log.rows := List.flatten_splitBy _ _

theorem splitBy_part {rows : List ChangeRow} {before here later : List (List ChangeRow)}
    (split : rows.splitBy ChangeRow.together = before ++ (here ++ later)) : here.flatten.splitBy ChangeRow.together = here := by
  obtain ⟨_, nonempty, chains, apart⟩ := List.splitBy_eq_iff.mp split
  have inside : here ⊆ before ++ (here ++ later) := fun g member => List.mem_append_right _ (List.mem_append_left _ member)
  refine List.splitBy_flatten (fun none => nonempty (inside none)) (fun g member => chains g (inside member)) ?_
  rw [List.isChain_append, List.isChain_append] at apart
  exact apart.2.1.1

theorem Log.boundary_iff {log : Log} {p : Int} : log.Boundary p ↔
    ∃ before later, log.groups = before ++ later ∧ p = log.first + before.flatten.length := by
  constructor
  · rintro ⟨before, later, split, rfl, cut⟩
    refine ⟨before.splitBy ChangeRow.together, later.splitBy ChangeRow.together, ?_, ?_⟩
    · rw [Log.groups, split, cut.split]
    · rw [List.flatten_splitBy]
  · rintro ⟨before, later, split, rfl⟩
    refine ⟨before.flatten, later.flatten, ?_, rfl, ?_⟩
    · rw [← log.flatten_groups, split, List.flatten_append]
    · obtain ⟨_, nonempty, _, apart⟩ := List.splitBy_eq_iff.mp split
      rw [List.isChain_append] at apart
      intro a left b right
      rcases List.eq_nil_or_concat' before with rfl | ⟨bs, g, rfl⟩
      · cases left
      cases later with
      | nil => cases right
      | cons h hs =>
          have someG : g ≠ [] := fun none => nonempty (none ▸ List.mem_append_left _ (List.mem_append_right _ List.mem_cons_self))
          have someH : h ≠ [] := fun none => nonempty (none ▸ List.mem_append_right _ List.mem_cons_self)
          obtain ⟨_, _, differ⟩ := apart.2.2 g List.getLast?_concat h rfl
          rw [List.flatten_append, List.flatten_singleton, List.getLast?_append, List.getLast?_eq_some_getLast someG,
            Option.some_or] at left
          rw [List.flatten_cons, List.head?_append, List.head?_eq_some_head someH, Option.some_or] at right
          obtain rfl := Option.some.inj left
          obtain rfl := Option.some.inj right
          exact differ

theorem parseRows_sent (seq : Int) (entries : List Entry) :
    parseRows (seq + 1) ((numberRows seq entries).map ChangeRow.sent) = .ok (numberRows seq entries) := by
  induction entries generalizing seq with
  | nil => rfl
  | cons e entries ih =>
      have op : parseOp (opText e.op) = some e.op := by cases e.op <;> rfl
      rw [numberRows, List.map_cons, parseRows]
      simp only [ChangeRow.sent, ne_eq, not_true_eq_false, if_false, op, ih, Except.map]

/-- The rows of an answer continue from `after`. -/
def Continues (after : Int) (rows : List ServerRow) : Prop := ∀ (i : Nat) r, rows[i]? = some r → r.seq = after + 1 + i

theorem parseRows_gap {after : Int} {rows : List ServerRow} (gap : ¬ Continues after rows) :
    ∃ message, parseRows (after + 1) rows = .error (.other (.protocol message)) := by
  induction rows generalizing after with
  | nil => exact absurd (fun i r found => absurd found (Option.some_ne_none r).symm) gap
  | cons r rows ih =>
      rw [parseRows]
      by_cases next : r.seq = after + 1
      · rw [if_neg (not_not.mpr next)]
        cases parseOp r.op with
        | none => exact ⟨_, rfl⟩
        | some op =>
            have later : ¬ Continues (after + 1) rows := by
              intro continues
              refine gap fun i q found => ?_
              cases i with
              | zero =>
                  obtain rfl := Option.some.inj found
                  rw [next, Int.natCast_zero, Int.add_zero]
              | succ i =>
                  have seq := continues i q found
                  omega
            obtain ⟨message, failed⟩ := ih later
            exact ⟨message, by rw [failed]; rfl⟩
      · rw [if_pos next]
        exact ⟨_, rfl⟩

def queue (epoch : Int) (groups : List (List ChangeRow)) : List (Event × Option Int) := groups.map (groupEvent epoch)

def events (epoch : Int) (groups : List (List ChangeRow)) : List Event := groups.map fun g => (groupEvent epoch g).1

def Closed (out : List Event) : Prop :=
  ∀ pre epoch frontier cursor rows later, out = pre ++ .snapshot epoch frontier cursor rows :: later →
    ∃ e ∈ later, e.isResync = true

/-- The events since the last snapshot are the transactions `handed` of the log, which
follow the transactions `before` that the snapshot stands for. -/
structure Tells (log : Log) (epoch : Int) (out : List Event) (before handed : List (List ChangeRow)) : Prop where
  told : ∃ pre frontier cursor rows, Closed pre ∧
    out = pre ++ .snapshot epoch frontier cursor rows :: events epoch handed ∧ cursor = log.first + before.flatten.length
  groups : ∃ later, log.groups = before ++ (handed ++ later)

/-- What has been handed out, and the cursor that goes with it. -/
def Told (server : Server) (out : List Event) (cursor : Int) : Prop :=
  Closed out ∨ ∃ epoch before handed, epoch ≤ server.epoch ∧ Tells (server.log epoch) epoch out before handed ∧
    cursor = (server.log epoch).first + (before ++ handed).flatten.length

/-- Where a subscription stands between two iterations. -/
inductive Stands (server : Server) (sub : Subscription) (out : List Event) : Prop where
  /-- It has to bootstrap, and says so first. -/
  | seeking : Told server out sub.cursor → sub.cursor = lastSeq out → sub.tail = [] →
      (∀ p ∈ sub.pending, p.1.isResync = true ∧ p.2 = none) → (sub.connected = true → sub.state = .needBootstrap) →
      (sub.connected = true → sub.pending = [] → Closed out) → Stands server sub out
  /-- It has a snapshot to hand out. -/
  | fresh (frontier : String) (rows : List Json) : sub.connected = true → sub.state = .following → sub.tail = [] →
      sub.pending = [(.snapshot sub.epoch frontier sub.cursor rows, some sub.cursor)] → Closed out → sub.epoch ≤ server.epoch →
      (server.log sub.epoch).Boundary sub.cursor → Stands server sub out
  /-- It follows the log: transactions handed out, queued, retained and to come. -/
  | following (before handed queued retained later : List (List ChangeRow)) : sub.connected = true → sub.state = .following →
      sub.epoch ≤ server.epoch → Tells (server.log sub.epoch) sub.epoch out before handed →
      (server.log sub.epoch).groups = before ++ (handed ++ (queued ++ (retained ++ later))) →
      sub.cursor = (server.log sub.epoch).first + (before ++ handed).flatten.length → sub.cursor = lastSeq out →
      sub.pending = queue sub.epoch queued → sub.tail = retained.flatten → Stands server sub out

theorem Server.Step.groups {server server' : Server} (step : Server.Step server server') (epoch : Int) (known : epoch ≤ server.epoch) :
    (server'.log epoch).first = (server.log epoch).first ∧
      ∃ new, (server'.log epoch).groups = (server.log epoch).groups ++ new := by
  cases step with
  | grow new cut =>
      by_cases here : epoch = server.epoch
      · subst here
        dsimp only
        rw [Function.update_self]
        refine ⟨rfl, (numberRows (server.log server.epoch).last new).splitBy ChangeRow.together, ?_⟩
        have rows : ((server.log server.epoch).append new).rows =
            (server.log server.epoch).rows ++ numberRows (server.log server.epoch).last new := numberRows_append _ _ _
        rw [Log.groups, rows, cut.split]
        rfl
      · dsimp only
        rw [Function.update_of_ne here]
        exact ⟨rfl, [], (List.append_nil _).symm⟩
  | rebuild first =>
      dsimp only
      rw [Function.update_of_ne (by omega)]
      exact ⟨rfl, [], (List.append_nil _).symm⟩

theorem Tells.grow {log log' : Log} {epoch : Int} {out : List Event} {before handed : List (List ChangeRow)}
    (tells : Tells log epoch out before handed) (first : log'.first = log.first) {new : List (List ChangeRow)}
    (groups : log'.groups = log.groups ++ new) : Tells log' epoch out before handed := by
  constructor
  · rw [first]
    exact tells.told
  · obtain ⟨later, split⟩ := tells.groups
    exact ⟨later ++ new, by rw [groups, split, List.append_assoc, List.append_assoc]⟩

theorem Server.Step.epoch {server server' : Server} (step : Server.Step server server') : server.epoch ≤ server'.epoch := by
  cases step with
  | grow new cut => exact Int.le_refl _
  | rebuild first => exact Int.le_add_one (Int.le_refl _)

theorem Told.server {server server' : Server} (step : Server.Step server server') {out : List Event} {cursor : Int}
    (told : Told server out cursor) : Told server' out cursor := by
  rcases told with closed | ⟨epoch, before, handed, known, tells, position⟩
  · exact Or.inl closed
  · obtain ⟨first, new, groups⟩ := step.groups epoch known
    exact Or.inr ⟨epoch, before, handed, Int.le_trans known step.epoch, tells.grow first groups, by rw [first]; exact position⟩

theorem Stands.server {server server' : Server} (step : Server.Step server server') {sub : Subscription} {out : List Event}
    (stands : Stands server sub out) : Stands server' sub out := by
  cases stands with
  | seeking told last tail pending state closed => exact .seeking (told.server step) last tail pending state closed
  | fresh frontier rows connected state tail pending closed known boundary =>
      obtain ⟨first, new, groups⟩ := step.groups sub.epoch known
      refine .fresh frontier rows connected state tail pending closed (Int.le_trans known step.epoch) ?_
      obtain ⟨before, later, split, position⟩ := Log.boundary_iff.mp boundary
      exact Log.boundary_iff.mpr ⟨before, later ++ new, by rw [groups, split, List.append_assoc], by rw [first]; exact position⟩
  | following before handed queued retained later connected state known tells split position last pending tail =>
      obtain ⟨first, new, groups⟩ := step.groups sub.epoch known
      refine .following before handed queued retained (later ++ new) connected state (Int.le_trans known step.epoch)
        (tells.grow first groups) ?_ (by rw [first]; exact position) last pending tail
      rw [groups, split]
      simp only [List.append_assoc]

theorem lastSeq_append (out : List Event) (e : Event) : lastSeq (out ++ [e]) = e.lastSeq.getD (lastSeq out) := by
  unfold lastSeq
  rw [List.reverse_append, List.reverse_singleton, List.singleton_append, List.findSome?_cons]
  cases e.lastSeq <;> rfl

theorem Closed.resync {out : List Event} {e : Event} (resync : e.isResync = true) : Closed (out ++ [e]) := by
  intro pre epoch frontier cursor rows later split
  rcases List.eq_nil_or_concat' later with rfl | ⟨l, last, rfl⟩
  · obtain ⟨_, eq⟩ := List.append_inj' split rfl
    rw [List.singleton_inj.mp eq] at resync
    cases resync
  · rw [← List.cons_append, ← List.append_assoc] at split
    obtain ⟨_, eq⟩ := List.append_inj' split rfl
    obtain rfl := List.singleton_inj.mp eq
    exact ⟨e, List.mem_append_right _ List.mem_cons_self, resync⟩

/-- A closed history, and a snapshot after it. -/
theorem Log.Boundary.tells {log : Log} {epoch cursor : Int} (boundary : log.Boundary cursor) {out : List Event}
    (closed : Closed out) (frontier : String) (rows : List Json) :
    ∃ before later, log.groups = before ++ later ∧ cursor = log.first + before.flatten.length ∧
      Tells log epoch (out ++ [.snapshot epoch frontier cursor rows]) before [] := by
  obtain ⟨before, later, split, position⟩ := Log.boundary_iff.mp boundary
  exact ⟨before, later, split, position, ⟨out, frontier, cursor, rows, closed, rfl, position⟩, later, split⟩

theorem Tells.hand {log : Log} {epoch : Int} {out : List Event} {before handed later : List (List ChangeRow)}
    {g : List ChangeRow} (tells : Tells log epoch out before handed) (split : log.groups = before ++ (handed ++ g :: later)) :
    Tells log epoch (out ++ [(groupEvent epoch g).1]) before (handed ++ [g]) := by
  constructor
  · obtain ⟨pre, frontier, cursor, rows, closed, rfl, position⟩ := tells.told
    refine ⟨pre, frontier, cursor, rows, closed, ?_, position⟩
    rw [events, events, List.map_append, List.append_assoc, List.cons_append]
    rfl
  · exact ⟨later, by rw [split, List.append_assoc, List.singleton_append]⟩

theorem Log.section_last {log : Log} {before here later : List ChangeRow} (split : log.rows = before ++ (here ++ later))
    {r : ChangeRow} (last : here.getLast? = some r) : r.seq = log.first + before.length + here.length := by
  obtain ⟨_, _, _, _, right⟩ := numberRows_split split
  obtain ⟨xs, _, _, middle, _⟩ := numberRows_split right.symm
  have size : here.length = xs.length := by
    conv_lhs => rw [middle]
    exact length_numberRows _ _
  rw [size]
  exact getLast_numberRows (middle ▸ last)

theorem Log.rows_split {log : Log} {before here later : List (List ChangeRow)} (split : log.groups = before ++ (here ++ later)) :
    log.rows = before.flatten ++ (here.flatten ++ later.flatten) := by
  rw [← log.flatten_groups, split, List.flatten_append, List.flatten_append]

theorem Log.group_last {log : Log} {before later : List (List ChangeRow)} {g : List ChangeRow}
    (split : log.groups = before ++ g :: later) :
    g.getLast?.map ChangeRow.seq = some (log.first + (before ++ [g]).flatten.length) := by
  have some : g ≠ [] := List.ne_nil_of_mem_splitBy (split ▸ List.mem_append_right _ List.mem_cons_self : g ∈ log.groups)
  obtain ⟨r, last⟩ := Option.isSome_iff_exists.mp (List.getLast?_isSome.mpr some)
  have rows := @Log.rows_split log before [g] later split
  rw [List.flatten_singleton] at rows
  rw [last, Option.map_some, log.section_last rows last, List.flatten_append, List.flatten_singleton, List.length_append]
  congr 1
  omega

theorem groupEvent_lastSeq (epoch : Int) (g : List ChangeRow) :
    (groupEvent epoch g).1.lastSeq = g.getLast?.map ChangeRow.seq := by
  simp only [groupEvent, Event.lastSeq, List.getLast?_map, Option.map_map]
  rfl

theorem Stands.hand {server : Server} {sub : Subscription} {out : List Event} (stands : Stands server sub out)
    {event : Event} {cursor : Option Int} {rest : List (Event × Option Int)} (pending : sub.pending = (event, cursor) :: rest) :
    Stands server { sub with pending := rest, cursor := cursor.getD sub.cursor } (out ++ [event]) ∧
      cursor.getD sub.cursor = lastSeq (out ++ [event]) := by
  cases stands with
  | seeking told last tail resyncs state closed =>
      obtain ⟨resync, none⟩ := resyncs (event, cursor) (pending ▸ List.mem_cons_self)
      dsimp only at none resync
      subst none
      have silent : event.lastSeq = none := by
        cases event with
        | resync reason => rfl
        | snapshot => cases resync
        | transaction => cases resync
      have seq : sub.cursor = lastSeq (out ++ [event]) := by rw [lastSeq_append, silent, last]; rfl
      refine ⟨.seeking (Or.inl (Closed.resync resync)) seq tail (fun p member => ?_) state fun _ _ => Closed.resync resync, seq⟩
      exact resyncs p (pending ▸ List.mem_cons_of_mem _ member)
  | fresh frontier rows connected state tail queued closed known boundary =>
      rw [queued, List.cons.injEq, Prod.mk.injEq] at pending
      obtain ⟨⟨rfl, rfl⟩, rfl⟩ := pending
      obtain ⟨before, later, split, position, tells⟩ := @Log.Boundary.tells _ sub.epoch _ boundary out closed frontier rows
      have seq : sub.cursor = lastSeq (out ++ [.snapshot sub.epoch frontier sub.cursor rows]) := by
        rw [lastSeq_append]
        rfl
      refine ⟨.following before [] [] [] later connected state known tells split ?_ seq rfl tail, seq⟩
      rw [List.append_nil]
      exact position
  | following before handed queued retained later connected state known tells split position last queue_ tail =>
      cases queued with
      | nil => cases queue_.symm.trans pending
      | cons g queued =>
          rw [queue_, queue, List.map_cons, List.cons.injEq] at pending
          obtain ⟨front, rfl⟩ := pending
          obtain rfl : (groupEvent sub.epoch g).1 = event := congrArg Prod.fst front
          obtain rfl : (groupEvent sub.epoch g).2 = cursor := congrArg Prod.snd front
          have split' : (server.log sub.epoch).groups = (before ++ handed) ++ g :: (queued ++ (retained ++ later)) := by
            rw [split, List.append_assoc, List.cons_append]
          have end_ := Log.group_last split'
          have cursor : (groupEvent sub.epoch g).2 = some ((server.log sub.epoch).first + (before ++ (handed ++ [g])).flatten.length) := by
            rw [← List.append_assoc]
            exact end_
          have seq : (groupEvent sub.epoch g).2.getD sub.cursor = lastSeq (out ++ [(groupEvent sub.epoch g).1]) := by
            rw [lastSeq_append, groupEvent_lastSeq, cursor, end_, List.append_assoc]
            rfl
          refine ⟨.following before (handed ++ [g]) queued retained later connected state known
            (tells.hand (by rw [split, List.cons_append])) ?_ ?_ seq rfl tail, seq⟩
          · rw [split, List.append_assoc, List.singleton_append, List.cons_append]
          · rw [cursor]
            rfl

theorem Log.last_boundary (log : Log) : log.Boundary log.last := by
  refine ⟨log.rows, [], (List.append_nil _).symm, ?_, Cut.nil_right _⟩
  rw [Log.rows, length_numberRows]
  rfl

/-- A subscription loses its place: it says so, or notices the lost connection next. -/
theorem Stands.lose {server : Server} {sub : Subscription} {out : List Event} (stands : Stands server sub out)
    (pending : sub.pending = []) : Told server out sub.cursor ∧ sub.cursor = lastSeq out := by
  cases stands with
  | seeking told last => exact ⟨told, last⟩
  | fresh frontier rows connected state tail queued =>
      rw [pending] at queued
      cases queued
  | following before handed queued retained later connected state known tells split position last =>
      exact ⟨Or.inr ⟨sub.epoch, before, handed, known, tells, position⟩, last⟩

theorem Stands.reconnect {server : Server} {sub : Subscription} {out : List Event} (stands : Stands server sub out)
    (pending : sub.pending = []) : Stands server sub.reconnect out := by
  obtain ⟨told, last⟩ := stands.lose pending
  refine .seeking told last rfl ?_ (fun _ => rfl) fun _ none => ?_
  · intro p member
    rw [Subscription.reconnect, pending, List.nil_append, List.mem_singleton] at member
    rw [member]
    exact ⟨rfl, rfl⟩
  · rw [Subscription.reconnect, pending] at none
    cases none

theorem Stands.resync {server : Server} {sub : Subscription} {out : List Event} (stands : Stands server sub out)
    (pending : sub.pending = []) (reason : ResyncReason) : Stands server (sub.resync reason) out := by
  obtain ⟨told, last⟩ := stands.lose pending
  refine .seeking told last rfl ?_ (fun _ => rfl) fun _ none => ?_
  · intro p member
    rw [Subscription.resync, pending, List.nil_append, List.mem_singleton] at member
    rw [member]
    exact ⟨rfl, rfl⟩
  · rw [Subscription.resync, pending] at none
    cases none

theorem Stands.disconnect {server : Server} {sub : Subscription} {out : List Event} (stands : Stands server sub out)
    (pending : sub.pending = []) : Stands server { sub with tail := [], connected := false } out := by
  obtain ⟨told, last⟩ := stands.lose pending
  refine .seeking told last rfl ?_ (fun connected => absurd connected Bool.false_ne_true) fun connected =>
    absurd connected Bool.false_ne_true
  intro p member
  rw [pending] at member
  exact absurd member List.not_mem_nil

theorem Log.after_eq {log : Log} {sub : Subscription} {before retained later : List (List ChangeRow)}
    (split : log.groups = before ++ (retained ++ later)) (position : sub.cursor = log.first + before.flatten.length)
    (tail : sub.tail = retained.flatten) : sub.after = log.first + (before ++ retained).flatten.length := by
  have rows := Log.rows_split split
  rw [Subscription.after, tail, List.flatten_append, List.length_append]
  cases last : retained.flatten.getLast? with
  | none =>
      rw [List.getLast?_eq_none_iff.mp last, List.length_nil, Option.map_none, Option.getD_none, position]
      rfl
  | some r =>
      rw [Option.map_some, Option.getD_some, log.section_last rows last]
      omega

theorem Log.boundary_after {log : Log} {before later : List (List ChangeRow)} (split : log.groups = before ++ later) {upTo : Int}
    (boundary : log.Boundary upTo) (further : log.first + before.flatten.length ≤ upTo) :
    ∃ page rest, later = page ++ rest ∧ upTo = log.first + before.flatten.length + page.flatten.length := by
  obtain ⟨before', later', split', rfl⟩ := Log.boundary_iff.mp boundary
  rcases List.append_eq_append_iff.mp (split.symm.trans split') with ⟨page, rfl, rfl⟩ | ⟨extra, rfl, rfl⟩
  · refine ⟨page, later', rfl, ?_⟩
    rw [List.flatten_append, List.length_append]
    omega
  · refine ⟨[], later, rfl, ?_⟩
    rw [List.flatten_append, List.length_append] at further ⊢
    have none : extra.flatten.length = 0 := by omega
    rw [none, List.flatten_nil, List.length_nil]
    omega

theorem asI32_small {n : Nat} (small : n < 2 ^ 31) : asI32 n = n := by
  unfold asI32
  rw [Int.bmod_eq_of_le] <;> omega

theorem lastSeq_queue {log : Log} {epoch : Int} {before queued later : List (List ChangeRow)}
    (split : log.groups = before ++ (queued ++ later)) {out : List Event} (last : lastSeq out = log.first + before.flatten.length) :
    lastSeq (out ++ (queue epoch queued).map Prod.fst) = log.first + (before ++ queued).flatten.length := by
  induction queued using List.reverseRecOn generalizing later with
  | nil => rw [queue, List.map_nil, List.map_nil, List.append_nil, List.append_nil, last]
  | append_singleton queued g ih =>
      have split' : log.groups = (before ++ queued) ++ g :: later := by
        rw [split, List.append_assoc, List.append_assoc, List.singleton_append]
      rw [queue, List.map_append, List.map_append, ← List.append_assoc, List.map_singleton, List.map_singleton,
        lastSeq_append, groupEvent_lastSeq, Log.group_last split', List.append_assoc]
      rfl

theorem dropLast_last {α : Type} (l : List α) : l.dropLast ++ l.getLast?.toList = l := by
  cases last : l.getLast? with
  | none =>
      rw [List.getLast?_eq_none_iff.mp last]
      rfl
  | some a => exact List.dropLast_append_getLast? a last

/-- An answer of the server takes the subscription on by whole transactions; with less
than a batch it is all the log has. -/
theorem Stands.fetch {server : Server} {sub : Subscription} {out : List Event} (stands : Stands server sub out)
    (pending : sub.pending = []) (connected : sub.connected = true) (state : sub.state = .following) {rows : List ServerRow}
    (here : sub.epoch = server.epoch) (answers : (server.log server.epoch).Answers sub.after sub.batch rows) :
    ∃ sub', sub.fetch (.ok rows) = .ok sub' ∧ Stands server sub' out ∧
      (sub.batch < 2 ^ 31 → (rows.length : Int) < sub.batch →
        sub'.tail = [] ∧ lastSeq (out ++ sub'.pending.map Prod.fst) = (server.log server.epoch).last) := by
  cases stands with
  | seeking told last tail resyncs follows closed => cases (follows connected).symm.trans state
  | fresh frontier rows connected state tail queued =>
      rw [pending] at queued
      cases queued
  | following before handed queued retained later _ _ known tells split position last queue_ tail =>
      rw [← here] at answers ⊢
      obtain rfl : queued = [] := List.map_eq_nil_iff.mp (queue_.symm.trans pending)
      rw [List.nil_append, ← List.append_assoc] at split
      have after := Log.after_eq split position tail
      have split' : (server.log sub.epoch).groups = (before ++ handed ++ retained) ++ later := by rw [split, ← List.append_assoc]
      have asked : (server.log sub.epoch).Boundary sub.after := Log.boundary_iff.mpr ⟨_, _, split', after⟩
      obtain ⟨upTo, boundary, further, page_, short⟩ := answers asked
      rw [after] at further
      obtain ⟨page, rest, rfl, reached⟩ := Log.boundary_after split' boundary further
      -- the page, as the client parses it
      have sections := Log.rows_split split'
      have between : (server.log sub.epoch).between sub.after upTo = page.flatten := by
        rw [after, reached]
        exact Log.between_split sections
      obtain ⟨_, _, _, _, right⟩ := numberRows_split sections
      obtain ⟨new, _, _, numbered, _⟩ := numberRows_split right.symm
      have parsed : parseRows (sub.after + 1) rows = .ok page.flatten := by
        rw [page_, between, numbered, ← after]
        exact parseRows_sent _ _
      have whole : (server.log sub.epoch).groups = (before ++ handed) ++ ((retained ++ page) ++ rest) := by
        rw [split, List.append_assoc retained]
      have groups : (sub.tail ++ page.flatten).foldl appendRow [] = retained ++ page := by
        rw [foldl_appendRow, tail, ← List.flatten_append]
        exact splitBy_part whole
      unfold Subscription.fetch
      dsimp only
      rw [parsed]
      dsimp only
      rw [groups, pending, List.nil_append]
      refine ⟨_, rfl, ?_, ?_⟩
      · by_cases full : sub.batch ≤ asI32 rows.length
        · simp only [decide_eq_true full, if_true]
          refine .following before handed (retained ++ page).dropLast ((retained ++ page).getLast?.toList) rest connected state
            known tells ?_ position last rfl ?_
          · rw [whole, List.append_assoc, ← List.append_assoc (retained ++ page).dropLast, dropLast_last]
          · dsimp only
            cases (retained ++ page).getLast? with
            | none => rfl
            | some g => exact (List.append_nil g).symm
        · simp only [decide_eq_false full, Bool.false_eq_true, if_false]
          refine .following before handed (retained ++ page) [] rest connected state known tells ?_ position last rfl rfl
          rw [whole, List.append_assoc, List.nil_append]
      · intro small less
        have partial_ : ¬ sub.batch ≤ asI32 rows.length := by
          rw [asI32_small (by omega)]
          omega
        have reaches := short less
        simp only [decide_eq_false partial_, Bool.false_eq_true, if_false, true_and]
        have covered := @lastSeq_queue _ sub.epoch _ _ _ whole _ (last.symm.trans position)
        rw [queue] at covered
        rw [covered, ← reaches, reached]
        simp only [List.flatten_append, List.length_append]
        omega

theorem Stands.closed {server : Server} {sub : Subscription} {out : List Event} (stands : Stands server sub out)
    (pending : sub.pending = []) (connected : sub.connected = true) (state : sub.state = .needBootstrap) :
    Closed out ∧ sub.tail = [] := by
  cases stands with
  | seeking told last tail resyncs follows closed => exact ⟨closed connected pending, tail⟩
  | fresh frontier rows connected state' tail queued =>
      rw [pending] at queued
      cases queued
  | following before handed queued retained later _ state' => cases state.symm.trans state'

theorem Stands.boot {server : Server} {sub : Subscription} {out : List Event} (stands : Stands server sub out)
    (pending : sub.pending = []) (connected : sub.connected = true) (state : sub.state = .needBootstrap) {snapshot : Snapshot}
    (read : snapshot.epoch = server.epoch ∧ snapshot.cursor = (server.log server.epoch).last) :
    Stands server (sub.bootstrap snapshot) out := by
  refine .fresh snapshot.frontier snapshot.rows connected rfl rfl ?_ (stands.closed pending connected state).1 (Int.le_of_eq read.1) ?_
  · rw [Subscription.bootstrap, pending]
    rfl
  · show (server.log snapshot.epoch).Boundary snapshot.cursor
    rw [read.1, read.2]
    exact Log.last_boundary _

/-- A stale view is reported, and the subscription goes on trying. -/
theorem Stands.waits {server : Server} {sub : Subscription} {out : List Event} (stands : Stands server sub out)
    (pending : sub.pending = []) (connected : sub.connected = true) (state : sub.state = .needBootstrap) (reason : ResyncReason) :
    Stands server { sub with pending := sub.pending ++ [(.resync reason, none)] } out := by
  obtain ⟨told, last⟩ := stands.lose pending
  refine .seeking told last (stands.closed pending connected state).2 ?_ (fun _ => state) fun _ none => ?_
  · intro p member
    rw [pending, List.nil_append, List.mem_singleton] at member
    rw [member]
    exact ⟨rfl, rfl⟩
  · rw [pending] at none
    cases none

/-- One iteration, which keeps the subscription in its place. -/
theorem Stands.step {server : Server} {sub sub' : Subscription} {out : List Event} (stands : Stands server sub out)
    {response : Response} (obeys : response.Obeys server sub) {result : Option (Except Error Event)}
    (step : sub.step response = (sub', result)) :
    Stands server sub' (out ++ (result.bind Except.toOption).toList) ∧
      (result.isNone = false → sub'.cursor = lastSeq (out ++ (result.bind Except.toOption).toList)) := by
  unfold Subscription.step at step
  cases pending : sub.pending with
  | cons first rest =>
      obtain ⟨event, cursor⟩ := first
      simp only [pending, Prod.mk.injEq] at step
      obtain ⟨rfl, rfl⟩ := step
      have handed := stands.hand pending
      exact ⟨handed.1, fun _ => handed.2⟩
  | nil =>
      have last := (stands.lose pending).2
      have silent : out ++ (([] : List Event)) = out := List.append_nil out
      simp only [pending] at step
      cases connected : sub.connected with
      | false =>
          simp only [connected, Bool.not_false, if_true, Prod.mk.injEq] at step
          obtain ⟨rfl, rfl⟩ := step
          exact ⟨silent.symm ▸ stands.reconnect pending, fun some => absurd some (by decide)⟩
      | true =>
          simp only [connected, Bool.not_true, Bool.false_eq_true, if_false] at step
          have same : ∀ error : Error, Stands server sub (out ++ ((some (.error error : Except Error Event)).bind Except.toOption).toList) ∧
              ((some (.error error : Except Error Event)).isNone = false →
                sub.cursor = lastSeq (out ++ ((some (.error error : Except Error Event)).bind Except.toOption).toList)) := fun error => by
            rw [show out ++ ((some (.error error : Except Error Event)).bind Except.toOption).toList = out from silent]
            exact ⟨stands, fun _ => last⟩
          cases state : sub.state with
          | needBootstrap =>
              simp only [state] at step
              split at step <;> obtain ⟨rfl, rfl⟩ := Prod.mk.inj step
              · rename_i snapshot ready
                exact ⟨silent.symm ▸ stands.boot pending connected state (obeys.bootstrap snapshot ready), fun some => absurd some (by decide)⟩
              · exact ⟨silent.symm ▸ stands, fun some => absurd some (by decide)⟩
              · rename_i reason _
                have waits := stands.waits pending connected state (.stale reason)
                rw [pending, connected, state] at waits
                exact ⟨silent.symm ▸ waits, fun some => absurd some (by decide)⟩
              · exact same _
              · have lost := stands.disconnect pending
                rw [← (stands.closed pending connected state).2, pending, state] at lost
                exact ⟨silent.symm ▸ lost, fun some => absurd some (by decide)⟩
              · exact same _
              · exact ⟨silent.symm ▸ stands, fun some => absurd some (by decide)⟩
          | following =>
              simp only [state] at step
              by_cases gone : (sub.tail.isEmpty && !response.awake) = true
              · rw [if_pos gone] at step
                obtain ⟨rfl, rfl⟩ := Prod.mk.inj step
                have lost := stands.disconnect pending
                have none : sub.tail = [] := List.isEmpty_iff.mp ((Bool.and_eq_true _ _).mp gone).1
                rw [← none, pending, state] at lost
                exact ⟨silent.symm ▸ lost, fun some => absurd some (by decide)⟩
              · rw [if_neg gone] at step
                cases changes : response.changes with
                | ok rows =>
                    obtain ⟨sub'', fetched, stands', _⟩ := stands.fetch pending connected state (obeys.changes rows changes).1
                      (obeys.changes rows changes).2
                    simp only [changes, fetched] at step
                    obtain ⟨rfl, rfl⟩ := Prod.mk.inj step
                    exact ⟨silent.symm ▸ stands', fun some => absurd some (by decide)⟩
                | error failure =>
                    have failed : sub.fetch (.error failure) = .error failure := rfl
                    simp only [changes, failed] at step
                    cases failure <;> obtain ⟨rfl, rfl⟩ := Prod.mk.inj step
                    · exact ⟨silent.symm ▸ stands.resync pending _, fun some => absurd some (by decide)⟩
                    · exact ⟨silent.symm ▸ stands.resync pending _, fun some => absurd some (by decide)⟩
                    · exact ⟨silent.symm ▸ stands.resync pending _, fun some => absurd some (by decide)⟩
                    · have lost := stands.disconnect pending
                      rw [pending, state] at lost
                      exact ⟨silent.symm ▸ lost, fun some => absurd some (by decide)⟩
                    · exact same _

theorem Session.stands {batch : Int} {busy : Bool} {sub : Subscription} {server : Server} {out : List Event}
    (session : Session batch busy sub server out) : Stands server sub out ∧ (busy = false → sub.cursor = lastSeq out) := by
  induction session with
  | opened server =>
      have closed : Closed [] := by
        intro pre epoch frontier cursor rows later split
        exact absurd split.symm (List.append_ne_nil_of_right_ne_nil _ (List.cons_ne_nil _ _))
      exact ⟨.seeking (Or.inl closed) rfl rfl (fun p member => absurd member List.not_mem_nil) (fun _ => rfl) fun _ _ => closed,
        fun _ => rfl⟩
  | server _ step ih => exact ⟨ih.1.server step, ih.2⟩
  | step response _ obeys step ih => exact ih.1.step obeys step

theorem Stands.told {server : Server} {sub : Subscription} {out : List Event} (stands : Stands server sub out) :
    Told server out (lastSeq out) := by
  cases stands with
  | seeking told last => exact last ▸ told
  | fresh frontier rows connected state tail pending closed => exact Or.inl closed
  | following before handed queued retained later connected state known tells split position last =>
      exact Or.inr ⟨sub.epoch, before, handed, known, tells, last.symm.trans position⟩

theorem snapshot_unique {pre pre' later : List Event} {epoch epoch' cursor cursor' : Int} {frontier frontier' : String}
    {rows rows' : List Json} {handed : List (List ChangeRow)} (closed : Closed pre')
    (open_ : ∀ e ∈ later, e.isResync = false)
    (same : pre ++ .snapshot epoch frontier cursor rows :: later =
      pre' ++ .snapshot epoch' frontier' cursor' rows' :: events epoch' handed) :
    epoch = epoch' ∧ cursor = cursor' ∧ later = events epoch' handed := by
  rcases List.append_eq_append_iff.mp same with ⟨between, rfl, rest⟩ | ⟨between, rfl, rest⟩
  · cases between with
    | nil =>
        obtain ⟨head, rfl⟩ := List.cons.inj rest
        injection head with epoch _ cursor _
        exact ⟨epoch, cursor, rfl⟩
    | cons first between =>
        obtain ⟨rfl, rfl⟩ := List.cons.inj rest
        obtain ⟨e, member, resync⟩ := closed _ _ _ _ _ _ rfl
        rw [open_ e (List.mem_append_left _ member)] at resync
        cases resync
  · cases between with
    | nil =>
        obtain ⟨head, eq⟩ := List.cons.inj rest
        injection head with epoch _ cursor _
        exact ⟨epoch.symm, cursor.symm, eq.symm⟩
    | cons first between =>
        obtain ⟨rfl, eq⟩ := List.cons.inj rest
        have member : Event.snapshot epoch frontier cursor rows ∈ events epoch' handed :=
          eq ▸ List.mem_append_right _ List.mem_cons_self
        obtain ⟨g, _, transaction⟩ := List.mem_map.mp member
        cases transaction

theorem Subscription.step_polls (sub : Subscription) {response : Response} {rows : List ServerRow} (pending : sub.pending = [])
    (connected : sub.connected = true) (state : sub.state = .following) (awake : sub.tail = [] → response.awake = true)
    (changes : response.changes = .ok rows) :
    (∀ sub', sub.fetch (.ok rows) = .ok sub' → sub.step response = (sub', none)) ∧
    ∀ error, sub.fetch (.ok rows) = .error (.other error) → sub.step response = (sub, some (.error error)) := by
  have stays : ¬ (sub.tail.isEmpty && !response.awake) = true := by
    intro gone
    rw [Bool.and_eq_true, List.isEmpty_iff, Bool.not_eq_true'] at gone
    rw [awake gone.1] at gone
    cases gone.2
  unfold Subscription.step
  rw [pending]
  dsimp only
  rw [connected, state, if_neg (by decide)]
  dsimp only
  rewrite [if_neg stays, changes]
  constructor
  · intro sub' fetched
    rw [fetched]
  · intro error fetched
    rw [fetched]

/-- From a snapshot to the next resync a client hands out the source transactions of the
log after the snapshot's cursor, each whole, once and in order; its cursor is the last
number handed out; an answer that leaves a gap is an error and nothing else, and one with
less than a batch retains nothing and queues the log to its end. -/
theorem Session.in_order {batch : Int} {busy : Bool} {sub : Subscription} {server : Server} {out : List Event}
    (session : Session batch busy sub server out) :
    (∀ pre epoch frontier cursor rows later, out = pre ++ .snapshot epoch frontier cursor rows :: later →
      (∀ e ∈ later, e.isResync = false) →
      (server.log epoch).Boundary cursor ∧ (server.log epoch).Boundary (lastSeq out) ∧ cursor ≤ lastSeq out ∧
        later = events epoch (((server.log epoch).between cursor (lastSeq out)).splitBy ChangeRow.together)) ∧
    (busy = false → sub.cursor = lastSeq out) ∧
    ∀ response rows, sub.pending = [] → sub.connected = true → sub.state = .following →
      (sub.tail = [] → response.awake = true) → response.changes = .ok rows →
      (¬ Continues sub.after rows → ∃ message, sub.step response = (sub, some (.error (.protocol message)))) ∧
      (response.Obeys server sub → sub.batch < 2 ^ 31 → (rows.length : Int) < sub.batch →
        ∃ sub', sub.step response = (sub', none) ∧ sub'.tail = [] ∧
          lastSeq (out ++ sub'.pending.map Prod.fst) = (server.log server.epoch).last) := by
  obtain ⟨stands, cursor⟩ := session.stands
  refine ⟨?_, cursor, ?_⟩
  · intro pre epoch frontier cursor rows later split open_
    rcases stands.told with closed | ⟨epoch', before, handed, _, ⟨⟨pre', frontier', cursor', rows', closed, eq, start⟩, rest, groups⟩, reached⟩
    · obtain ⟨e, member, resync⟩ := closed _ _ _ _ _ _ split
      rw [open_ e member] at resync
      cases resync
    · obtain ⟨rfl, rfl, rfl⟩ := snapshot_unique closed open_ (split.symm.trans eq)
      have between := Log.between_split (Log.rows_split groups)
      rw [List.flatten_append, List.length_append, Int.natCast_add, ← Int.add_assoc, ← start] at reached
      rw [← start, ← reached] at between
      refine ⟨Log.boundary_iff.mpr ⟨before, handed ++ rest, groups, start⟩, Log.boundary_iff.mpr ⟨before ++ handed, rest, ?_, ?_⟩, ?_, ?_⟩
      · rw [groups, List.append_assoc]
      · rw [reached, start, List.flatten_append, List.length_append, Int.natCast_add, ← Int.add_assoc]
      · omega
      · rw [between, splitBy_part groups]
  · intro response rows pending connected state awake changes
    have polls := sub.step_polls pending connected state awake changes
    constructor
    · intro gap
      obtain ⟨message, failed⟩ := parseRows_gap gap
      refine ⟨message, ?_⟩
      have fetched : sub.fetch (.ok rows) = .error (.other (.protocol message)) := by
        unfold Subscription.fetch
        dsimp only
        rw [failed]
      exact polls.2 _ fetched
    · intro obeys small less
      obtain ⟨sub', fetched, _, drained⟩ := stands.fetch pending connected state (obeys.changes rows changes).1
        (obeys.changes rows changes).2
      exact ⟨sub', polls.1 sub' fetched, drained small less⟩

def shopEntries : List Entry := [⟨"0/A", some 1, .insert, .null⟩, ⟨"0/A", some 1, .delete, .null⟩]

def shopServer (entries : List Entry) : Server := ⟨1, Function.update (fun _ => ⟨0, []⟩) 1 ⟨5, entries⟩⟩

theorem shopServer_grows : Server.Step (shopServer []) (shopServer shopEntries) := by
  have grown : shopServer shopEntries = { shopServer [] with
      log := Function.update (shopServer []).log (shopServer []).epoch
        (((shopServer []).log (shopServer []).epoch).append shopEntries) } := by
    simp only [shopServer, Function.update_idem, Function.update_self, Log.append, List.nil_append]
  rw [grown]
  exact .grow _ _ (Cut.nil_left _)

theorem shopServer_boots (sub : Subscription) :
    Response.Obeys (shopServer []) sub ⟨.ok (.ready ⟨1, "0/9", 5, []⟩), true, .error .lagged⟩ := by
  constructor
  · intro snapshot ready
    obtain rfl := Boot.ready.inj (Except.ok.inj ready)
    exact ⟨rfl, rfl⟩
  · intro rows answered
    cases answered

theorem shopServer_answers {sub : Subscription} {rows : List ServerRow} (epoch : sub.epoch = 1) (further : sub.after ≤ 7)
    (page : rows = (((shopServer shopEntries).log 1).between sub.after 7).map ChangeRow.sent) :
    Response.Obeys (shopServer shopEntries) sub ⟨.ok .building, true, .ok rows⟩ := by
  constructor
  · intro snapshot ready
    cases ready
  · intro rows' answered
    obtain rfl := Except.ok.inj answered
    exact ⟨epoch, fun _ => ⟨7, Log.last_boundary ((shopServer shopEntries).log 1), further, page, fun _ => rfl⟩⟩

/-- The transaction fills the batch, is retained, and is handed out after the next fetch. -/
theorem shop_session : ∃ sub server out, Session 2 false sub server out ∧ sub.cursor = lastSeq out ∧
    out = [.snapshot 1 "0/9" 5 [], .transaction (some 1) "0/A" 1 [⟨6, .insert, .null⟩, ⟨7, .delete, .null⟩]] := by
  have booted := Session.step _ (@Session.opened 2 (shopServer [])) (shopServer_boots _) rfl
  have handed : Session 2 false ⟨2, true, .following, 1, 5, [], []⟩ (shopServer []) [.snapshot 1 "0/9" 5 []] :=
    Session.step _ booted (shopServer_boots _) rfl
  have grown := Session.server handed shopServer_grows
  have fetched : Session 2 true ⟨2, true, .following, 1, 5, [], [⟨6, "0/A", some 1, .insert, .null⟩, ⟨7, "0/A", some 1, .delete, .null⟩]⟩
      (shopServer shopEntries) [.snapshot 1 "0/9" 5 []] :=
    Session.step ⟨_, _, .ok [⟨6, "0/A", some 1, "I", .null⟩, ⟨7, "0/A", some 1, "D", .null⟩]⟩ grown
      (shopServer_answers rfl (by decide) rfl) rfl
  have again := Session.step _ fetched (@shopServer_answers _ [] rfl (by decide) rfl) rfl
  have done := Session.step ⟨.ok .building, true, .error .lagged⟩ again ⟨nofun, nofun⟩ rfl
  exact ⟨_, _, _, done, done.in_order.2.1 rfl, rfl⟩

end Nabla.Client
