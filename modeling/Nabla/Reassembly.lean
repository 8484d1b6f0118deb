import Nabla.Descriptions
import Nabla.Discard

/-! The stream as transactions: what the decoder makes of a stream that is cut anywhere and
read again from the transaction the cut fell into. -/
namespace Nabla

def Message.aside : Message → Bool
  | .relation _ | .ignored _ => true
  | _ => false

/-- A source transaction as it is sent. -/
structure SentTransaction where
  finalLsn : Nat
  xid : Nat
  commitLsn : Nat
  endLsn : Nat
  body : List Message
  rows : ∀ m ∈ body, m.change.isSome = true ∨ m.aside = true

def SentTransaction.messages (t : SentTransaction) : List Message :=
  .begin t.finalLsn t.xid :: (t.body ++ [.commit t.commitLsn t.endLsn])

def SentTransaction.transaction (t : SentTransaction) : SourceTransaction :=
  ⟨t.xid, t.commitLsn, t.endLsn, t.body.filterMap Message.change⟩

inductive StreamItem where
  | transaction (t : SentTransaction)
  | between (m : Message) (aside : m.aside = true)

def StreamItem.messages : StreamItem → List Message
  | .transaction t => t.messages
  | .between m _ => [m]

def StreamItem.transaction? : StreamItem → Option SourceTransaction
  | .transaction t => some t.transaction
  | .between _ _ => none

def streamMessages (stream : List StreamItem) : List Message := stream.flatMap StreamItem.messages

def streamTransactions (stream : List StreamItem) : List SourceTransaction := stream.filterMap StreamItem.transaction?

/-- A cut inside the first of the remaining transactions. -/
def Interrupts (part : List Message) (rest : List StreamItem) : Prop :=
  ∃ t later, rest = .transaction t :: later ∧ part ≠ [] ∧ part ≠ t.messages ∧ part <+: t.messages

theorem cut_cases {stream : List StreamItem} {pre post : List Message} (cut : streamMessages stream = pre ++ post) :
    ∃ before part rest, stream = before ++ rest ∧ pre = streamMessages before ++ part ∧ (part = [] ∨ Interrupts part rest) := by
  induction stream generalizing pre with
  | nil =>
      obtain ⟨rfl, -⟩ := List.append_eq_nil_iff.mp cut.symm
      exact ⟨[], [], [], rfl, rfl, .inl rfl⟩
  | cons item stream ih =>
      have cut : item.messages ++ streamMessages stream = pre ++ post := cut
      rcases List.append_eq_append_iff.mp cut with ⟨later, rfl, further⟩ | ⟨left, within, -⟩
      · obtain ⟨before, part, rest, rfl, rfl, where_⟩ := ih further
        exact ⟨item :: before, part, rest, rfl, (List.append_assoc _ _ _).symm, where_⟩
      · by_cases start : pre = []
        · exact ⟨[], [], item :: stream, rfl, start, .inl rfl⟩
        by_cases stop : pre = item.messages
        · refine ⟨[item], [], stream, rfl, ?_, .inl rfl⟩
          rw [stop, List.append_nil]
          exact (List.append_nil _).symm
        · refine ⟨[], pre, item :: stream, rfl, rfl, .inr ?_⟩
          cases item with
          | transaction t => exact ⟨t, stream, rfl, start, stop, ⟨left, within.symm⟩⟩
          | between m aside =>
              -- a single message has no inside
              have single : pre.length + left.length = 1 := by
                rw [← List.length_append, ← within]
                rfl
              have some_ := List.length_pos_of_ne_nil start
              have nothing : left = [] := List.eq_nil_of_length_eq_zero (by omega)
              rw [nothing, List.append_nil] at within
              exact absurd within.symm stop

/-- Between two rounds no transaction is open and none waits to be taken. -/
structure Decoder.Idle (d : Decoder) : Prop where
  current : d.current = none
  complete : d.complete = []

theorem Decoder.drain_idle (fed : Decoder) : fed.drain.2.Idle := by
  rw [Decoder.drain_eq]
  exact ⟨rfl, rfl⟩

theorem Decoder.feedAll_append {d d₁ : Decoder} {first : List Message} (fed : d.feedAll first = .ok d₁) (later : List Message) :
    d.feedAll (first ++ later) = d₁.feedAll later := by
  induction first generalizing d with
  | nil => exact Except.ok.inj fed ▸ rfl
  | cons m first ih =>
      obtain ⟨d₂, one, rest⟩ := Decoder.feedAll_cons fed
      rw [List.cons_append, Decoder.feedAll, one]
      exact ih rest

/-- What is open and what is complete, whatever the cache holds. -/
structure Decoder.Stands (d : Decoder) (current : Option SourceTransaction) (complete : List SourceTransaction) : Prop where
  current : d.current = current
  complete : d.complete = complete

theorem Decoder.feed_aside {d : Decoder} {m : Message} {current : Option SourceTransaction} {complete : List SourceTransaction}
    (stands : d.Stands current complete) (aside : m.aside = true) : ∃ d', d.feed m = .ok d' ∧ d'.Stands current complete := by
  cases m with
  | relation rel => exact ⟨d.describe rel, rfl, stands.current, stands.complete⟩
  | ignored kind => exact ⟨d, rfl, stands⟩
  | _ => cases aside

theorem Decoder.feed_row {d : Decoder} {m : Message} {change : Change} {tx : SourceTransaction} {complete : List SourceTransaction}
    (stands : d.Stands (some tx) complete) (row : m.change = some change) :
    ∃ d', d.feed m = .ok d' ∧ d'.Stands (some { tx with changes := tx.changes ++ [change] }) complete := by
  have pushed : d.push change = .ok { d with current := some { tx with changes := tx.changes ++ [change] } } := by
    rw [Decoder.push, stands.current]
  have same : d.feed m = d.push change := by
    cases m <;> first | exact Option.some.inj row ▸ rfl | cases row
  exact ⟨_, same.trans pushed, rfl, stands.complete⟩

theorem Decoder.feedAll_body {body : List Message} (rows : ∀ m ∈ body, m.change.isSome = true ∨ m.aside = true) {d : Decoder}
    {tx : SourceTransaction} {complete : List SourceTransaction} (stands : d.Stands (some tx) complete) :
    ∃ d', d.feedAll body = .ok d' ∧ d'.Stands (some { tx with changes := tx.changes ++ body.filterMap Message.change }) complete := by
  induction body generalizing d tx with
  | nil => exact ⟨d, rfl, by rwa [List.filterMap_nil, List.append_nil]⟩
  | cons m body ih =>
      have later : ∀ m ∈ body, m.change.isSome = true ∨ m.aside = true := fun m member => rows m (List.mem_cons_of_mem _ member)
      cases row : m.change with
      | some change =>
          obtain ⟨d₁, fed, stands₁⟩ := Decoder.feed_row stands row
          obtain ⟨d', rest, stands'⟩ := ih later stands₁
          refine ⟨d', by rw [Decoder.feedAll, fed]; exact rest, ?_⟩
          rw [List.filterMap_cons_some row]
          rwa [List.append_assoc, List.singleton_append] at stands'
      | none =>
          have aside : m.aside = true := by
            rcases rows m List.mem_cons_self with some_ | aside
            · rw [row] at some_
              cases some_
            · exact aside
          obtain ⟨d₁, fed, stands₁⟩ := Decoder.feed_aside stands aside
          obtain ⟨d', rest, stands'⟩ := ih later stands₁
          refine ⟨d', by rw [Decoder.feedAll, fed]; exact rest, ?_⟩
          rwa [List.filterMap_cons_none row]

theorem Decoder.feed_begin {d : Decoder} {complete : List SourceTransaction} (stands : d.Stands none complete) (finalLsn xid : Nat) :
    ∃ d', d.feed (.begin finalLsn xid) = .ok d' ∧ d'.Stands (some ⟨xid, finalLsn, 0, []⟩) complete := by
  have outside : d.current.isSome = false := by rw [stands.current]; rfl
  exact ⟨_, if_neg (Bool.eq_false_iff.mp outside), rfl, stands.complete⟩

theorem Decoder.feed_commit {d : Decoder} {tx : SourceTransaction} {complete : List SourceTransaction}
    (stands : d.Stands (some tx) complete) (commitLsn endLsn : Nat) :
    ∃ d', d.feed (.commit commitLsn endLsn) = .ok d' ∧ d'.Stands none (complete ++ [{ tx with commitLsn, endLsn }]) := by
  refine ⟨{ d with current := none, complete := d.complete ++ [{ tx with commitLsn, endLsn }] }, ?_, rfl, ?_⟩
  · rw [Decoder.feed, stands.current]
  · rw [stands.complete]

theorem Decoder.feedAll_open (t : SentTransaction) {body : List Message} (within : body <+: t.body) {d : Decoder}
    {complete : List SourceTransaction} (stands : d.Stands none complete) :
    ∃ d', d.feedAll (.begin t.finalLsn t.xid :: body) = .ok d' ∧
      d'.Stands (some ⟨t.xid, t.finalLsn, 0, body.filterMap Message.change⟩) complete := by
  obtain ⟨d₁, begun, stands₁⟩ := Decoder.feed_begin stands t.finalLsn t.xid
  obtain ⟨d', fed, stands'⟩ := Decoder.feedAll_body (fun m member => t.rows m (within.subset member)) stands₁
  refine ⟨d', by rw [Decoder.feedAll, begun]; exact fed, ?_⟩
  rwa [List.nil_append] at stands'

theorem Decoder.feedAll_transaction (t : SentTransaction) {d : Decoder} {complete : List SourceTransaction}
    (stands : d.Stands none complete) :
    ∃ d', d.feedAll t.messages = .ok d' ∧ d'.Stands none (complete ++ [t.transaction]) := by
  obtain ⟨d₁, fed, stands₁⟩ := Decoder.feedAll_open t List.prefix_rfl stands
  obtain ⟨d', committed, stands'⟩ := Decoder.feed_commit stands₁ t.commitLsn t.endLsn
  refine ⟨d', ?_, stands'⟩
  have whole := Decoder.feedAll_append fed [.commit t.commitLsn t.endLsn]
  rw [Decoder.feedAll, committed] at whole
  exact whole

theorem Decoder.feedAll_interrupted {part : List Message} {rest : List StreamItem} (interrupts : Interrupts part rest) {d : Decoder}
    {complete : List SourceTransaction} (stands : d.Stands none complete) :
    ∃ d' tx, d.feedAll part = .ok d' ∧ d'.Stands (some tx) complete := by
  obtain ⟨t, later, -, started, unfinished, within⟩ := interrupts
  cases part with
  | nil => exact absurd rfl started
  | cons m body =>
      obtain ⟨rfl, inner⟩ := List.cons_prefix_cons.mp within
      have inner : body <+: t.body := by
        refine (List.prefix_concat_iff.mp inner).resolve_left fun whole => unfinished ?_
        rw [whole]
        rfl
      obtain ⟨d', fed, stands'⟩ := Decoder.feedAll_open t inner stands
      exact ⟨d', _, fed, stands'⟩

theorem Decoder.feedAll_stream (stream : List StreamItem) {d : Decoder} {complete : List SourceTransaction}
    (stands : d.Stands none complete) :
    ∃ d', d.feedAll (streamMessages stream) = .ok d' ∧ d'.Stands none (complete ++ streamTransactions stream) := by
  induction stream generalizing d complete with
  | nil => exact ⟨d, rfl, by rwa [streamTransactions, List.filterMap_nil, List.append_nil]⟩
  | cons item stream ih =>
      cases item with
      | transaction t =>
          obtain ⟨d₁, fed, stands₁⟩ := Decoder.feedAll_transaction t stands
          obtain ⟨d', rest, stands'⟩ := ih stands₁
          refine ⟨d', (Decoder.feedAll_append fed _).trans rest, ?_⟩
          rwa [List.append_assoc, List.singleton_append] at stands'
      | between m aside =>
          obtain ⟨d₁, fed, stands₁⟩ := Decoder.feed_aside stands aside
          obtain ⟨d', rest, stands'⟩ := ih stands₁
          refine ⟨d', ?_, stands'⟩
          show d.feedAll (m :: streamMessages stream) = .ok d'
          rw [Decoder.feedAll, fed]
          exact rest

def Message.opens (inside : Bool) : Message → Bool
  | .begin _ _ => true
  | .commit _ _ => false
  | _ => inside

def inTransaction (messages : List Message) : Bool := messages.foldl Message.opens false

def Message.misplaced (inside : Bool) : Message → Bool
  | .begin _ _ => inside
  | .commit _ _ => !inside
  | m => !inside && m.change.isSome

theorem Decoder.feed_step (d : Decoder) (m : Message) :
    (m.misplaced d.current.isSome = true ∧ ∃ e, d.feed m = .error e) ∨
      (m.misplaced d.current.isSome = false ∧ ∃ d', d.feed m = .ok d' ∧ d'.current.isSome = m.opens d.current.isSome) := by
  cases current : d.current with
  | none => cases m <;> simp [Message.misplaced, Message.opens, Message.change, Decoder.feed, Decoder.push, Decoder.describe, current]
  | some tx => cases m <;> simp [Message.misplaced, Message.opens, Message.change, Decoder.feed, Decoder.push, Decoder.describe, current]

theorem Decoder.feedAll_refused (d : Decoder) (messages : List Message) : (∃ e, d.feedAll messages = .error e) ↔
    ∃ earlier m later, messages = earlier ++ m :: later ∧ m.misplaced (earlier.foldl Message.opens d.current.isSome) = true := by
  induction messages generalizing d with
  | nil =>
      constructor
      · intro ⟨e, refused⟩
        cases refused
      · rintro ⟨earlier, m, later, split, -⟩
        exact absurd split.symm (List.append_ne_nil_of_right_ne_nil earlier (List.cons_ne_nil m later))
  | cons first messages ih =>
      rcases d.feed_step first with ⟨misplaced, e, refused⟩ | ⟨placed, d', fed, opens⟩
      · refine ⟨fun _ => ⟨[], first, messages, rfl, misplaced⟩, fun _ => ⟨e, ?_⟩⟩
        rw [Decoder.feedAll, refused]
      · have whole : d.feedAll (first :: messages) = d'.feedAll messages := by rw [Decoder.feedAll, fed]
        rw [whole, ih d', opens]
        constructor
        · rintro ⟨earlier, m, later, rfl, misplaced⟩
          exact ⟨first :: earlier, m, later, rfl, misplaced⟩
        · rintro ⟨earlier, m, later, split, misplaced⟩
          cases earlier with
          | nil =>
              obtain ⟨rfl, -⟩ := List.cons.inj split
              exact absurd misplaced (Bool.eq_false_iff.mp placed)
          | cons other earlier =>
              obtain ⟨rfl, split'⟩ := List.cons.inj split
              exact ⟨earlier, m, later, split', misplaced⟩

/-- Wherever a stream is cut, the transactions committed before the cut are taken, and
reading again from the first message of the discarded one gives the others. A message out
of its place is refused. -/
theorem Decoder.reassembles {d : Decoder} (idle : d.Idle) :
    (∀ stream pre post, streamMessages stream = pre ++ post → ∃ before part rest fed,
      stream = before ++ rest ∧ pre = streamMessages before ++ part ∧ (part = [] ∨ Interrupts part rest) ∧
      d.feedAll pre = .ok fed ∧ (fed.hasIncomplete = true ↔ part ≠ []) ∧
      fed.drain.1 = streamTransactions before ∧ fed.drain.2.Idle ∧
      ∀ d' : Decoder, d'.Idle → ∃ again whole, d'.feedAll (streamMessages rest) = .ok again ∧
        d.feedAll (streamMessages stream) = .ok whole ∧ again.hasIncomplete = false ∧
        whole.drain.1 = streamTransactions stream ∧ fed.drain.1 ++ again.drain.1 = whole.drain.1) ∧
    ∀ messages, (∃ e, d.feedAll messages = .error e) ↔
      ∃ earlier m later, messages = earlier ++ m :: later ∧ m.misplaced (inTransaction earlier) = true := by
  have stands : d.Stands none [] := ⟨idle.current, idle.complete⟩
  refine ⟨?_, ?_⟩
  · intro stream pre post cut
    obtain ⟨before, part, rest, rfl, rfl, where_⟩ := cut_cases cut
    obtain ⟨d₁, first, stands₁⟩ := Decoder.feedAll_stream before stands
    obtain ⟨fed, second, complete, open_⟩ : ∃ fed, d₁.feedAll part = .ok fed ∧ fed.complete = streamTransactions before ∧
        (fed.hasIncomplete = true ↔ part ≠ []) := by
      rcases where_ with rfl | interrupts
      · refine ⟨d₁, rfl, stands₁.complete, ?_⟩
        rw [Decoder.hasIncomplete, stands₁.current]
        exact ⟨fun open_ => absurd open_ Bool.false_ne_true, fun other => absurd rfl other⟩
      · obtain ⟨fed, tx, second, stands₂⟩ := Decoder.feedAll_interrupted interrupts stands₁
        refine ⟨fed, second, stands₂.complete, ?_⟩
        obtain ⟨t, later, -, started, -, -⟩ := interrupts
        rw [Decoder.hasIncomplete, stands₂.current]
        exact ⟨fun _ => started, fun _ => rfl⟩
    have taken (d : Decoder) : d.drain.1 = d.complete := by rw [Decoder.drain_eq]
    refine ⟨before, part, rest, fed, rfl, rfl, where_, (Decoder.feedAll_append first part).trans second, open_, (taken fed).trans complete,
      fed.drain_idle, ?_⟩
    intro d' idle'
    obtain ⟨again, reread, stands'⟩ := Decoder.feedAll_stream rest ⟨idle'.current, idle'.complete⟩
    obtain ⟨whole, uninterrupted, stands''⟩ := Decoder.feedAll_stream (before ++ rest) stands
    refine ⟨again, whole, reread, uninterrupted, ?_, ?_, ?_⟩
    · rw [Decoder.hasIncomplete, stands'.current]
      rfl
    · rw [taken, stands''.complete, List.nil_append]
    · rw [taken, taken, taken, complete, stands'.complete, stands''.complete]
      simp only [streamTransactions, List.nil_append, List.filterMap_append]
  · intro messages
    rw [d.feedAll_refused messages, idle.current]
    exact Iff.rfl

def twoTransactions : List StreamItem :=
  [.transaction ⟨5, 1, 5, 8, [.insert 16 [.null]], by decide⟩, .between (.ignored 77) rfl, .transaction ⟨11, 2, 11, 14, [.insert 16 [.null]], by decide⟩]

/-- A cut behind the second Begin, and a Commit without its Begin. -/
theorem Decoder.reassembles_cut :
    (∃ before part rest fed, twoTransactions = before ++ rest ∧
      [.begin 5 1, .insert 16 [.null], .commit 5 8, .ignored 77, .begin 11 2] = streamMessages before ++ part ∧
      (part = [] ∨ Interrupts part rest) ∧
      Decoder.feedAll {} [.begin 5 1, .insert 16 [.null], .commit 5 8, .ignored 77, .begin 11 2] = .ok fed ∧
      (fed.hasIncomplete = true ↔ part ≠ []) ∧ fed.drain.1 = streamTransactions before ∧ fed.drain.2.Idle ∧
      ∀ d' : Decoder, d'.Idle → ∃ again whole, d'.feedAll (streamMessages rest) = .ok again ∧
        Decoder.feedAll {} (streamMessages twoTransactions) = .ok whole ∧ again.hasIncomplete = false ∧
        whole.drain.1 = streamTransactions twoTransactions ∧ fed.drain.1 ++ again.drain.1 = whole.drain.1) ∧
    ∃ e, Decoder.feedAll {} [.commit 5 8] = .error e := by
  have idle : Decoder.Idle {} := ⟨rfl, rfl⟩
  constructor
  · exact (Decoder.reassembles idle).1 twoTransactions _ [.insert 16 [.null], .commit 11 14] rfl
  · exact ((Decoder.reassembles idle).2 _).mpr ⟨[], .commit 5 8, [], rfl, rfl⟩

end Nabla
