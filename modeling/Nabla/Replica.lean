import Nabla.Moments
import Nabla.Subscription

/-! An installation and a client that follows one of its views: the rows the client was sent
last, with what it has been told since, are the view. -/
namespace Nabla
open Bags

variable {pf : Platform} {settings : Settings} {guard : Server → Event → Prop}

def DeltaOp.client : DeltaOp → Client.Op
  | .I => .insert
  | .D => .delete

def LoggedDelta.entry (hidden : List String) (d : LoggedDelta) : Client.Entry :=
  ⟨formatLsn d.lsn, some d.xid, d.op.client, d.rowJson.without hidden⟩

def LoggedDelta.parsed (hidden : List String) (d : LoggedDelta) : Client.ChangeRow :=
  ⟨d.seq, formatLsn d.lsn, some d.xid, d.op.client, d.rowJson.without hidden⟩

def Written.client (w : Written) (hidden : List String) : Client.Log := ⟨w.first, w.deltas.map (LoggedDelta.entry hidden)⟩

theorem LoggedDelta.parsed_sent (hidden : List String) (d : LoggedDelta) : (d.parsed hidden).sent = d.output hidden := by
  have op : Client.opText d.op.client = d.op.text := by cases d.op <;> rfl
  rw [Client.ChangeRow.sent, LoggedDelta.parsed, LoggedDelta.output, op]

theorem formatLsn_injective : Function.Injective formatLsn := by
  intro a b same
  have free : ∀ n, '/' ∉ hexadecimal.write n := fun n => hexadecimal.ne_of_spelled (Numerals.System.canonical_write n).spelled toDigit_slash
  have texts := congrArg String.toList same
  rw [formatLsn_toList, formatLsn_toList] at texts
  obtain ⟨high, low⟩ := SqlNames.split_unique (free _) (free _) texts
  have upper := Numerals.System.write_injective high
  have lower := Numerals.System.write_injective low
  rw [← Nat.div_add_mod a (2 ^ 32), ← Nat.div_add_mod b (2 ^ 32), upper, lower]

theorem LoggedDelta.parsed_together (hidden : List String) (a b : LoggedDelta) :
    (a.parsed hidden).together (b.parsed hidden) = a.together b := by
  rw [Bool.eq_iff_iff, Client.together_iff, LoggedDelta.together_iff]
  constructor
  · intro ⟨xid, lsn⟩
    exact ⟨formatLsn_injective lsn, Int.ofNat.inj (Option.some.inj xid)⟩
  · intro ⟨lsn, xid⟩
    exact ⟨congrArg (fun n : Nat => some (n : Int)) xid, congrArg formatLsn lsn⟩

theorem numberRows_entries (hidden : List String) {first : Nat} {log : List LoggedDelta}
    (seqs : log.map LoggedDelta.seq = List.range' (first + 1) log.length) :
    Client.numberRows first (log.map (LoggedDelta.entry hidden)) = log.map (LoggedDelta.parsed hidden) := by
  induction log generalizing first with
  | nil => rfl
  | cons d log ih =>
      rw [List.map_cons, List.length_cons, List.range'_succ, List.cons.injEq] at seqs
      have rest := @ih (first + 1) seqs.2
      rw [Int.natCast_add, Int.natCast_one] at rest
      rw [List.map_cons, List.map_cons, Client.numberRows, rest, LoggedDelta.parsed, seqs.1]
      rfl

section Laid

variable {w : Written} (laid : w.Laid) (hidden : List String)
include laid

theorem Written.Laid.rows : (w.client hidden).rows = w.deltas.map (LoggedDelta.parsed hidden) := numberRows_entries hidden laid.seqs

theorem Written.Laid.boundary {p : Int} (boundary : (w.client hidden).Boundary p) : ∃ n : Nat, p = n ∧ w.Boundary n := by
  obtain ⟨before, after, split, rfl, cut⟩ := boundary
  rw [laid.rows, List.map_eq_append_iff] at split
  obtain ⟨earlier, later, split, rfl, rfl⟩ := split
  refine ⟨w.first + earlier.length, ?_, earlier, later, split, rfl, fun a left b right => ?_⟩
  · rw [List.length_map, Int.natCast_add]
    rfl
  · have order := laid.order
    rw [split, List.pairwise_append] at order
    obtain ⟨ordered, ordered', apart⟩ := order
    rw [Bool.eq_false_iff, Ne, LoggedDelta.together_iff, not_and]
    intro same
    -- the rows next to the cut are of one position as well
    obtain ⟨last, final⟩ := Option.isSome_iff_exists.mp (List.getLast?_isSome.mpr (List.ne_nil_of_mem left))
    obtain ⟨first, head⟩ := Option.isSome_iff_exists.mp (List.isSome_head?.mpr (List.ne_nil_of_mem right))
    have differ := cut (last.parsed hidden) (by rw [List.getLast?_map, final]; rfl) (first.parsed hidden) (by rw [List.head?_map, head]; rfl)
    rw [LoggedDelta.parsed_together, Bool.eq_false_iff, Ne, LoggedDelta.together_iff] at differ
    have between := apart last (List.mem_of_getLast? final) first (List.mem_of_head? head)
    have up := lsn_le_last ordered final left
    have down : first.lsn ≤ b.lsn := by
      obtain ⟨rest, rfl⟩ := List.head?_eq_some_iff.mp head
      rcases List.mem_cons.mp right with rfl | later
      · exact le_refl _
      · exact ((List.pairwise_cons.mp ordered').1 b later).2.1
    have level : last.lsn = first.lsn := by
      have middle := between.2.1
      omega
    exact absurd ⟨level, between.2.2 level⟩ differ

theorem Written.Laid.client_boundary {n : Nat} (boundary : w.Boundary n) : (w.client hidden).Boundary n := by
  obtain ⟨earlier, later, split, rfl, apart⟩ := boundary
  refine ⟨earlier.map (LoggedDelta.parsed hidden), later.map (LoggedDelta.parsed hidden), ?_, ?_, fun a left b right => ?_⟩
  · rw [laid.rows, split, List.map_append]
  · rw [List.length_map, Int.natCast_add]
    rfl
  · rw [List.getLast?_map, Option.mem_map] at left
    rw [List.head?_map, Option.mem_map] at right
    obtain ⟨d, final, rfl⟩ := left
    obtain ⟨d', head, rfl⟩ := right
    rw [LoggedDelta.parsed_together]
    exact apart d (List.mem_of_getLast? final) d' (List.mem_of_head? head)

end Laid

theorem ViewRow.Keeps.answers {row : ViewRow} {w : Written} (keeps : row.Keeps w) (hidden : List String) (served : row.Served) {keep : Bool}
    (same : w.deltas = [] ∨ hidden = if keep then [] else row.spec.hiddenColumns) {after maxRows : Int} {rows : List Client.ServerRow}
    (answered : changes row after row.epoch maxRows keep = .ok rows) : (w.client hidden).Answers after maxRows rows := by
  intro asked
  obtain ⟨n, rfl, boundary⟩ := keeps.laid.boundary hidden asked
  have kept := keeps.retained_of_answered served boundary answered
  obtain ⟨page, later, split, paged, _, next, short, _⟩ := (keeps.serves served boundary maxRows keep).page kept
  obtain rfl := Except.ok.inj (answered.symm.trans paged)
  obtain ⟨earlier, since, whole, reached, _⟩ := boundary
  have rest : w.since n = since := by
    have seqs := keeps.seqs
    rw [whole] at seqs
    rw [Written.since, whole, reached, filter_cut seqs]
  rw [rest] at split
  refine ⟨(n + page.length : Nat), keeps.laid.client_boundary hidden next, by omega, ?_, fun less => ?_⟩
  · have sections : (w.client hidden).rows = earlier.map (LoggedDelta.parsed hidden) ++
        (page.map (LoggedDelta.parsed hidden) ++ later.map (LoggedDelta.parsed hidden)) := by
      rw [keeps.laid.rows, whole, split, List.map_append, List.map_append]
    have between := Client.Log.between_split sections
    have low : (w.client hidden).first + (earlier.map (LoggedDelta.parsed hidden)).length = (n : Int) := by
      rw [List.length_map, reached, Int.natCast_add]
      rfl
    rw [low, List.length_map] at between
    rw [Int.natCast_add, between, List.map_map]
    refine List.map_congr_left fun d member => ?_
    rw [Function.comp_apply, LoggedDelta.parsed_sent]
    rcases same with none | same
    · rw [none] at whole
      have empty := (List.append_eq_nil_iff.mp whole.symm).2
      rw [split] at empty
      rw [(List.append_eq_nil_iff.mp empty).1] at member
      exact absurd member List.not_mem_nil
    · rw [same]
  · rw [List.length_map] at less
    have none := short less
    rw [none, List.append_nil] at split
    have last : (w.client hidden).last = (w.first : Int) + w.deltas.length := by
      rw [Client.Log.last, Written.client, List.length_map]
    rw [last, whole, split, reached, List.length_append]
    omega

/-- The columns left out of what a subscriber gets. -/
def leftOut (keep : Bool) (hidden : List String) : List String := if keep then [] else hidden

def Chronicle.logs (ch : Chronicle) (keep : Bool) : Int → Client.Log
  | .ofNat e => (ch.written e).client (leftOut keep (ch.hidden e))
  | .negSucc _ => ⟨0, []⟩

def Chronicle.server (ch : Chronicle) (keep : Bool) : Client.Server := ⟨ch.epoch, ch.logs keep⟩

@[simp] theorem Chronicle.logs_natCast (ch : Chronicle) (keep : Bool) (e : Nat) :
    ch.logs keep e = (ch.written e).client (leftOut keep (ch.hidden e)) := rfl

theorem Chronicle.logs_update {ch ch' : Chronicle} {keep : Bool} {here : Nat} {log : Client.Log}
    (new : (ch'.written here).client (leftOut keep (ch'.hidden here)) = log)
    (other : ∀ e, e ≠ here → ch'.written e = ch.written e ∧ ch'.hidden e = ch.hidden e) :
    ch'.logs keep = Function.update (ch.logs keep) here log := by
  funext e
  cases e with
  | negSucc e =>
      have away : Int.negSucc e ≠ here := fun same => Int.noConfusion same
      rw [Function.update_of_ne away]
      rfl
  | ofNat e =>
      by_cases same : e = here
      · subst same
        rw [Int.ofNat_eq_natCast, Function.update_self]
        exact new
      · have away : Int.ofNat e ≠ here := fun equal => same (Int.ofNat.inj equal)
        rw [Function.update_of_ne away, Int.ofNat_eq_natCast, logs_natCast, logs_natCast, (other e same).1, (other e same).2]

theorem Client.mem_numberRows_entry {seq : Int} {entries : List Client.Entry} {r : Client.ChangeRow} (member : r ∈ Client.numberRows seq entries) :
    ∃ e ∈ entries, r.lsn = e.lsn := by
  induction entries generalizing seq with
  | nil => exact absurd member List.not_mem_nil
  | cons e entries ih =>
      rcases List.mem_cons.mp member with rfl | later
      · exact ⟨e, List.mem_cons_self, rfl⟩
      · obtain ⟨e', within, lsn⟩ := ih later
        exact ⟨e', List.mem_cons_of_mem _ within, lsn⟩

theorem Client.cut_of_later {old new : List LoggedDelta} (beyond : ∀ a ∈ old, ∀ d ∈ new, a.lsn < d.lsn) (hidden : List String) (seq seq' : Int) :
    Client.Cut (Client.numberRows seq (old.map (LoggedDelta.entry hidden))) (Client.numberRows seq' (new.map (LoggedDelta.entry hidden))) := by
  intro a left b right
  obtain ⟨e, inOld, lsn⟩ := mem_numberRows_entry (List.mem_of_getLast? left)
  obtain ⟨e', inNew, lsn'⟩ := mem_numberRows_entry (List.mem_of_head? right)
  obtain ⟨d, within, rfl⟩ := List.mem_map.mp inOld
  obtain ⟨d', within', rfl⟩ := List.mem_map.mp inNew
  rw [Bool.eq_false_iff, Ne, together_iff, not_and]
  intro _ same
  have equal : d.lsn = d'.lsn := formatLsn_injective (lsn.symm.trans (same.trans lsn'))
  exact absurd (beyond d within d' within') (equal ▸ lt_irrefl _)

/-- For the client a step of the installation logs whole transactions, begins an epoch, or is none. -/
theorem Chronicle.Next.server {ch ch' : Chronicle} (next : ch.Next ch') (keep : Bool) :
    ch'.server keep = ch.server keep ∨ Client.Server.Step (ch.server keep) (ch'.server keep) := by
  cases next with
  | stays => exact .inl rfl
  | logged new beyond =>
      have logs : (ch.log new).logs keep = Function.update (ch.logs keep) ch.epoch
          ((ch.logs keep ch.epoch).append (new.map (LoggedDelta.entry (leftOut keep (ch.hidden ch.epoch))))) := by
        refine Chronicle.logs_update ?_ fun e away => ⟨Function.update_of_ne away _ _, rfl⟩
        have written : (ch.log new).written ch.epoch = (ch.written ch.epoch).append new := Function.update_self _ _ _
        rw [written, Written.client, Written.append, List.map_append]
        rfl
      have grown : (ch.log new).server keep = ⟨ch.epoch, (ch.log new).logs keep⟩ := rfl
      rw [grown, logs]
      exact .inr (.grow (ch.server keep) _ (Client.cut_of_later beyond _ _ _))
  | hidden hidden empty =>
      have logs : (ch.hide hidden).logs keep = Function.update (ch.logs keep) ch.epoch (ch.logs keep ch.epoch) := by
        refine Chronicle.logs_update ?_ fun e away => ⟨rfl, Function.update_of_ne away _ _⟩
        have written : (ch.hide hidden).written ch.epoch = ch.written ch.epoch := rfl
        rw [written, ch.logs_natCast, Written.client, Written.client, empty]
        rfl
      rw [Function.update_eq_self] at logs
      have same : (ch.hide hidden).server keep = ⟨ch.epoch, (ch.hide hidden).logs keep⟩ := rfl
      rw [same, logs]
      exact .inl rfl
  | renewed first hidden =>
      have logs : (ch.renew first hidden).logs keep = Function.update (ch.logs keep) (ch.epoch + 1 : Nat) ⟨first, []⟩ := by
        refine Chronicle.logs_update ?_ fun e away => ⟨Function.update_of_ne away _ _, Function.update_of_ne away _ _⟩
        have written : (ch.renew first hidden).written (ch.epoch + 1) = ⟨first, []⟩ := Function.update_self _ _ _
        rw [written]
        rfl
      have renewed : (ch.renew first hidden).server keep = ⟨(ch.epoch + 1 : Nat), (ch.renew first hidden).logs keep⟩ := rfl
      rw [renewed, logs]
      exact .inr (.rebuild (ch.server keep) first)

/-- `find_view` of a canonical name, the name of at most one row. -/
def Server.findView (s : Server) (name : String) : Option ViewRow := s.catalog.views.find? (·.name = name)

/-- What a subscription may be told in one iteration: an error, or what the row found under the
name it asks for says, with the rows of the VIEW in any order. -/
structure Client.Response.Comes (keep : Bool) (row : Option ViewRow) (sub : Client.Subscription) (response : Client.Response) : Prop where
  booted : (∃ e, response.bootstrap = .error (Client.classify sub.epoch e)) ∨
    ∃ view ∈ row, ∃ rows, rows.Perm (view.spec.shown view.storage) ∧ response.bootstrap = .ok (Client.readBoot (status view) rows)
  answered : (∃ e, response.changes = .error (Client.classify sub.epoch e)) ∨
    ∃ view ∈ row, response.changes =
      (Nabla.changes view sub.after sub.epoch sub.batch keep).mapError fun e => Client.classify sub.epoch (.db e.reported)

theorem Client.Response.Comes.silent (keep : Bool) (row : Option ViewRow) (sub : Client.Subscription) :
    Client.Response.Comes keep row sub ⟨.error .disconnected, true, .error .disconnected⟩ :=
  ⟨.inl ⟨.transport, rfl⟩, .inl ⟨.transport, rfl⟩⟩

theorem Client.readBoot_ready {view : ViewRow} {rows : List Json} {snapshot : Client.Snapshot}
    (ready : Client.readBoot (status view) rows = .ready snapshot) :
    view.status = .live ∧ snapshot = ⟨view.epoch, formatLsn view.frontier, view.lastSeq, rows⟩ := by
  cases is : view.status <;> simp only [readBoot, status, is, reduceCtorEq, Boot.ready.injEq] at ready
  exact ⟨rfl, ready.symm⟩

section Records

variable {ch : Chronicle} {id : Nat} {s : Server} {past : List ViewRow} (records : ch.Records id s past)
include records

theorem Chronicle.Records.here {name : String} (denotes : ∀ row ∈ s.findView name, row.id = id) {view : ViewRow}
    (found : view ∈ s.findView name) : ch.Current past view :=
  records.current view (List.mem_of_find?_eq_some found) (denotes view found)

theorem Chronicle.Records.obeys {keep : Bool} {name : String} {sub : Client.Subscription} {response : Client.Response}
    (denotes : ∀ row ∈ s.findView name, row.id = id) (comes : response.Comes keep (s.findView name) sub) : response.Obeys (ch.server keep) sub where
  bootstrap := by
    intro snapshot ready
    rcases comes.booted with ⟨e, failed⟩ | ⟨view, head, rows, _, read⟩
    · rw [failed] at ready
      cases ready
    · have current := records.here denotes head
      obtain ⟨_, rfl⟩ := Client.readBoot_ready (Except.ok.inj (read.symm.trans ready))
      refine ⟨congrArg Int.ofNat current.epoch, ?_⟩
      show (view.lastSeq : Int) = ((ch.written ch.epoch).first : Int) + ((ch.written ch.epoch).deltas.map (LoggedDelta.entry _)).length
      rw [current.keeps.last, List.length_map, Int.natCast_add]
  changes := by
    intro rows answered
    rcases comes.answered with ⟨e, failed⟩ | ⟨view, head, told⟩
    · rw [failed] at answered
      cases answered
    · have current := records.here denotes head
      rw [told] at answered
      cases asked : changes view sub.after sub.epoch sub.batch keep with
      | error e =>
          rw [asked] at answered
          cases answered
      | ok page =>
          rw [asked] at answered
          obtain rfl : page = rows := Except.ok.inj answered
          obtain ⟨served, epoch⟩ := changes_ok asked
          rw [epoch] at asked
          refine ⟨epoch.trans (congrArg Int.ofNat current.epoch), current.keeps.answers _ served ?_ asked⟩
          cases populated : view.populated with
          | false => exact .inl (current.untold populated).1
          | true =>
              rw [current.hidden populated]
              exact .inr rfl

/-- A snapshot is a state the view was in. -/
def Client.Event.ShownBy (past : List ViewRow) : Client.Event → Prop
  | .snapshot epoch frontier cursor rows => ∃ row ∈ past, row.populated = true ∧ epoch = row.epoch ∧ frontier = formatLsn row.frontier ∧
      cursor = row.lastSeq ∧ rows.Perm (row.spec.shown row.storage)
  | _ => True

theorem Chronicle.Records.shows {keep : Bool} {name : String} {sub : Client.Subscription} {response : Client.Response} {known : List ViewRow}
    (present : s.rows id ⊆ known) (denotes : ∀ row ∈ s.findView name, row.id = id) (comes : response.Comes keep (s.findView name) sub)
    {snapshot : Client.Snapshot} (ready : response.bootstrap = .ok (.ready snapshot)) :
    (Client.Event.snapshot snapshot.epoch snapshot.frontier snapshot.cursor snapshot.rows).ShownBy known := by
  rcases comes.booted with ⟨e, failed⟩ | ⟨view, found, rows, same, read⟩
  · rw [failed] at ready
    cases ready
  · have current := records.here denotes found
    obtain ⟨live, rfl⟩ := Client.readBoot_ready (Except.ok.inj (read.symm.trans ready))
    have within := present (Server.mem_rows.mpr ⟨List.mem_of_find?_eq_some found, denotes view found⟩)
    exact ⟨view, within, current.ready.live live, rfl, rfl, rfl, same⟩

end Records

theorem Client.Event.ShownBy.later {past past' : List ViewRow} (more : past ⊆ past') {e : Client.Event} (shown : e.ShownBy past) : e.ShownBy past' := by
  cases e with
  | snapshot epoch frontier cursor rows =>
      obtain ⟨row, member, known⟩ := shown
      exact ⟨row, more member, known⟩
  | transaction xid lsn epoch deltas => trivial
  | resync reason => trivial

def Client.Delta.change (d : Client.Delta) : Bags.Event Json :=
  match d.op with
  | .insert => .add d.row
  | .delete => .remove d.row

def Client.Event.changes : Client.Event → List (Bags.Event Json)
  | .transaction _ _ _ deltas => deltas.map Client.Delta.change
  | _ => []

/-- A subscriber that gets the hidden columns leaves them out of its copy, as the VIEW does. -/
def ViewSpec.ownColumns (spec : ViewSpec) (keep : Bool) : Json → Json := if keep then visible spec else id

theorem Client.changes_events (epoch : Int) (groups : List (List Client.ChangeRow)) :
    (Client.events epoch groups).flatMap Client.Event.changes = groups.flatten.map fun r => r.delta.change := by
  induction groups with
  | nil => rfl
  | cons g groups ih =>
      rw [Client.events, List.map_cons, List.flatMap_cons, ← Client.events, ih, List.flatten_cons, List.map_append, Client.groupEvent,
        Client.Event.changes, List.map_map]
      rfl

theorem LoggedDelta.entry_change (hidden : List String) (d : LoggedDelta) (seq : Int) :
    (Client.ChangeRow.delta ⟨seq, formatLsn d.lsn, some d.xid, d.op.client, d.rowJson.without hidden⟩).change =
      d.delta.event.map (Json.without hidden) := by
  unfold Client.ChangeRow.delta Client.Delta.change LoggedDelta.delta Delta.event
  cases d.op <;> rfl

theorem changes_numberRows (hidden : List String) (seq : Int) (log : List LoggedDelta) :
    ((Client.numberRows seq (log.map (LoggedDelta.entry hidden))).map fun r => r.delta.change) = shownLog hidden log := by
  induction log generalizing seq with
  | nil => rfl
  | cons d log ih =>
      rw [List.map_cons, Client.numberRows, List.map_cons, ih, shownLog, shownLog, List.map_cons]
      exact congrArg (· :: _) (d.entry_change hidden (seq + 1))

theorem Json.without_nil (j : Json) : j.without [] = j := by
  cases j with
  | obj fields => exact congrArg Json.obj (List.filter_eq_self.mpr fun _ _ => rfl)
  | _ => rfl

theorem ViewSpec.ownColumns_shownLog (spec : ViewSpec) (keep : Bool) (log : List LoggedDelta) :
    (shownLog (leftOut keep spec.hiddenColumns) log).map (Bags.Event.map (spec.ownColumns keep)) = shownLog spec.hiddenColumns log := by
  rw [shownLog, shownLog, List.map_map]
  refine List.map_congr_left fun d _ => ?_
  rw [Function.comp_apply]
  cases keep with
  | true =>
      have whole : Json.without (leftOut true spec.hiddenColumns) = id := funext Json.without_nil
      have own : spec.ownColumns true = Json.without spec.hiddenColumns := visible_eq spec
      rw [whole, own]
      cases d.delta.event <;> rfl
  | false =>
      have own : spec.ownColumns false = id := rfl
      rw [own]
      cases d.delta.event <;> rfl

/-- A section of the client's log is one of the epoch's. -/
theorem Written.sections {w : Written} {hidden : List String} {before here later : List Client.ChangeRow}
    (split : (w.client hidden).rows = before ++ (here ++ later)) : ∃ earlier new rest, w.deltas = earlier ++ (new ++ rest) ∧
      before.length = earlier.length ∧ here.length = new.length ∧ (here.map fun r => r.delta.change) = shownLog hidden new := by
  obtain ⟨xs, zs, entries, rfl, after⟩ := Client.numberRows_split split
  obtain ⟨ys, zs', rfl, rfl, _⟩ := Client.numberRows_split after.symm
  obtain ⟨earlier, others, deltas, rfl, others'⟩ := List.map_eq_append_iff.mp entries
  obtain ⟨new, rest, rfl, rfl, _⟩ := List.map_eq_append_iff.mp others'
  refine ⟨earlier, new, rest, deltas, ?_, ?_, changes_numberRows _ _ _⟩
  · rw [Client.length_numberRows, List.length_map]
  · rw [Client.length_numberRows, List.length_map]

theorem Client.Session.chain {batch : Int} {keep busy : Bool} {sub : Client.Subscription} {ch ch' : Chronicle} {out : List Client.Event}
    (session : Client.Session batch busy sub (ch.server keep) out) (chain : Relation.ReflTransGen Chronicle.Next ch ch') :
    Client.Session batch busy sub (ch'.server keep) out := by
  induction chain with
  | refl => exact session
  | tail _ next ih =>
      rcases next.server keep with same | moves
      · rw [same]
        exact ih
      · exact ih.server moves

section Told

variable {ch : Chronicle} {id : Nat} {batch : Int} {keep : Bool} {s : Server} {past : List ViewRow} {row : ViewRow}

/-- The log of an epoch as the client gets it. -/
def Chronicle.told (ch : Chronicle) (keep : Bool) (e : Nat) : Client.Log := (ch.written e).client (leftOut keep (ch.hidden e))

/-- Whole transactions of an epoch's log that follow a state of the view can be played on its
rows, and give the rows of every state at their end. -/
theorem Chronicle.Past.plays (told : ch.Past past) (member : row ∈ past) (populated : row.populated = true)
    {before groups rest : List (List Client.ChangeRow)} (split : (ch.told keep row.epoch).groups = before ++ (groups ++ rest))
    (start : (row.lastSeq : Int) = (ch.written row.epoch).first + before.flatten.length) {rows : List Json}
    (same : rows.Perm (row.spec.shown row.storage)) :
    ∃ copy, patchAll rows (((Client.events row.epoch groups).flatMap Client.Event.changes).map (Bags.Event.map (row.spec.ownColumns keep))) = some copy ∧
      ∀ row' ∈ past, row'.populated = true → row'.epoch = row.epoch → row'.lastSeq = row.lastSeq + groups.flatten.length →
        copy.Perm (row'.spec.shown row'.storage) := by
  have hidden := told.hidden row member populated
  -- what the client was told is the section of the epoch's log from the snapshot on
  obtain ⟨earlier, new, after, deltas, front, middle, changes⟩ := Written.sections (Client.Log.rows_split split)
  have events : ((Client.events row.epoch groups).flatMap Client.Event.changes).map (Bags.Event.map (row.spec.ownColumns keep)) =
      shownLog (ch.hidden row.epoch) new := by
    rw [Client.changes_events, changes, ← hidden, row.spec.ownColumns_shownLog]
  have low : row.lastSeq = (ch.written row.epoch).first + earlier.length := by
    rw [front] at start
    exact Int.ofNat.inj start
  have volume : ch.story.volumes row.epoch = ⟨(ch.written row.epoch).first, shownLog (ch.hidden row.epoch) earlier ++
      (shownLog (ch.hidden row.epoch) new ++ shownLog (ch.hidden row.epoch) after)⟩ := by
    show (ch.written row.epoch).volume (ch.hidden row.epoch) = _
    rw [Written.volume, deltas, shownLog_append, shownLog_append]
  have log : (ch.story.volumes row.epoch).between row.lastSeq (row.lastSeq + new.length) = shownLog (ch.hidden row.epoch) new := by
    have part := @Volume.between_section _ (shownLog (ch.hidden row.epoch) earlier) (shownLog (ch.hidden row.epoch) new)
      (shownLog (ch.hidden row.epoch) after) (ch.written row.epoch).first
    rw [shownLog, shownLog, List.length_map, List.length_map, ← low] at part
    rw [volume]
    exact part
  have within : row.lastSeq + new.length ≤ (ch.story.volumes row.epoch).last := by
    rw [volume, Volume.last, low]
    simp only [shownLog, List.length_append, List.length_map]
    omega
  obtain ⟨copy, played, met⟩ := told.tells.plays (mem_editions member populated) (Nat.le_add_right _ _) within
  obtain ⟨copy', played', perm⟩ := patchAll_perm same.symm played
  refine ⟨copy', ?_, fun row' member' populated' sameEpoch there => ?_⟩
  · rw [events, ← log]
    exact played'
  · rw [middle] at there
    exact perm.symm.trans (met _ (mem_editions member' populated') sameEpoch there)

end Told

end Nabla
