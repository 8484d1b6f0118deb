import Nabla.Isolation

/-! Which description a row is read with: a round takes every relation as the decoder
knows it at the end of the peek, the publisher sent the row under the last description
before it. -/
namespace Nabla

variable {pf : Platform}

def Message.change : Message → Option Change
  | .insert relid new => some (.insert relid new)
  | .update relid old new => some (.update relid old new)
  | .delete relid keyKind old => some (.delete relid keyKind old)
  | .truncate relids => some (.truncate relids)
  | _ => none

def Message.describes (relid : Nat) : Message → Option Relation
  | .relation rel => if rel.id = relid then some rel else none
  | _ => none

def Message.isCommit : Message → Bool
  | .commit _ _ => true
  | _ => false

/-- `decode` leaves the type names of a description open. -/
def Message.Fresh : Message → Prop
  | .relation rel => ∀ c ∈ rel.columns, c.typeName = none
  | _ => True

def lastDescription (messages : List Message) (relid : Nat) : Option Relation :=
  messages.reverse.findSome? (Message.describes relid)

def Relation.typed (pf : Platform) (rel : Relation) : List (String × Option String) :=
  rel.columns.map fun c => (c.name, pf.formatType c.typid c.typmod)

def Relation.resolved (rel : Relation) : List (String × Option String) := rel.columns.map fun c => (c.name, c.typeName)

/-- One peek as `apply_round` works on it: its transactions, and the description of each
changed relation. -/
structure Reading where
  transactions : List SourceTransaction
  relations : List (Nat × Relation)

def Decoder.read (pf : Platform) (d : Decoder) (peek : List Message) : Except String (Decoder × Reading) :=
  match d.feedAll peek with
  | .error e => .error e
  | .ok fed =>
    let (txs, rest) := fed.discardIncomplete.takeComplete
    match collectRelations pf (changedRelids txs) rest.relations [] with
    | .error e => .error e
    | .ok (cache, rels) => .ok ({ rest with relations := cache }, ⟨txs, rels⟩)

def Decoder.readAll (pf : Platform) (d : Decoder) : List (List Message) → Except String (List Reading)
  | [] => .ok []
  | peek :: peeks =>
    match d.read pf peek with
    | .error e => .error e
    | .ok (d', reading) => (d'.readAll pf peeks).map (reading :: ·)

theorem lastDescription_append (a b : List Message) (relid : Nat) :
    lastDescription (a ++ b) relid = (lastDescription b relid).or (lastDescription a relid) := by
  rw [lastDescription, List.reverse_append, List.findSome?_append]
  rfl

theorem lastDescription_singleton (m : Message) (relid : Nat) : lastDescription [m] relid = m.describes relid := by
  rw [lastDescription, List.reverse_singleton, List.findSome?_singleton]

/-- A resolved type name is the one the platform gives. -/
def Resolvable (pf : Platform) (columns : List RelationColumn) : Prop :=
  ∀ c ∈ columns, ∀ ty, c.typeName = some ty → pf.formatType c.typid c.typmod = some ty

/-- The cache describes every relation as the messages did last. -/
structure Remembers (pf : Platform) (history : List Message) (cache : Nat → Option Relation) : Prop where
  described : ∀ relid, (cache relid).map (Relation.typed pf) = (lastDescription history relid).map (Relation.typed pf)
  resolvable : ∀ relid rel, cache relid = some rel → Resolvable pf rel.columns

theorem keepTypes_typed (columns olds : List RelationColumn) :
    (keepTypes columns olds).map (fun c => (c.name, pf.formatType c.typid c.typmod)) =
      columns.map fun c => (c.name, pf.formatType c.typid c.typmod) := by
  induction columns generalizing olds with
  | nil => cases olds <;> rfl
  | cons col cols ih =>
      cases olds with
      | nil => rfl
      | cons old olds =>
          rw [keepTypes, List.map_cons, ih, List.map_cons]
          split <;> rfl

theorem keepTypes_resolvable {columns olds : List RelationColumn} (fresh : ∀ c ∈ columns, c.typeName = none)
    (resolvable : Resolvable pf olds) : Resolvable pf (keepTypes columns olds) := by
  induction columns generalizing olds with
  | nil =>
      intro c member
      cases olds <;> exact absurd member List.not_mem_nil
  | cons col cols ih =>
      have open' : Resolvable pf (col :: cols) := by
        intro c member ty typed
        rw [fresh c member] at typed
        exact absurd typed (Option.some_ne_none ty).symm
      cases olds with
      | nil => exact open'
      | cons old olds =>
          intro c member ty typed
          rw [keepTypes, List.mem_cons] at member
          rcases member with rfl | later
          · split at typed
            · rename_i same
              rw [if_pos same, same.2.1, same.2.2]
              exact resolvable old List.mem_cons_self ty typed
            · rename_i other
              rw [if_neg other]
              exact open' col List.mem_cons_self ty typed
          · exact ih (fun c member => fresh c (List.mem_cons_of_mem _ member))
              (fun c member => resolvable c (List.mem_cons_of_mem _ member)) c later ty typed

theorem Remembers.describe {history : List Message} {d : Decoder} {rel : Relation} (remembers : Remembers pf history d.relations)
    (fresh : ∀ c ∈ rel.columns, c.typeName = none) :
    Remembers pf (history ++ [.relation rel]) (d.describe rel).relations where
  described := by
    intro relid
    rw [lastDescription_append, lastDescription_singleton, Message.describes]
    by_cases here : relid = rel.id
    · subst here
      rw [if_pos rfl, Decoder.describe, Option.some_or]
      dsimp only
      rw [if_pos rfl]
      cases d.relations rel.id with
      | none => rfl
      | some prev => exact congrArg some (keepTypes_typed rel.columns prev.columns)
    · rw [if_neg (Ne.symm here), Option.none_or, ← remembers.described relid, Decoder.describe]
      dsimp only
      rw [if_neg here]
  resolvable := by
    intro relid kept found
    rw [Decoder.describe] at found
    dsimp only at found
    by_cases here : relid = rel.id
    · rw [if_pos here] at found
      obtain rfl := Option.some.inj found
      cases known : d.relations rel.id with
      | none =>
          intro c member ty typed
          rw [fresh c member] at typed
          exact absurd typed (Option.some_ne_none ty).symm
      | some prev => exact keepTypes_resolvable fresh (remembers.resolvable rel.id prev known)
    · rw [if_neg here] at found
      exact remembers.resolvable relid kept found

theorem lastDescription_row {history : List Message} {m : Message} {relid : Nat} (row : m.describes relid = none) :
    lastDescription (history ++ [m]) relid = lastDescription history relid := by
  rw [lastDescription_append, lastDescription_singleton, row, Option.none_or]

theorem Remembers.same {history : List Message} {cache : Nat → Option Relation} (remembers : Remembers pf history cache)
    {m : Message} (row : ∀ relid, m.describes relid = none) : Remembers pf (history ++ [m]) cache where
  described := fun relid => (lastDescription_row (row relid)).symm ▸ remembers.described relid
  resolvable := remembers.resolvable

theorem Decoder.push_cases {d d' : Decoder} {change : Change} (pushed : d.push change = .ok d') :
    ∃ tx, d.current = some tx ∧ d' = { d with current := some { tx with changes := tx.changes ++ [change] } } := by
  unfold Decoder.push at pushed
  cases current : d.current with
  | none => simp only [current, reduceCtorEq] at pushed
  | some tx =>
      simp only [current, Except.ok.injEq] at pushed
      exact ⟨tx, rfl, pushed.symm⟩

/-- What feeding one message does to the decoder. -/
inductive Fed (d : Decoder) : Message → Decoder → Prop where
  | begun {finalLsn xid : Nat} (outside : d.current = none) :
      Fed d (.begin finalLsn xid) { d with current := some ⟨xid, finalLsn, 0, []⟩ }
  | committed {commitLsn endLsn : Nat} {tx : SourceTransaction} (current : d.current = some tx) :
      Fed d (.commit commitLsn endLsn) { d with current := none, complete := d.complete ++ [{ tx with commitLsn, endLsn }] }
  | described {rel : Relation} : Fed d (.relation rel) (d.describe rel)
  | pushed {m : Message} {change : Change} {tx : SourceTransaction} (row : m.change = some change) (current : d.current = some tx) :
      Fed d m { d with current := some { tx with changes := tx.changes ++ [change] } }
  | ignored {kind : UInt8} : Fed d (.ignored kind) d

theorem Decoder.feed_cases {d d' : Decoder} {m : Message} (fed : d.feed m = .ok d') : Fed d m d' := by
  cases m with
  | begin finalLsn xid =>
      rw [Decoder.feed] at fed
      cases current : d.current with
      | none =>
          simp only [current, Option.isSome_none, Bool.false_eq_true, if_false, Except.ok.injEq] at fed
          exact fed ▸ .begun current
      | some tx => simp only [current, Option.isSome_some, if_true, reduceCtorEq] at fed
  | commit commitLsn endLsn =>
      rw [Decoder.feed] at fed
      cases current : d.current with
      | none => simp only [current, reduceCtorEq] at fed
      | some tx =>
          simp only [current, Except.ok.injEq] at fed
          exact fed ▸ .committed current
  | relation rel =>
      obtain rfl := Except.ok.inj fed
      exact .described
  | insert relid new =>
      obtain ⟨tx, current, rfl⟩ := Decoder.push_cases fed
      exact .pushed rfl current
  | update relid old new =>
      obtain ⟨tx, current, rfl⟩ := Decoder.push_cases fed
      exact .pushed rfl current
  | delete relid keyKind old =>
      obtain ⟨tx, current, rfl⟩ := Decoder.push_cases fed
      exact .pushed rfl current
  | truncate relids =>
      obtain ⟨tx, current, rfl⟩ := Decoder.push_cases fed
      exact .pushed rfl current
  | ignored kind =>
      obtain rfl := Except.ok.inj fed
      exact .ignored

theorem Message.describes_row {m : Message} {change : Change} (row : m.change = some change) (relid : Nat) :
    m.describes relid = none := by
  cases m <;> first | rfl | exact absurd row (Option.some_ne_none change).symm

theorem Remembers.feed {history : List Message} {d d' : Decoder} {m : Message} (remembers : Remembers pf history d.relations)
    (fresh : m.Fresh) (fed : d.feed m = .ok d') : Remembers pf (history ++ [m]) d'.relations := by
  cases Decoder.feed_cases fed with
  | begun outside => exact remembers.same fun _ => rfl
  | committed current => exact remembers.same fun _ => rfl
  | described => exact remembers.describe fresh
  | pushed row current => exact remembers.same (Message.describes_row row)
  | ignored => exact remembers.same fun _ => rfl

theorem Decoder.feedAll_cons {d d' : Decoder} {m : Message} {messages : List Message} (fed : d.feedAll (m :: messages) = .ok d') :
    ∃ d₁, d.feed m = .ok d₁ ∧ d₁.feedAll messages = .ok d' := by
  rw [Decoder.feedAll] at fed
  cases one : d.feed m with
  | error e => simp only [one, reduceCtorEq] at fed
  | ok d₁ =>
      rw [one] at fed
      exact ⟨d₁, rfl, fed⟩

theorem Remembers.feedAll {history messages : List Message} {d d' : Decoder} (remembers : Remembers pf history d.relations)
    (fresh : ∀ m ∈ messages, m.Fresh) (fed : d.feedAll messages = .ok d') : Remembers pf (history ++ messages) d'.relations := by
  induction messages generalizing history d with
  | nil =>
      obtain rfl := Except.ok.inj fed
      rwa [List.append_nil]
  | cons m messages ih =>
      obtain ⟨d₁, one, rest⟩ := Decoder.feedAll_cons fed
      rw [List.append_cons]
      exact ih (remembers.feed (fresh m List.mem_cons_self) one) (fun n member => fresh n (List.mem_cons_of_mem _ member)) rest

theorem resolveTypes_cons {col : RelationColumn} {cols columns' : List RelationColumn} (resolvable : Resolvable pf [col])
    (resolved : resolveTypes pf (col :: cols) = .ok columns') :
    ∃ ty rest, pf.formatType col.typid col.typmod = some ty ∧ resolveTypes pf cols = .ok rest ∧
      columns' = { col with typeName := some ty } :: rest := by
  rw [resolveTypes] at resolved
  cases named : col.typeName with
  | some ty =>
      simp only [named] at resolved
      obtain ⟨rest, ok, rfl⟩ := ok_of_map resolved
      refine ⟨ty, rest, resolvable col List.mem_cons_self ty named, ok, ?_⟩
      rw [← named]
  | none =>
      simp only [named] at resolved
      cases format : pf.formatType col.typid col.typmod with
      | none => simp only [format, reduceCtorEq] at resolved
      | some ty =>
          simp only [format] at resolved
          obtain ⟨rest, ok, rfl⟩ := ok_of_map resolved
          exact ⟨ty, rest, rfl, ok, rfl⟩

theorem resolveTypes_typed {columns columns' : List RelationColumn} (resolvable : Resolvable pf columns)
    (resolved : resolveTypes pf columns = .ok columns') :
    columns'.map (fun c => (c.name, c.typeName)) = columns.map (fun c => (c.name, pf.formatType c.typid c.typmod)) ∧
    columns'.map (fun c => (c.name, pf.formatType c.typid c.typmod)) =
      columns.map (fun c => (c.name, pf.formatType c.typid c.typmod)) ∧ Resolvable pf columns' := by
  induction columns generalizing columns' with
  | nil =>
      obtain rfl := Except.ok.inj resolved
      exact ⟨rfl, rfl, resolvable⟩
  | cons col cols ih =>
      have here : Resolvable pf [col] := fun c member => resolvable c (List.mem_singleton.mp member ▸ List.mem_cons_self)
      obtain ⟨ty, rest, format, ok, rfl⟩ := resolveTypes_cons here resolved
      obtain ⟨names, types, later⟩ := ih (fun c member => resolvable c (List.mem_cons_of_mem _ member)) ok
      refine ⟨?_, ?_, ?_⟩
      · rw [List.map_cons, names, List.map_cons, format]
      · rw [List.map_cons, types, List.map_cons]
      · intro c member ty' typed
        rcases List.mem_cons.mp member with rfl | after
        · exact format.trans typed
        · exact later c after ty' typed

/-- The descriptions a round has collected bind as the messages described last. -/
structure Collected (pf : Platform) (history : List Message) (rels : List (Nat × Relation)) : Prop where
  bound : ∀ relid rel, (relid, rel) ∈ rels →
    ∃ last, lastDescription history relid = some last ∧ rel.resolved = last.typed pf

theorem Remembers.resolve {history : List Message} {cache : Nat → Option Relation} (remembers : Remembers pf history cache)
    {relid : Nat} {rel : Relation} {columns : List RelationColumn} (known : cache relid = some rel)
    (resolved : resolveTypes pf rel.columns = .ok columns) :
    Remembers pf history (fun id => if id = relid then some { rel with columns } else cache id) ∧
    ∃ last, lastDescription history relid = some last ∧ Relation.resolved { rel with columns } = last.typed pf := by
  have typed := resolveTypes_typed (remembers.resolvable relid rel known) resolved
  have described := remembers.described relid
  rw [known, Option.map_some] at described
  obtain ⟨last, inForce, same⟩ := Option.map_eq_some_iff.mp described.symm
  refine ⟨⟨fun id => ?_, fun id kept found => ?_⟩, last, inForce, typed.1.trans same.symm⟩
  · by_cases here : id = relid
    · subst here
      rw [if_pos rfl, ← remembers.described id, known]
      exact congrArg some typed.2.1
    · rw [if_neg here]
      exact remembers.described id
  · by_cases here : id = relid
    · rw [if_pos here] at found
      obtain rfl := Option.some.inj found
      exact typed.2.2
    · rw [if_neg here] at found
      exact remembers.resolvable id kept found

theorem Remembers.collect {history : List Message} {cache cache' : Nat → Option Relation} {relids : List Nat}
    {rels rels' : List (Nat × Relation)} (remembers : Remembers pf history cache) (before : Collected pf history rels)
    (collected : collectRelations pf relids cache rels = .ok (cache', rels')) :
    Remembers pf history cache' ∧ Collected pf history rels' ∧
      ∀ relid, (relid ∈ relids ∨ (rels.lookup relid).isSome) → (rels'.lookup relid).isSome := by
  induction relids generalizing cache rels with
  | nil =>
      obtain ⟨rfl, rfl⟩ := Prod.mk.inj (Except.ok.inj collected)
      exact ⟨remembers, before, fun relid known => known.resolve_left List.not_mem_nil⟩
  | cons relid relids ih =>
      rw [collectRelations] at collected
      by_cases seen : (rels.lookup relid).isSome = true
      · rw [if_pos seen] at collected
        obtain ⟨kept, bound, found⟩ := ih remembers before collected
        refine ⟨kept, bound, fun r known => found r ?_⟩
        rcases known with member | earlier
        · rcases List.mem_cons.mp member with rfl | later
          · exact .inr seen
          · exact .inl later
        · exact .inr earlier
      · rw [if_neg seen] at collected
        cases known : cache relid with
        | none => simp only [known, reduceCtorEq] at collected
        | some rel =>
            cases resolved : resolveTypes pf rel.columns with
            | error e => simp only [known, resolved, reduceCtorEq] at collected
            | ok columns =>
                simp only [known, resolved] at collected
                obtain ⟨remembers₁, last, inForce, same⟩ := remembers.resolve known resolved
                have before₁ : Collected pf history (rels ++ [(relid, { rel with columns })]) := by
                  constructor
                  intro r rel' member
                  rcases List.mem_append.mp member with earlier | here
                  · exact before.bound r rel' earlier
                  · obtain ⟨rfl, rfl⟩ := Prod.mk.inj (List.mem_singleton.mp here)
                    exact ⟨last, inForce, same⟩
                obtain ⟨kept, bound, found⟩ := ih remembers₁ before₁ collected
                refine ⟨kept, bound, fun r wanted => found r ?_⟩
                rw [List.lookup_append, Option.isSome_or]
                rcases wanted with member | earlier
                · rcases List.mem_cons.mp member with rfl | later
                  · right
                    rw [List.lookup_cons, BEq.rfl, Option.isSome_some, Bool.or_true]
                  · exact .inl later
                · right
                  rw [earlier, Bool.true_or]

/-- The decoder has the change in a transaction, complete or not. -/
def Decoder.Holds (d : Decoder) (change : Change) : Prop :=
  (∃ tx ∈ d.current, change ∈ tx.changes) ∨ ∃ tx ∈ d.complete, change ∈ tx.changes

theorem Fed.holds {d d' : Decoder} {m : Message} {change : Change} (fed : Fed d m d') (held : d.Holds change) :
    d'.Holds change := by
  cases fed with
  | begun outside =>
      rcases held with ⟨tx, here, _⟩ | ⟨tx, done, within⟩
      · rw [outside] at here
        exact absurd here (Option.not_mem_none tx)
      · exact .inr ⟨tx, done, within⟩
  | committed current =>
      rcases held with ⟨tx, here, within⟩ | ⟨tx, done, within⟩
      · rw [current] at here
        obtain rfl := Option.some.inj here
        exact .inr ⟨_, List.mem_append_right _ List.mem_cons_self, within⟩
      · exact .inr ⟨tx, List.mem_append_left _ done, within⟩
  | described => exact held
  | pushed row current =>
      rcases held with ⟨tx, here, within⟩ | done
      · rw [current] at here
        obtain rfl := Option.some.inj here
        exact .inl ⟨_, rfl, List.mem_append_left _ within⟩
      · exact .inr done
  | ignored => exact held

theorem Fed.complete {d d' : Decoder} {m : Message} (fed : Fed d m d') : ∀ tx ∈ d.complete, tx ∈ d'.complete := by
  intro tx done
  cases fed with
  | committed current => exact List.mem_append_left _ done
  | _ => exact done

theorem Decoder.feedAll_complete {d d' : Decoder} {messages : List Message} (fed : d.feedAll messages = .ok d') :
    ∀ tx ∈ d.complete, tx ∈ d'.complete := by
  induction messages generalizing d with
  | nil =>
      obtain rfl := Except.ok.inj fed
      exact fun tx done => done
  | cons m messages ih =>
      obtain ⟨d₁, one, rest⟩ := Decoder.feedAll_cons fed
      exact fun tx done => ih rest tx ((Decoder.feed_cases one).complete tx done)

theorem Decoder.feedAll_holds {d d' : Decoder} {messages : List Message} {change : Change} (held : d.Holds change)
    (committed : messages.any Message.isCommit = true) (fed : d.feedAll messages = .ok d') :
    ∃ tx ∈ d'.complete, change ∈ tx.changes := by
  induction messages generalizing d with
  | nil => exact absurd committed Bool.false_ne_true
  | cons m messages ih =>
      obtain ⟨d₁, one, rest⟩ := Decoder.feedAll_cons fed
      have step := Decoder.feed_cases one
      have after := step.holds held
      by_cases last : m.isCommit = true
      · -- nothing is open after a COMMIT
        have outside : d₁.current = none := by
          cases step with
          | committed current => rfl
          | pushed row current => cases m <;> first | exact absurd last Bool.false_ne_true | exact absurd row (Option.some_ne_none _).symm
          | _ => exact absurd last Bool.false_ne_true
        rcases after with ⟨tx, here, _⟩ | ⟨tx, done, within⟩
        · rw [outside] at here
          exact absurd here (Option.not_mem_none tx)
        · exact ⟨tx, Decoder.feedAll_complete rest tx done, within⟩
      · rw [List.any_cons, Bool.eq_false_iff.mpr last, Bool.false_or] at committed
        exact ih after committed rest

theorem Decoder.feedAll_row {d d' : Decoder} {earlier later : List Message} {m : Message} {change : Change}
    (row : m.change = some change) (committed : later.any Message.isCommit = true)
    (fed : d.feedAll (earlier ++ m :: later) = .ok d') : ∃ tx ∈ d'.complete, change ∈ tx.changes := by
  induction earlier generalizing d with
  | nil =>
      obtain ⟨d₁, one, rest⟩ := Decoder.feedAll_cons fed
      refine Decoder.feedAll_holds ?_ committed rest
      cases Decoder.feed_cases one with
      | pushed row' current =>
          obtain rfl := Option.some.inj (row'.symm.trans row)
          exact .inl ⟨_, rfl, List.mem_append_right _ List.mem_cons_self⟩
      | _ => exact absurd row (Option.some_ne_none change).symm
  | cons n earlier ih =>
      obtain ⟨d₁, one, rest⟩ := Decoder.feedAll_cons fed
      exact ih rest

theorem Decoder.read_cases {d d' : Decoder} {peek : List Message} {reading : Reading} (read : d.read pf peek = .ok (d', reading)) :
    ∃ fed cache, d.feedAll peek = .ok fed ∧
      collectRelations pf (changedRelids fed.complete) fed.relations [] = .ok (cache, reading.relations) ∧
      reading.transactions = fed.complete ∧ d' = ⟨cache, none, []⟩ := by
  unfold Decoder.read at read
  cases fed : d.feedAll peek with
  | error e => simp only [fed, reduceCtorEq] at read
  | ok f =>
      simp only [fed, Decoder.discardIncomplete, Decoder.takeComplete] at read
      cases collected : collectRelations pf (changedRelids f.complete) f.relations [] with
      | error e => simp only [collected, reduceCtorEq] at read
      | ok r =>
          simp only [collected, Except.ok.injEq, Prod.mk.injEq] at read
          obtain ⟨rfl, rfl⟩ := read
          exact ⟨f, r.1, rfl, collected, rfl, rfl⟩

/-- A row of a peek that the round works on: it is in a complete transaction. -/
structure RowAt (peek earlier : List Message) (change : Change) (later : List Message) : Prop where
  split : ∃ m, m.change = some change ∧ peek = earlier ++ m :: later
  committed : later.any Message.isCommit = true

/-- Every row is read with all the columns, by name and type, under which it was sent: the
values of its tuples are bound to them one by one, and a plan asks for no other. -/
def ReadInForce (pf : Platform) (peeks : List (List Message)) (readings : List Reading) : Prop :=
  ∀ before peek after, peeks = before ++ peek :: after → ∀ reading, readings[before.length]? = some reading →
    ∀ earlier change later, RowAt peek earlier change later → change.tuples ≠ [] → ∀ relid ∈ change.relids,
      (reading.relations.lookup relid).map Relation.resolved =
        (lastDescription (before.flatten ++ earlier) relid).map (Relation.typed pf)

/-- A relation that is described again behind a row ends its peek with a description of the
same columns. -/
def DescribedAlike (pf : Platform) (peeks : List (List Message)) : Prop :=
  ∀ before peek after, peeks = before ++ peek :: after →
    ∀ earlier change later, RowAt peek earlier change later → change.tuples ≠ [] → ∀ relid ∈ change.relids,
      ∀ last, lastDescription later relid = some last →
        some (last.typed pf) = (lastDescription (before.flatten ++ earlier) relid).map (Relation.typed pf)

/-- A reading binds as the peek described last. -/
theorem Remembers.read {history peek : List Message} {d d' : Decoder} {reading : Reading} (remembers : Remembers pf history d.relations)
    (fresh : ∀ m ∈ peek, m.Fresh) (read : d.read pf peek = .ok (d', reading)) :
    Remembers pf (history ++ peek) d'.relations ∧
      ∀ earlier change later, RowAt peek earlier change later → ∀ relid ∈ change.relids,
        ∃ rel last, reading.relations.lookup relid = some rel ∧ lastDescription (history ++ peek) relid = some last ∧
          rel.resolved = last.typed pf := by
  obtain ⟨fed, cache, ok, collected, _, rfl⟩ := Decoder.read_cases read
  have described := remembers.feedAll fresh ok
  have empty : Collected pf (history ++ peek) [] := ⟨fun relid rel member => absurd member List.not_mem_nil⟩
  obtain ⟨kept, bound, found⟩ := described.collect empty collected
  refine ⟨kept, fun earlier change later row relid member => ?_⟩
  obtain ⟨⟨m, sent, rfl⟩, committed⟩ := row
  obtain ⟨tx, done, within⟩ := Decoder.feedAll_row sent committed ok
  have changed : relid ∈ changedRelids fed.complete :=
    List.mem_flatMap.mpr ⟨tx, done, List.mem_flatMap.mpr ⟨change, within, member⟩⟩
  obtain ⟨rel, known⟩ := Option.isSome_iff_exists.mp (found relid (.inl changed))
  obtain ⟨last, inForce, same⟩ := bound.bound relid rel (by
    obtain ⟨_, _, split, _⟩ := List.lookup_eq_some_iff.mp known
    exact split ▸ List.mem_append_right _ List.mem_cons_self)
  exact ⟨rel, last, known, inForce, same⟩

theorem Decoder.readAll_at {peeks before after : List (List Message)} {history peek : List Message} {d : Decoder}
    {readings : List Reading} (remembers : Remembers pf history d.relations) (fresh : ∀ m ∈ peeks.flatten, m.Fresh)
    (ran : d.readAll pf peeks = .ok readings) (split : peeks = before ++ peek :: after) :
    ∃ d₁ d₂ : Decoder, ∃ reading, readings[before.length]? = some reading ∧ d₁.read pf peek = .ok (d₂, reading) ∧
      Remembers pf (history ++ before.flatten) d₁.relations := by
  induction before generalizing peeks history d readings with
  | nil =>
      subst split
      rw [List.nil_append, Decoder.readAll] at ran
      cases one : d.read pf peek with
      | error e => simp only [one, reduceCtorEq] at ran
      | ok r =>
          obtain ⟨d₂, reading⟩ := r
          simp only [one] at ran
          obtain ⟨rest, _, rfl⟩ := ok_of_map ran
          refine ⟨d, d₂, reading, rfl, one, ?_⟩
          rwa [List.flatten_nil, List.append_nil]
  | cons first before ih =>
      subst split
      rw [List.cons_append, Decoder.readAll] at ran
      rw [List.cons_append, List.flatten_cons] at fresh
      cases one : d.read pf first with
      | error e => simp only [one, reduceCtorEq] at ran
      | ok r =>
          obtain ⟨d₂, reading⟩ := r
          simp only [one] at ran
          obtain ⟨rest, tail, rfl⟩ := ok_of_map ran
          have step := (remembers.read (fun m member => fresh m (List.mem_append_left _ member)) one).1
          obtain ⟨d₃, d₄, found, at', read, kept⟩ := ih step (fun m member => fresh m (List.mem_append_right _ member)) tail rfl
          refine ⟨d₃, d₄, found, ?_, read, ?_⟩
          · rwa [List.length_cons, List.getElem?_cons_succ]
          · rwa [List.flatten_cons, ← List.append_assoc]

/-- Over every stream and every way to cut it into peeks, the rows are read under the
description they were sent with exactly when no relation is described with other columns
at the end of the same peek. -/
theorem Decoder.readAll_inForce_iff {peeks : List (List Message)} {readings : List Reading}
    (fresh : ∀ m ∈ peeks.flatten, m.Fresh) (ran : Decoder.readAll pf {} peeks = .ok readings) :
    ReadInForce pf peeks readings ↔ DescribedAlike pf peeks := by
  have start : Remembers pf [] ({} : Decoder).relations := by
    constructor
    · exact fun relid => rfl
    · exact fun relid rel found => absurd found (Option.some_ne_none rel).symm
  -- what a row is read with, and how that follows from what is described behind it
  have reads : ∀ before peek after, peeks = before ++ peek :: after → ∃ reading, readings[before.length]? = some reading ∧
      ∀ earlier change later, RowAt peek earlier change later → ∀ relid ∈ change.relids,
        (reading.relations.lookup relid).map Relation.resolved =
          ((lastDescription later relid).or (lastDescription (before.flatten ++ earlier) relid)).map (Relation.typed pf) := by
    intro before peek after split
    obtain ⟨d₁, d₂, reading, found, read, remembers⟩ := Decoder.readAll_at start fresh ran split
    rw [List.nil_append] at remembers
    have peekFresh : ∀ m ∈ peek, m.Fresh := by
      intro m member
      refine fresh m (split ▸ List.mem_flatten.mpr ⟨peek, List.mem_append_right _ List.mem_cons_self, member⟩)
    refine ⟨reading, found, fun earlier change later row relid member => ?_⟩
    obtain ⟨rel, last, known, inForce, same⟩ := (remembers.read peekFresh read).2 earlier change later row relid member
    obtain ⟨⟨m, sent, rfl⟩, _⟩ := row
    have final : lastDescription (before.flatten ++ (earlier ++ m :: later)) relid =
        (lastDescription later relid).or (lastDescription (before.flatten ++ earlier) relid) := by
      rw [← List.append_assoc, List.append_cons, lastDescription_append, lastDescription_row (Message.describes_row sent relid)]
    rw [known, Option.map_some, same, ← final, inForce, Option.map_some]
  constructor
  · intro inForce before peek after split earlier change later row tuples relid member last again
    obtain ⟨reading, found, bound⟩ := reads before peek after split
    rw [← inForce before peek after split reading found earlier change later row tuples relid member,
      bound earlier change later row relid member, again, Option.some_or, Option.map_some]
  · intro alike before peek after split reading found earlier change later row tuples relid member
    obtain ⟨reading', found', bound⟩ := reads before peek after split
    obtain rfl := Option.some.inj (found.symm.trans found')
    rw [bound earlier change later row relid member]
    cases again : lastDescription later relid with
    | none => rw [Option.none_or]
    | some last =>
        rw [Option.some_or, Option.map_some]
        exact alike before peek after split earlier change later row tuples relid member last again

def itemColumn (name : String) : RelationColumn := ⟨name, false, 25, -1, none⟩

def itemRelation (names : List String) : Relation := ⟨1, "public", "items", 100, names.map itemColumn⟩

/-- Column `a` is dropped between two transactions. -/
def itemsBefore : List Message :=
  [.begin 10 1, .relation (itemRelation ["id", "a", "b"]), .insert 1 [.text "1", .text "x", .text "y"], .commit 10 11]

def itemsAfter : List Message :=
  [.begin 20 2, .relation (itemRelation ["id", "b"]), .insert 1 [.text "2", .text "z"], .commit 20 21]

theorem itemsBefore_fresh : ∀ m ∈ itemsBefore, m.Fresh := by
  intro m member
  simp only [itemsBefore, List.mem_cons, List.not_mem_nil, or_false] at member
  rcases member with rfl | rfl | rfl | rfl
  · trivial
  · intro c within
    obtain ⟨name, _, rfl⟩ := List.mem_map.mp within
    rfl
  · trivial
  · trivial

theorem itemsAfter_fresh : ∀ m ∈ itemsAfter, m.Fresh := by
  intro m member
  simp only [itemsAfter, List.mem_cons, List.not_mem_nil, or_false] at member
  rcases member with rfl | rfl | rfl | rfl
  · trivial
  · intro c within
    obtain ⟨name, _, rfl⟩ := List.mem_map.mp within
    rfl
  · trivial
  · trivial

/-- The two transactions in peeks of their own. -/
theorem items_inForce_iff : ∃ readings, Decoder.readAll .basic {} [itemsBefore, itemsAfter] = .ok readings ∧
    (ReadInForce .basic [itemsBefore, itemsAfter] readings ↔ DescribedAlike .basic [itemsBefore, itemsAfter]) := by
  refine ⟨_, rfl, Decoder.readAll_inForce_iff ?_ rfl⟩
  intro m member
  rcases List.mem_append.mp member with first | second
  · exact itemsBefore_fresh m first
  · exact itemsAfter_fresh m (by rwa [List.flatten_singleton] at second)

/-- In one peek the first row's `a` is read as `b`. -/
theorem items_misread : ¬ ∀ (pf : Platform) (peeks : List (List Message)) (readings : List Reading),
    (∀ m ∈ peeks.flatten, m.Fresh) → Decoder.readAll pf {} peeks = .ok readings → ReadInForce pf peeks readings := by
  intro always
  have fresh : ∀ m ∈ [itemsBefore ++ itemsAfter].flatten, m.Fresh := by
    intro m member
    rw [List.flatten_singleton] at member
    exact (List.mem_append.mp member).elim (itemsBefore_fresh m) (itemsAfter_fresh m)
  have inForce := always .basic [itemsBefore ++ itemsAfter] _ fresh rfl [] _ [] rfl _ rfl
    [.begin 10 1, .relation (itemRelation ["id", "a", "b"])] (.insert 1 [.text "1", .text "x", .text "y"])
    (.commit 10 11 :: itemsAfter) ⟨⟨_, rfl, rfl⟩, rfl⟩ (List.cons_ne_nil _ _) 1 List.mem_cons_self
  revert inForce
  decide

end Nabla
