import Nabla.Isolation

/-! The names `create_view` gives, and the channel on which a round notifies them. -/
namespace Nabla
open Bags

/-- A part of a name as the parser returns it: not empty, and cut to 63 bytes. -/
structure Identifier where
  text : String
  some : text ≠ ""
  short : text.utf8ByteSize ≤ 63

def doubleQuoted (ident : String) : String :=
  "\"" ++ String.ofList (ident.toList.flatMap fun c => if c = '"' then [c, c] else [c]) ++ "\""

/-- `quote_identifier`: unchanged when it reads back as itself, else in double quotes. -/
def quoteIdentifier (reserved : String → Bool) (ident : String) : String :=
  let plain := ident.toList.all fun c => c.isLower || c.isDigit || c == '_'
  let starts := ident.toList.head?.any fun c => c.isLower || c == '_'
  if plain && starts && !reserved ident then ident
  else doubleQuoted ident

/-- `creation_name`: the explicit schema, or the creation namespace of the search path. -/
def creationName (reserved : String → Bool) (namespace_ : Identifier) (schema : Option Identifier) (rel : Identifier) :
    String :=
  quoteIdentifier reserved (schema.getD namespace_).text ++ "." ++ quoteIdentifier reserved rel.text

theorem utf8ByteSize_ofList_le (cs : List Char) : (String.ofList cs).utf8ByteSize ≤ 4 * cs.length := by
  induction cs with
  | nil => exact Nat.le_of_eq rfl
  | cons c cs ih =>
      rw [← List.singleton_append, String.ofList_append, String.utf8ByteSize_append, List.length_append,
        List.length_singleton]
      have first : (String.ofList [c]).utf8ByteSize ≤ 4 := by
        rw [← String.singleton_eq_ofList, String.utf8ByteSize_singleton]
        exact c.utf8Size_le_four
      omega

theorem utf8ByteSize_hexUpper {n k : Nat} (some : 0 < k) (le : n < 16 ^ k) : (hexUpper n).utf8ByteSize ≤ 4 * k := by
  have digits := (Nat.length_toDigits_le_iff (b := 16) (by omega) some).mpr le
  have bytes := utf8ByteSize_ofList_le ((Nat.toDigits 16 n).map Char.toUpper)
  rw [List.length_map] at bytes
  rw [hexUpper]
  omega

theorem payload_short {seq lsn : Nat} (bigint : seq < 2 ^ 63) (position : lsn < 2 ^ 64) :
    s!"{seq}:{formatLsn lsn}".utf8ByteSize < 8000 := by
  have seqDigits : (Nat.repr seq).utf8ByteSize ≤ 4 * 19 := by
    have digits := (Nat.length_repr_le_iff (n := seq) (k := 19) (by omega)).mpr (by omega)
    have bytes := utf8ByteSize_ofList_le (Nat.repr seq).toList
    rw [String.ofList_toList, String.length_toList] at bytes
    omega
  have upper := utf8ByteSize_hexUpper (n := lsn / 2 ^ 32) (k := 8) (by omega) (by omega)
  have lower := utf8ByteSize_hexUpper (n := lsn % 2 ^ 32) (k := 8) (by omega) (by omega)
  show (Nat.repr seq ++ ":" ++ formatLsn lsn).utf8ByteSize < 8000
  rw [formatLsn]
  simp only [String.utf8ByteSize_append]
  have colon : ":".utf8ByteSize = 1 := rfl
  have slash : "/".utf8ByteSize = 1 := rfl
  omega

theorem notify_ok_iff {name payload : String} (short : payload.utf8ByteSize < 8000) :
    (∃ u, notify s!"nabla:{name}" payload = .ok u) ↔ name.utf8ByteSize ≤ 57 := by
  have size : s!"nabla:{name}".utf8ByteSize = 6 + name.utf8ByteSize := by
    show ("nabla:" ++ name).utf8ByteSize = _
    rw [String.utf8ByteSize_append]
    rfl
  rw [notify, size, if_neg (by omega)]
  by_cases long : 64 ≤ 6 + name.utf8ByteSize
  · rw [if_pos long]
    constructor
    · rintro ⟨u, ok⟩
      cases ok
    · omega
  · rw [if_neg long, if_neg (by omega)]
    exact ⟨fun _ => by omega, fun _ => ⟨(), rfl⟩⟩

variable {pf : Platform} {settings : Settings} {faults : Faults}

/-- The new rows of a view's log carry a `bigint` and a `pg_lsn`. -/
def LiveView.Bounded (v : LiveView) : Prop := ∀ d ∈ v.pending, d.seq < 2 ^ 63 ∧ d.lsn < 2 ^ 64

theorem LiveView.finish_iff {v : LiveView} (bounded : v.Bounded) :
    (∃ row, v.finish settings = .ok row) ↔ (v.absorbed ≠ [] → v.pending ≠ [] → v.row.name.utf8ByteSize ≤ 57) := by
  unfold LiveView.finish
  cases absorbed : v.absorbed.getLast? with
  | none =>
      rw [List.getLast?_eq_none_iff] at absorbed
      exact ⟨fun _ some => absurd absorbed some, fun _ => ⟨_, rfl⟩⟩
  | some e =>
      have worked : v.absorbed ≠ [] := fun none => by rw [none] at absorbed; cases absorbed
      cases pending : v.pending.getLast? with
      | none =>
          rw [List.getLast?_eq_none_iff] at pending
          exact ⟨fun _ _ some => absurd pending some, fun _ => ⟨_, rfl⟩⟩
      | some last =>
          have logs : v.pending ≠ [] := fun none => by rw [none] at pending; cases pending
          have fits := bounded last (List.mem_of_getLast? pending)
          have accepted := @notify_ok_iff v.row.name _ (payload_short fits.1 fits.2)
          dsimp only
          constructor
          · rintro ⟨row, done⟩ _ _
            refine accepted.mp ?_
            cases sent : notify s!"nabla:{v.row.name}" s!"{last.seq}:{formatLsn last.lsn}" with
            | error message => simp only [sent, Except.map, reduceCtorEq] at done
            | ok u => exact ⟨u, rfl⟩
          · intro short
            obtain ⟨u, sent⟩ := accepted.mpr (short worked logs)
            rw [sent]
            exact ⟨_, rfl⟩

theorem finishViews_ok_iff {views : List LiveView} (bounded : ∀ v ∈ views, v.Bounded) :
    (∃ rows, finishViews settings views = .ok rows) ↔
      ∀ v ∈ views, v.absorbed ≠ [] → v.pending ≠ [] → v.row.name.utf8ByteSize ≤ 57 := by
  constructor
  · rintro ⟨rows, done⟩ v member
    obtain ⟨row, _, finished⟩ := mem_of_forall₂ (finishViews_iff.mp done) member
    exact (LiveView.finish_iff (bounded v member)).mp ⟨row, finished⟩
  · intro short
    induction views with
    | nil => exact ⟨[], rfl⟩
    | cons v views ih =>
        obtain ⟨row, first⟩ := (@LiveView.finish_iff settings v (bounded v List.mem_cons_self)).mpr
          (short v List.mem_cons_self)
        obtain ⟨rows, later⟩ := ih (fun w member => bounded w (List.mem_cons_of_mem _ member))
          fun w member => short w (List.mem_cons_of_mem _ member)
        exact ⟨row :: rows, finishViews_iff.mpr (.cons first (finishViews_iff.mp later))⟩

theorem roundAfter_rows {cache : Nat → Option Relation} {c : Catalog} {txs : List SourceTransaction} {n : Nat}
    {st : RoundState} (reached : roundAfter pf settings faults cache c txs n = .ok st) :
    ∀ v ∈ st.views, ∃ row ∈ c.views, row.Same v.row := by
  unfold roundAfter roundStart at reached
  cases collected : collectRelations pf (changedRelids txs) cache [] with
  | error message => simp only [collected, Except.map, reduceCtorEq] at reached
  | ok described =>
      simp only [collected, Except.map, stateAfter] at reached
      generalize (txs.getLast?.map SourceTransaction.endLsn).getD 0 = e at reached
      have views := foldl_driftRelation_views e described.2 ⟨c.liveViews, c.shadows⟩
      generalize described.2.foldl (driftRelation e) ⟨c.liveViews, c.shadows⟩ = start at reached views
      have same : List.Forall₂ ShadowRow.Like start.shadows start.shadows :=
        List.forall₂_same.mpr fun s _ => ShadowRow.Like.refl s
      rcases @applyTransactions_traced pf settings faults described.2 0 (txs.take n) start.shadows with
        ⟨message, failed⟩ | ⟨events, left, done⟩
      · have ran := (failed start.shadows same start.views).symm.trans reached
        cases ran
      · obtain ⟨left', _, done⟩ := done start.shadows same
        obtain rfl := Except.ok.inj ((done start.views).symm.trans reached)
        intro v member
        obtain ⟨v₁, inStart, rfl⟩ := List.mem_map.mp member
        rw [views] at inStart
        obtain ⟨v₀, inLive, rfl⟩ := List.mem_map.mp inStart
        obtain ⟨row, inCatalog, _, rfl⟩ := Catalog.mem_liveViews inLive
        refine ⟨row, inCatalog, ViewRow.Same.trans (ViewRow.Same.of_eq ?_) (replay_same events _)⟩
        rw [foldl_driftBy e described.2]
        rfl

theorem applyRound_iff {cache : Nat → Option Relation} {c : Catalog} {txs : List SourceTransaction} {st : RoundState}
    (reached : roundAfter pf settings faults cache c txs txs.length = .ok st) :
    (∃ result, applyRound pf settings faults cache c txs = .ok result) ↔
      ∃ rows, finishViews settings st.views = .ok rows := by
  unfold roundAfter roundStart at reached
  unfold applyRound
  cases collected : collectRelations pf (changedRelids txs) cache [] with
  | error message => simp only [collected, Except.map, reduceCtorEq] at reached
  | ok described =>
      obtain ⟨cache', rels⟩ := described
      simp only [collected, Except.map, stateAfter, List.take_length] at reached
      dsimp only
      cases ran : applyTransactions pf settings faults rels 0 txs (rels.foldl
          (driftRelation ((txs.getLast?.map SourceTransaction.endLsn).getD 0)) ⟨c.liveViews, c.shadows⟩) with
      | error message => simp only [ran, reduceCtorEq] at reached
      | ok done =>
          simp only [ran, Except.ok.injEq] at reached
          subst reached
          dsimp only
          cases finishViews settings done.1.views with
          | error message =>
              constructor
              · rintro ⟨_, ok⟩
                cases ok
              · rintro ⟨_, ok⟩
                cases ok
          | ok rows => exact ⟨fun _ => ⟨rows, rfl⟩, fun _ => ⟨_, rfl⟩⟩

/-- The round-end bookkeeping raises no error exactly when the name of every view with
new log rows leaves room for the channel's prefix. -/
theorem applyRound_bookkeeping {cache : Nat → Option Relation} {c : Catalog} {txs : List SourceTransaction}
    {st : RoundState} (reserved : String → Bool) (namespace_ : Nat → Identifier) (schema : Nat → Option Identifier)
    (rel : Nat → Identifier)
    (named : ∀ row ∈ c.views, row.name = creationName reserved (namespace_ row.id) (schema row.id) (rel row.id))
    (reached : roundAfter pf settings faults cache c txs txs.length = .ok st) (bounded : ∀ v ∈ st.views, v.Bounded) :
    (∃ result, applyRound pf settings faults cache c txs = .ok result) ↔
      ∀ v ∈ st.views, v.absorbed ≠ [] → v.pending ≠ [] →
        (quoteIdentifier reserved ((schema v.row.id).getD (namespace_ v.row.id)).text).utf8ByteSize +
          (quoteIdentifier reserved (rel v.row.id).text).utf8ByteSize ≤ 56 := by
  rw [applyRound_iff reached, finishViews_ok_iff bounded]
  have size : ∀ v ∈ st.views, v.row.name.utf8ByteSize =
      (quoteIdentifier reserved ((schema v.row.id).getD (namespace_ v.row.id)).text).utf8ByteSize + 1 +
        (quoteIdentifier reserved (rel v.row.id).text).utf8ByteSize := by
    intro v member
    obtain ⟨row, inCatalog, same⟩ := roundAfter_rows reached v member
    have name : v.row.name = row.name := by rw [same]
    rw [name, named row inCatalog, same.id, creationName, String.utf8ByteSize_append, String.utf8ByteSize_append]
    rfl
  constructor
  · intro short v member worked logs
    have le := short v member worked logs
    rw [size v member] at le
    omega
  · intro short v member worked logs
    have le := short v member worked logs
    rw [size v member]
    omega

def publicSchema : Identifier := ⟨"public", by decide, by decide⟩

def shopRel : Identifier := ⟨"shop", by decide, by decide⟩

def longRel : Identifier :=
  ⟨"a12345678901234567890123456789012345678901234567890123456789bcd", by decide, by decide +kernel⟩

/-- The shop's view under the name `create_view` gives it. -/
def shopNamed (rel : Identifier) : Catalog :=
  { shopCatalog with views :=
      shopCatalog.views.map fun row => { row with name := creationName (fun _ => false) publicSchema none rel } }

theorem bounded_of_read {st : RoundState}
    (read : (st.views.map fun v => v.pending.map fun d => (d.seq, d.lsn)) = [[(1, 10)]]) : ∀ v ∈ st.views, v.Bounded := by
  obtain ⟨v, views, pending⟩ := List.map_eq_singleton_iff.mp read
  obtain ⟨d, one, fields⟩ := List.map_eq_singleton_iff.mp pending
  rw [Prod.mk.injEq] at fields
  intro v' member d' inPending
  rw [views, List.mem_singleton] at member
  subst member
  rw [one, List.mem_singleton] at inPending
  subst inPending
  omega

/-- A view with the longest name PostgreSQL allows stops the round. -/
theorem longRel_aborts : ¬ ∀ {pf : Platform} {settings : Settings} {faults : Faults} {cache : Nat → Option Relation}
    {c : Catalog} {txs : List SourceTransaction} {st : RoundState} (reserved : String → Bool)
    (namespace_ : Nat → Identifier) (schema : Nat → Option Identifier) (rel : Nat → Identifier),
    (∀ row ∈ c.views, row.name = creationName reserved (namespace_ row.id) (schema row.id) (rel row.id)) →
    roundAfter pf settings faults cache c txs txs.length = .ok st → (∀ v ∈ st.views, v.Bounded) →
    ∃ result, applyRound pf settings faults cache c txs = .ok result := by
  intro claim
  obtain ⟨st, reached, read⟩ : ∃ st, roundAfter .basic shopSettings Faults.none (some ∘ shopRelation)
      (shopNamed longRel) [shopDecoded .null] 1 = .ok st ∧
      (st.views.map fun v => v.pending.map fun d => (d.seq, d.lsn)) = [[(1, 10)]] := ⟨_, rfl, rfl⟩
  obtain ⟨result, applied⟩ := claim (fun _ => false) (fun _ => publicSchema) (fun _ => none) (fun _ => longRel)
    (fun row member => by rw [List.mem_singleton.mp member]) reached (bounded_of_read read)
  have aborted : ((applyRound .basic shopSettings Faults.none (some ∘ shopRelation) (shopNamed longRel)
      [shopDecoded .null]).toOption.map fun _ => ()) = none := by decide +kernel
  rw [applied] at aborted
  cases aborted

theorem shopNamed_applies : ∃ result, applyRound .basic shopSettings Faults.none (some ∘ shopRelation)
    (shopNamed shopRel) [shopDecoded .null] = .ok result := by
  obtain ⟨st, reached, read⟩ : ∃ st, roundAfter .basic shopSettings Faults.none (some ∘ shopRelation)
      (shopNamed shopRel) [shopDecoded .null] 1 = .ok st ∧
      (st.views.map fun v => v.pending.map fun d => (d.seq, d.lsn)) = [[(1, 10)]] := ⟨_, rfl, rfl⟩
  refine (applyRound_bookkeeping (fun _ => false) (fun _ => publicSchema) (fun _ => none) (fun _ => shopRel)
    (fun row member => by rw [List.mem_singleton.mp member]) reached (bounded_of_read read)).mpr ?_
  intro v _ _ _
  show "public".utf8ByteSize + "shop".utf8ByteSize ≤ 56
  decide

end Nabla
