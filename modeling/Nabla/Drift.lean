import Nabla.Descriptions
import Nabla.Incremental
import Mathlib.Tactic.IntervalCases

/-! The drift check of a round: which views it marks stale and which columns a shadow loses,
against the descriptions under which the changes ahead of them were sent. -/
namespace Nabla
open Bags

variable {pf : Platform}

def Message.commitEnd : Message → Option Nat
  | .commit _ endLsn => some endLsn
  | _ => none

/-- A transaction of the peek that ends past `frontier` changes the relation while `rel` is
its description in force. -/
def SentPast (history peek : List Message) (frontier relid : Nat) (rel : Relation) : Prop :=
  ∃ earlier m later change endLsn, peek = earlier ++ m :: later ∧ m.change = some change ∧ relid ∈ change.relids ∧
    later.findSome? Message.commitEnd = some endLsn ∧ frontier < endLsn ∧ lastDescription (history ++ earlier) relid = some rel

def Relation.withTypes (pf : Platform) (rel : Relation) : Relation :=
  { rel with columns := rel.columns.map fun c => { c with typeName := pf.formatType c.typid c.typmod } }

theorem Relation.withTypes_resolved (rel : Relation) : (rel.withTypes pf).resolved = rel.typed pf := by
  rw [Relation.resolved, Relation.withTypes, List.map_map]
  rfl

theorem Relation.provides_resolved (rel : Relation) (name type : String) :
    rel.provides name type = rel.resolved.any fun c => c.1 = name && c.2 = some type := by
  rw [Relation.resolved, List.any_map]
  rfl

theorem Relation.provides_congr {rel rel' : Relation} (same : rel.resolved = rel'.resolved) : rel.provides = rel'.provides := by
  funext name type
  rw [rel.provides_resolved, rel'.provides_resolved, same]

theorem ViewSpec.drift_congr (spec : ViewSpec) (relid : Nat) {rel rel' : Relation} (same : rel.resolved = rel'.resolved) :
    spec.drift relid rel = spec.drift relid rel' := by
  rw [ViewSpec.drift, ViewSpec.drift, Relation.provides_congr same]

def Reading.roundEnd (reading : Reading) : Nat := (reading.transactions.getLast?.map SourceTransaction.endLsn).getD 0

def Reading.start (reading : Reading) (c : Catalog) : RoundState :=
  reading.relations.foldl (driftRelation reading.roundEnd) ⟨c.liveViews, c.shadows⟩

theorem LiveView.driftBy_stale {v : LiveView} (stale : v.stale.isSome) (roundEnd : Nat) (rels : List (Nat × Relation)) :
    rels.foldl (LiveView.driftBy roundEnd) v = v := by
  induction rels with
  | nil => rfl
  | cons p rels ih =>
      have same : v.driftBy roundEnd p = v := by
        rw [LiveView.driftBy, if_neg]
        rw [Option.isNone_eq_false_iff.mpr stale]
        exact Bool.false_ne_true
      rw [List.foldl_cons, same]
      exact ih

theorem LiveView.driftBy_marks {v : LiveView} (fresh : v.stale = none) (roundEnd : Nat) (rels : List (Nat × Relation)) :
    (rels.foldl (LiveView.driftBy roundEnd) v).stale.isSome ↔
      v.frontier < roundEnd ∧ ∃ p ∈ rels, (v.row.spec.drift p.1 p.2).isSome := by
  induction rels with
  | nil => simp [fresh]
  | cons p rels ih =>
      rw [List.foldl_cons, LiveView.driftBy]
      by_cases behind : v.frontier < roundEnd
      · rw [if_pos (by simp [fresh, behind])]
        cases drifts : v.row.spec.drift p.1 p.2 with
        | none =>
            have same : { v with stale := none } = v := by rw [← fresh]
            rw [same, ih]
            simp [behind, drifts]
        | some reason =>
            rw [LiveView.driftBy_stale rfl]
            simp [behind, drifts]
      · rw [if_neg (by simp [behind]), ih]
        simp [behind]

def ShadowRow.pairs (s : ShadowRow) : List (String × String) := s.columns.zip s.columnTypes

def ShadowRow.drifted (s : ShadowRow) (rel : Relation) : List String :=
  (s.pairs.filter fun c => !rel.provides c.1 c.2).map Prod.fst

theorem ShadowRow.mem_drifted {s : ShadowRow} {rel : Relation} {name : String} :
    name ∈ s.drifted rel ↔ ∃ type, (name, type) ∈ s.pairs ∧ rel.provides name type = false := by
  simp only [ShadowRow.drifted, List.mem_map, List.mem_filter, Prod.exists, exists_and_right, exists_eq_right, Bool.not_eq_true']

theorem ShadowRow.drifted_congr (s : ShadowRow) {rel rel' : Relation} (same : rel.resolved = rel'.resolved) :
    s.drifted rel = s.drifted rel' := by
  rw [ShadowRow.drifted, ShadowRow.drifted, Relation.provides_congr same]

theorem shadowDrift_eq (s : ShadowRow) (rel : Relation) (qualified : String) : shadowDrift s rel qualified =
    if s.drifted rel = [] then s else
      if (s.drifted rel).any s.pkColumns.contains then recordShadowFailure s ("; ".intercalate ((s.drifted rel).map (driftReason · qualified)))
      else { s with
        columns := (s.pairs.filter fun c => !(s.drifted rel).contains c.1).map Prod.fst
        columnTypes := (s.pairs.filter fun c => !(s.drifted rel).contains c.1).map Prod.snd
        staleReason := some ("; ".intercalate ((s.drifted rel).map (driftReason · qualified))) } := rfl

theorem shadowDrift_prunes (s : ShadowRow) (rel : Relation) (qualified : String) {name : String} (active : name ∈ s.pairs.map Prod.fst) :
    name ∉ (shadowDrift s rel qualified).columns ↔ name ∈ s.drifted rel ∧ ∀ k ∈ s.drifted rel, k ∉ s.pkColumns := by
  have held : name ∈ s.columns := by
    obtain ⟨pair, paired, rfl⟩ := List.mem_map.mp active
    exact (List.of_mem_zip paired).1
  rw [shadowDrift_eq]
  by_cases none : s.drifted rel = []
  · rw [if_pos none, none]
    exact ⟨fun lost => absurd held lost, fun drifts => absurd drifts.1 List.not_mem_nil⟩
  rw [if_neg none]
  by_cases key : (s.drifted rel).any s.pkColumns.contains = true
  · rw [if_pos key]
    obtain ⟨k, drifts, inKey⟩ := List.any_eq_true.mp key
    exact ⟨fun lost => absurd held lost, fun apart => absurd (List.contains_iff_mem.mp inKey) (apart.2 k drifts)⟩
  · rw [if_neg key]
    have apart : ∀ k ∈ s.drifted rel, k ∉ s.pkColumns :=
      fun k drifts inKey => key (List.any_eq_true.mpr ⟨k, drifts, List.contains_iff_mem.mpr inKey⟩)
    constructor
    · intro lost
      refine ⟨?_, apart⟩
      by_contra kept
      obtain ⟨pair, paired, rfl⟩ := List.mem_map.mp active
      exact lost (List.mem_map_of_mem (List.mem_filter.mpr ⟨paired, by simp [kept]⟩))
    · rintro ⟨drifts, _⟩ stays
      obtain ⟨pair, within, rfl⟩ := List.mem_map.mp stays
      have kept := (List.mem_filter.mp within).2
      simp [drifts] at kept

theorem shadowDrift_relid (s : ShadowRow) (rel : Relation) (qualified : String) : (shadowDrift s rel qualified).relid = s.relid := by
  unfold shadowDrift
  dsimp only
  split
  · rfl
  · split <;> rfl

/-- A shadow after the check: as it was, or drifted by the description of its relation. -/
theorem foldl_driftRelation_shadows (roundEnd : Nat) {rels : List (Nat × Relation)} (distinct : (rels.map Prod.fst).Nodup) (st : RoundState) :
    List.Forall₂ (fun s s' => ∃ qualified, s' = match rels.lookup s.relid with
      | some rel => if !s.failed && decide (s.frontier < roundEnd) then shadowDrift s rel qualified else s
      | none => s) st.shadows (rels.foldl (driftRelation roundEnd) st).shadows := by
  induction rels generalizing st with
  | nil => exact List.forall₂_same.mpr fun s _ => ⟨"", rfl⟩
  | cons p rels ih =>
      obtain ⟨relid, rel⟩ := p
      rw [List.map_cons, List.nodup_cons] at distinct
      refine forall₂_trans ?_ (forall₂_map_right _ fun s _ => (rfl : _ = (if s.relid = relid then _ else s))) (ih distinct.2 (driftRelation roundEnd st (relid, rel)))
      rintro s s₁ s' rfl ⟨qualified, rfl⟩
      by_cases here : s.relid = relid
      · subst here
        refine ⟨qualifiedName st.views s.relid rel, ?_⟩
        have drifted : (if !s.failed && decide (s.frontier < roundEnd) then shadowDrift s rel (qualifiedName st.views s.relid rel) else s).relid =
            s.relid := by
          split
          · exact shadowDrift_relid s rel _
          · rfl
        have last : rels.lookup s.relid = none := lookup_eq_none distinct.1
        rw [if_pos rfl, drifted, last, List.lookup_cons, BEq.rfl]
      · refine ⟨qualified, ?_⟩
        rw [if_neg here, List.lookup_cons, beq_false_of_ne here]

theorem collectRelations_keys {relids : List Nat} {cache cache' : Nat → Option Relation} {rels rels' : List (Nat × Relation)}
    (distinct : (rels.map Prod.fst).Nodup) (collected : collectRelations pf relids cache rels = .ok (cache', rels')) :
    (rels'.map Prod.fst).Nodup ∧ ∀ k ∈ rels'.map Prod.fst, k ∈ rels.map Prod.fst ∨ k ∈ relids := by
  induction relids generalizing cache rels with
  | nil =>
      obtain ⟨rfl, rfl⟩ := Prod.mk.inj (Except.ok.inj collected)
      exact ⟨distinct, fun k member => Or.inl member⟩
  | cons relid relids ih =>
      rw [collectRelations] at collected
      by_cases seen : (rels.lookup relid).isSome = true
      · rw [if_pos seen] at collected
        obtain ⟨apart, known⟩ := ih distinct collected
        exact ⟨apart, fun k member => (known k member).imp_right (List.mem_cons_of_mem _)⟩
      · rw [if_neg seen] at collected
        split at collected
        · contradiction
        · split at collected
          · contradiction
          · have free : relid ∉ rels.map Prod.fst := by
              intro taken
              obtain ⟨pair, member, rfl⟩ := List.mem_map.mp taken
              exact seen (List.lookup_isSome_iff.mpr ⟨pair, member, BEq.rfl⟩)
            obtain ⟨apart, known⟩ := ih (by
              rw [List.map_append]
              exact List.Nodup.append distinct (List.nodup_singleton _) (List.disjoint_singleton.mpr free)) collected
            refine ⟨apart, fun k member => ?_⟩
            rcases known k member with earlier | later
            · rw [List.map_append, List.mem_append] at earlier
              rcases earlier with before | here
              · exact Or.inl before
              · exact Or.inr (List.mem_singleton.mp here ▸ List.mem_cons_self)
            · exact Or.inr (List.mem_cons_of_mem _ later)

/-- The descriptions a round has are those in force at the end of its peek, of the relations
its transactions change. -/
structure Reading.Describes (pf : Platform) (messages : List Message) (reading : Reading) : Prop where
  distinct : (reading.relations.map Prod.fst).Nodup
  last : ∀ relid rel, (relid, rel) ∈ reading.relations → relid ∈ changedRelids reading.transactions ∧
    ∃ last, lastDescription messages relid = some last ∧ rel.resolved = (last.withTypes pf).resolved
  known : ∀ relid ∈ changedRelids reading.transactions, ∃ rel, (relid, rel) ∈ reading.relations

theorem Remembers.describes {history peek : List Message} {d d' : Decoder} {reading : Reading} (remembers : Remembers pf history d.relations)
    (fresh : ∀ m ∈ peek, m.Fresh) (read : d.read pf peek = .ok (d', reading)) : reading.Describes pf (history ++ peek) := by
  obtain ⟨fed, cache, ok, collected, txs, _⟩ := Decoder.read_cases read
  have described := remembers.feedAll fresh ok
  have empty : Collected pf (history ++ peek) [] := ⟨fun relid rel member => absurd member List.not_mem_nil⟩
  obtain ⟨_, bound, found⟩ := described.collect empty collected
  have nodup : (([] : List (Nat × Relation)).map Prod.fst).Nodup := List.nodup_nil
  obtain ⟨distinct, keys⟩ := collectRelations_keys nodup collected
  constructor
  · exact distinct
  · intro relid rel member
    obtain ⟨last, inForce, same⟩ := bound.bound relid rel member
    refine ⟨?_, last, inForce, same.trans last.withTypes_resolved.symm⟩
    rw [txs]
    exact (keys relid (List.mem_map_of_mem member)).resolve_left List.not_mem_nil
  · intro relid changed
    obtain ⟨rel, at_relid⟩ := Option.isSome_iff_exists.mp (found relid (Or.inl (txs ▸ changed)))
    obtain ⟨_, _, split, _⟩ := List.lookup_eq_some_iff.mp at_relid
    exact ⟨rel, split ▸ List.mem_append_right _ List.mem_cons_self⟩

section Precise

variable (pf : Platform) (history peek : List Message) (reading : Reading) (c : Catalog)

/-- The check goes by changes still to absorb: a view it marks has one, of a relation it
uses under a description without one of its columns; and a column a shadow loses is
missing from the description of such a change. -/
structure DriftsPrecisely : Prop where
  views : ∀ v ∈ (reading.start c).views, v.stale.isSome →
    ∃ relid rel, SentPast history peek v.frontier relid rel ∧ (v.row.spec.drift relid (rel.withTypes pf)).isSome
  shadows : List.Forall₂ (fun s s' => ∀ name ∈ s.pairs.map Prod.fst, name ∉ s'.columns →
    ∃ rel, SentPast history peek s.frontier s.relid rel ∧ name ∈ s.drifted (rel.withTypes pf)) c.shadows (reading.start c).shadows

/-- The relation is changed in the round, whose end is past `frontier`, and described last
as `last`. -/
def Reading.Compares (frontier relid : Nat) (last : Relation) : Prop :=
  frontier < reading.roundEnd ∧ relid ∈ changedRelids reading.transactions ∧
    lastDescription (history ++ peek) relid = some last

/-- Where the last description of a changed relation lacks a column, so does that of a change
past the frontier. -/
structure DriftsAhead : Prop where
  views : ∀ row ∈ c.views, row.status = .live → ∀ relid last, reading.Compares history peek row.frontier relid last →
    (row.spec.drift relid (last.withTypes pf)).isSome →
    ∃ relid rel, SentPast history peek row.frontier relid rel ∧ (row.spec.drift relid (rel.withTypes pf)).isSome
  shadows : ∀ s ∈ c.shadows, s.failed = false → ∀ last, reading.Compares history peek s.frontier s.relid last →
    (∀ k ∈ s.drifted (last.withTypes pf), k ∉ s.pkColumns) → ∀ name ∈ s.drifted (last.withTypes pf),
    ∃ rel, SentPast history peek s.frontier s.relid rel ∧ name ∈ s.drifted (rel.withTypes pf)

end Precise

section Check

variable {history peek : List Message} {reading : Reading} {c : Catalog}

theorem Reading.Describes.compares (describes : reading.Describes pf (history ++ peek)) {relid : Nat} {rel : Relation}
    (member : (relid, rel) ∈ reading.relations) {frontier : Nat}
    (behind : frontier < reading.roundEnd) :
    ∃ last, reading.Compares history peek frontier relid last ∧ rel.resolved = (last.withTypes pf).resolved := by
  obtain ⟨changed, last, inForce, same⟩ := describes.last relid rel member
  exact ⟨last, ⟨behind, changed, inForce⟩, same⟩

theorem Reading.Compares.read {frontier relid : Nat} {last : Relation} (compares : reading.Compares history peek frontier relid last)
    (describes : reading.Describes pf (history ++ peek)) :
    ∃ rel, (relid, rel) ∈ reading.relations ∧ rel.resolved = (last.withTypes pf).resolved := by
  obtain ⟨_, changed, inForce⟩ := compares
  obtain ⟨rel, member⟩ := describes.known relid changed
  obtain ⟨_, last', inForce', same⟩ := describes.last relid rel member
  obtain rfl := Option.some.inj (inForce'.symm.trans inForce)
  exact ⟨rel, member, same⟩

theorem mem_start_views {v : LiveView} : v ∈ (reading.start c).views ↔ ∃ row ∈ c.views, row.status = .live ∧
    v = reading.relations.foldl (LiveView.driftBy reading.roundEnd) (.load row) := by
  rw [Reading.start, foldl_driftRelation_views]
  simp only [Catalog.liveViews, List.mem_map, List.mem_filter, decide_eq_true_eq]
  constructor
  · rintro ⟨_, ⟨row, ⟨member, live⟩, rfl⟩, rfl⟩
    exact ⟨row, member, live, rfl⟩
  · rintro ⟨row, member, live, rfl⟩
    exact ⟨_, ⟨row, ⟨member, live⟩, rfl⟩, rfl⟩

theorem start_marks (describes : reading.Describes pf (history ++ peek)) (row : ViewRow) :
    (reading.relations.foldl (LiveView.driftBy reading.roundEnd) (.load row)).stale.isSome ↔
      ∃ relid last, reading.Compares history peek row.frontier relid last ∧ (row.spec.drift relid (last.withTypes pf)).isSome := by
  rw [LiveView.driftBy_marks rfl]
  constructor
  · rintro ⟨behind, ⟨relid, rel⟩, member, drifts⟩
    obtain ⟨last, compares, same⟩ := describes.compares member behind
    exact ⟨relid, last, compares, ViewSpec.drift_congr _ relid same ▸ drifts⟩
  · rintro ⟨relid, last, compares, drifts⟩
    obtain ⟨rel, member, same⟩ := compares.read describes
    exact ⟨compares.1, (relid, rel), member, ViewSpec.drift_congr _ relid same ▸ drifts⟩

/-- A column a shadow loses drifts in the relation the round compares, and no key column does. -/
theorem start_prunes (describes : reading.Describes pf (history ++ peek)) :
    List.Forall₂ (fun s s' => ∀ name ∈ s.pairs.map Prod.fst, name ∉ s'.columns ↔ s.failed = false ∧
      ∃ last, reading.Compares history peek s.frontier s.relid last ∧ (∀ k ∈ s.drifted (last.withTypes pf), k ∉ s.pkColumns) ∧
        name ∈ s.drifted (last.withTypes pf)) c.shadows (reading.start c).shadows := by
  refine (foldl_driftRelation_shadows reading.roundEnd describes.distinct ⟨c.liveViews, c.shadows⟩).imp ?_
  rintro s s' ⟨qualified, rfl⟩ name active
  have held : name ∈ s.columns := by
    obtain ⟨pair, paired, rfl⟩ := List.mem_map.mp active
    exact (List.of_mem_zip paired).1
  cases found : reading.relations.lookup s.relid with
  | none =>
      refine ⟨fun lost => absurd held lost, fun ⟨_, last, compares, _⟩ => ?_⟩
      obtain ⟨rel, member, _⟩ := compares.read describes
      exact absurd (lookup_of_mem describes.distinct member) (by rw [found]; exact nofun)
  | some rel =>
      have member : (s.relid, rel) ∈ reading.relations := by
        obtain ⟨_, _, split, _⟩ := List.lookup_eq_some_iff.mp found
        exact split ▸ List.mem_append_right _ List.mem_cons_self
      dsimp only
      by_cases active' : s.failed = false ∧ s.frontier < reading.roundEnd
      · rw [if_pos (by simp [active']), shadowDrift_prunes s rel qualified active]
        obtain ⟨last, compares, same⟩ := describes.compares member active'.2
        rw [ShadowRow.drifted_congr s same]
        constructor
        · exact fun ⟨drifts, apart⟩ => ⟨active'.1, last, compares, apart, drifts⟩
        · rintro ⟨_, last', compares', apart, drifts⟩
          obtain rfl := Option.some.inj (compares.2.2.symm.trans compares'.2.2)
          exact ⟨drifts, apart⟩
      · rw [if_neg (by simpa using active')]
        exact ⟨fun lost => absurd held lost, fun ⟨sound, _, compares, _⟩ => absurd ⟨sound, compares.1⟩ active'⟩

theorem driftsPrecisely_iff (describes : reading.Describes pf (history ++ peek)) :
    DriftsPrecisely pf history peek reading c ↔ DriftsAhead pf history peek reading c := by
  have views := fun v => @mem_start_views reading c v
  have shadows := @start_prunes pf history peek reading c describes
  constructor
  · intro precise
    constructor
    · intro row member live relid last compares drifts
      have marked := (start_marks describes row).mpr ⟨relid, last, compares, drifts⟩
      have because := precise.views _ ((views _).mpr ⟨row, member, live, rfl⟩) marked
      rw [foldl_driftBy] at because
      exact because
    · intro s member sound last compares apart name drifts
      obtain ⟨s', after, pruned, because⟩ := mem_of_forall₂ (forall₂_both shadows precise.shadows) member
      have active : name ∈ s.pairs.map Prod.fst := by
        obtain ⟨type, paired, _⟩ := ShadowRow.mem_drifted.mp drifts
        exact List.mem_map_of_mem (f := Prod.fst) paired
      exact because name active ((pruned name active).mpr ⟨sound, last, compares, apart, drifts⟩)
  · intro ahead
    constructor
    · intro v member marked
      obtain ⟨row, inCatalog, live, rfl⟩ := (views v).mp member
      obtain ⟨relid, last, compares, drifts⟩ := (start_marks describes row).mp marked
      rw [foldl_driftBy]
      exact ahead.views row inCatalog live relid last compares drifts
    · refine forall₂_imp_mem shadows fun s member s' pruned name active lost => ?_
      obtain ⟨sound, last, compares, apart, drifts⟩ := (pruned name active).mp lost
      exact ahead.shadows s member sound last compares apart name drifts

end Check

/-- Over every run of peeks and every catalog, the drift check goes by changes still to
absorb exactly when the descriptions it compares lack no column but those of such changes. -/
theorem Decoder.drift_precise_iff {peeks : List (List Message)} {readings : List Reading} (fresh : ∀ m ∈ peeks.flatten, m.Fresh)
    (ran : Decoder.readAll pf {} peeks = .ok readings) {before after : List (List Message)} {peek : List Message}
    (split : peeks = before ++ peek :: after) {reading : Reading} (found : readings[before.length]? = some reading) (c : Catalog) :
    DriftsPrecisely pf before.flatten peek reading c ↔ DriftsAhead pf before.flatten peek reading c := by
  have start : Remembers pf [] ({} : Decoder).relations := by
    constructor
    · exact fun relid => rfl
    · exact fun relid rel found => absurd found (Option.some_ne_none rel).symm
  obtain ⟨d₁, d₂, reading', at_peek, read, remembers⟩ := Decoder.readAll_at start fresh ran split
  obtain rfl := Option.some.inj (found.symm.trans at_peek)
  rw [List.nil_append] at remembers
  apply driftsPrecisely_iff
  apply remembers.describes (fun m member => fresh m ?_) read
  exact split ▸ List.mem_flatten.mpr ⟨peek, List.mem_append_right _ List.mem_cons_self, member⟩

/-- A table of the shop whose `ref` has this type. -/
def shopDescription (relid refType : Nat) : Relation :=
  ⟨relid, "public", "t", 100, [⟨"id", true, 25, -1, none⟩, ⟨"ref", false, refType, -1, none⟩, ⟨"doc", false, 3802, -1, none⟩]⟩

/-- An order from before its `ref` became a text, and then a customer. -/
def shopReplayed : List Message :=
  [.begin 10 1, .relation (shopDescription 1 3802), .insert 1 [.text "a", .null, .null], .commit 10 11,
    .begin 20 2, .relation (shopDescription 2 25), .insert 2 [.text "c", .null, .null], .commit 20 21]

def shopRebuilt : Catalog where
  views := [shopView 15 []]
  viewRelations := [(7, 1), (7, 2)]
  shadows := [shopShadow 1 15 ["id", "ref", "doc"] ["text", "text", "jsonb"] [], shopShadow 2 15 ["id"] ["text"] []]

theorem shopReplayed_fresh : ∀ m ∈ [shopReplayed].flatten, m.Fresh := by
  intro m member
  rw [List.flatten_singleton] at member
  simp only [shopReplayed, List.mem_cons, List.not_mem_nil, or_false] at member
  rcases member with rfl | rfl | rfl | rfl | rfl | rfl | rfl | rfl
  all_goals first
    | trivial
    | exact fun c within => by
        simp only [shopDescription, List.mem_cons, List.not_mem_nil, or_false] at within
        rcases within with rfl | rfl | rfl <;> rfl

theorem shopReplayed_sent {relid : Nat} {rel : Relation} (sent : SentPast [] shopReplayed 15 relid rel) : relid = 2 ∧ rel = shopDescription 2 25 := by
  obtain ⟨earlier, m, later, change, endLsn, split, row, changes, ends, past, inForce⟩ := sent
  have here : shopReplayed[earlier.length]? = some m := by
    rw [split, List.getElem?_append_right (Nat.le_refl _), Nat.sub_self]
    rfl
  have behind : later = shopReplayed.drop (earlier.length + 1) := by
    rw [split, ← List.drop_drop, List.drop_left]
    rfl
  have before : earlier = shopReplayed.take earlier.length := by
    rw [split, List.take_left]
  rw [List.nil_append] at inForce
  have below : earlier.length < 8 := (List.getElem?_eq_some_iff.mp here).1
  generalize earlier.length = n at here behind before below
  subst before behind
  interval_cases n
  all_goals
    cases here
    cases row
  · cases ends
    omega
  · exact ⟨List.mem_singleton.mp changes, by
      obtain rfl := List.mem_singleton.mp changes
      exact (Option.some.inj inForce).symm⟩

/-- The replayed order takes the view down, which has absorbed it. -/
theorem shopRebuilt_marked : ∃ reading, Decoder.readAll .basic {} [shopReplayed] = .ok [reading] ∧
    (∃ v ∈ (reading.start shopRebuilt).views, v.row = shopView 15 [] ∧ v.stale.isSome) ∧
    ¬ DriftsPrecisely .basic [] shopReplayed reading shopRebuilt := by
  have marked : ∃ reading, Decoder.readAll .basic {} [shopReplayed] = .ok [reading] ∧
      ∃ v ∈ (reading.start shopRebuilt).views, v.row = shopView 15 [] ∧ v.frontier = 15 ∧ v.stale.isSome :=
    ⟨_, rfl, _, List.mem_singleton_self _, rfl, rfl, rfl⟩
  obtain ⟨reading, read, v, member, row, frontier, stale⟩ := marked
  refine ⟨reading, read, ⟨v, member, row, stale⟩, fun precise => ?_⟩
  obtain ⟨relid, rel, sent, drifts⟩ := precise.views v member stale
  rw [frontier] at sent
  obtain ⟨rfl, rfl⟩ := shopReplayed_sent sent
  rw [row] at drifts
  exact Bool.false_ne_true drifts

theorem shopReplayed_precise_iff : ∃ reading, Decoder.readAll .basic {} [shopReplayed] = .ok [reading] ∧
    (DriftsPrecisely .basic [] shopReplayed reading shopRebuilt ↔ DriftsAhead .basic [] shopReplayed reading shopRebuilt) :=
  ⟨_, rfl, @Decoder.drift_precise_iff _ _ _ shopReplayed_fresh rfl [] [] _ rfl _ rfl _⟩

end Nabla
