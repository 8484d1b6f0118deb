import Nabla.Blocked
import Nabla.Rebuild
import Nabla.References

/-! Shadows that outlive the views they were made for: first builds of join views between
rounds, over shadows that are created, filled again or reused. -/
namespace Nabla
open Bags

variable {pf : Platform} {S : Schema pf} {sight : Sight} {point : Nat}

/-- The population transaction sees the base tables `db` under the schema. -/
structure Sight.Sees (S : Schema pf) (db : Database) (sight : Sight) : Prop where
  rows : ∀ relid, (sight.table relid).rows.Perm (db relid)
  distinct : ∀ relid, ((sight.table relid).columns.map Prod.fst).Nodup
  described : ∀ relid, ∀ p ∈ (sight.table relid).columns, (S.relation relid).provides p.1 p.2
  key : ∀ relid, S.primaryKey relid ⊆ (sight.table relid).columns.map Prod.fst

/-- The shadow shows its table on all of its active columns. -/
structure ShadowRow.Shows (S : Schema pf) (base : List BaseRow) (s : ShadowRow) : Prop where
  fits : s.Fits S
  paired : s.columns.length = s.columnTypes.length
  mirrors : Mirrors S s.columns s s.rows base

structure ShadowRow.Filled (rel : BaseRelation) (needed : List String) (base : BaseTable) (s : ShadowRow) : Prop where
  relid : s.relid = rel.oid
  pk : s.pkColumns = rel.pkColumns
  columns : s.columns = (activeSet rel needed base.columns).map Prod.fst
  types : s.columnTypes = (activeSet rel needed base.columns).map Prod.snd
  rows : s.rows = base.rows.map (selectColumns s.columns)

theorem createShadow_filled (rel : BaseRelation) (frontier : Nat) (needed keys : List String) (base : BaseTable) :
    (createShadow rel frontier needed keys base).Filled rel needed base := ⟨rfl, rfl, rfl, rfl, rfl⟩

theorem refillShadow_filled {rel : BaseRelation} {s : ShadowRow} (here : s.relid = rel.oid) (frontier : Nat) (needed keys : List String)
    (base : BaseTable) : (refillShadow rel frontier needed keys base s).Filled rel needed base := ⟨here, rfl, rfl, rfl, rfl⟩

theorem narrowRow_selectColumns (columns : List String) (row : BaseRow) : narrowRow columns (selectColumns columns row) = narrowRow columns row :=
  narrowRow_congr fun _ member => if_pos (List.contains_iff_mem.mpr member)

theorem ShadowRow.Filled.shows {rel : BaseRelation} {needed : List String} {db : Database} {s : ShadowRow}
    (filled : s.Filled rel needed (sight.table rel.oid)) (sees : sight.Sees S db) (ok : S.DatabaseOk db)
    (pk : rel.pkColumns = S.primaryKey rel.oid) : s.Shows S (db s.relid) := by
  obtain ⟨relid, pkColumns, columns, types, rows⟩ := filled
  have listed : ∀ p ∈ activeSet rel needed (sight.table rel.oid).columns, (S.relation s.relid).provides p.1 p.2 := fun p member =>
    relid ▸ sees.described rel.oid p (List.mem_of_mem_filter member)
  have key : S.primaryKey s.relid ⊆ s.columns := by
    intro name inKey
    rw [relid] at inKey
    obtain ⟨p, inBase, rfl⟩ := List.mem_map.mp (sees.key rel.oid inKey)
    rw [columns]
    refine List.mem_map_of_mem (List.mem_filter.mpr ⟨inBase, ?_⟩)
    rw [pk, List.contains_iff_mem.mpr inKey, Bool.true_or]
  refine ⟨⟨pkColumns.trans (pk.trans (relid ▸ rfl)), ?_, key, ?_⟩, by rw [columns, types, List.length_map, List.length_map],
    ⟨key, List.Subset.refl _, ?_, ?_⟩⟩
  · intro name active
    rw [columns] at active
    obtain ⟨p, member, rfl⟩ := List.mem_map.mp active
    obtain ⟨c, inRel, named, _⟩ := provides_iff.mp (listed p member)
    exact named ▸ List.mem_map_of_mem inRel
  · intro p member
    rw [columns, types, List.zip_map'] at member
    simp only [Prod.mk.eta, List.map_id'] at member
    exact listed p member
  · intro row' member c inRel active ty resolved
    rw [rows] at member
    obtain ⟨row, inBase, rfl⟩ := List.mem_map.mp member
    have inTable : row ∈ db s.relid := relid ▸ (sees.rows rel.oid).mem_iff.mp inBase
    have value : selectColumns s.columns row c.name = row c.name := if_pos (List.contains_iff_mem.mpr active)
    exact value ▸ (ok.rows s.relid row inTable).typed c inRel ty resolved
  · rw [rows, List.map_map, relid]
    have same : narrowRow s.columns ∘ selectColumns s.columns = narrowRow s.columns := funext (narrowRow_selectColumns s.columns)
    rw [same]
    exact (sees.rows rel.oid).map _

/-- Each row of the table has in the added columns what the row that has its key by now has
there, or NULL where no row has its key and the column is new to the shadow. -/
def ShadowRow.Backfills (S : Schema pf) (now : List BaseRow) (added : List (String × String)) (s : ShadowRow) (start : List BaseRow) : Prop :=
  ∀ row ∈ start, ∀ p ∈ added, (∃ b ∈ now, S.keyOf s.relid b = S.keyOf s.relid row ∧ b p.1 = row p.1) ∨
    ((∀ b ∈ now, S.keyOf s.relid b ≠ S.keyOf s.relid row) ∧ row p.1 = .null ∧ s.physical.lookup p.1 = none)

section Extend

variable {rel : BaseRelation} {needed : List String} {keys : List String} {db : Database} {s : ShadowRow} {start : List BaseRow}
  (shows : s.Shows S start) (here : s.relid = rel.oid) (sees : sight.Sees S db) (ok : S.DatabaseOk db)
  (pk : rel.pkColumns = S.primaryKey rel.oid) (keyed : Keyed (S.keyOf s.relid) start) (typed : ∀ row ∈ start, S.RowOk s.relid row)
include shows here sees ok pk keyed typed

/-- Without the columns it has no longer active the shadow meets what `extend` asks of it. -/
theorem ShadowRow.Shows.extends : Extends S rel (sight.table rel.oid) { s with physical := [] } start where
  fits := ⟨shows.fits.pk, shows.fits.active, shows.fits.key, shows.fits.provided⟩
  paired := shows.paired
  pk := pk.trans (here ▸ rfl)
  mirrors := ⟨shows.mirrors.key, shows.mirrors.active, shows.mirrors.typed, shows.mirrors.rows⟩
  keyed := keyed
  rows := typed
  physical := fun _ _ _ member => absurd member List.not_mem_nil
  distinct := sees.distinct rel.oid
  described := fun p member => here ▸ sees.described rel.oid p member
  table := fun row member => here ▸ ok.rows rel.oid row ((sees.rows rel.oid).mem_iff.mp member)

theorem ShadowRow.Shows.fillRow_eq (fills : s.Backfills S (db rel.oid) (s.added rel needed (sight.table rel.oid)) start) {row a : BaseRow}
    (inTable : a ∈ start) (same : narrowRow s.columns row = narrowRow s.columns a) {name : String}
    (active : name ∈ s.columns ∨ name ∈ (s.added rel needed (sight.table rel.oid)).map Prod.fst) :
    fillRow rel (sight.table rel.oid) s.physical (s.added rel needed (sight.table rel.oid)) row name = a name := by
  have extends' := shows.extends here sees ok pk keyed typed
  by_cases before : name ∈ s.columns
  · have absent : name ∉ (s.added rel needed (sight.table rel.oid)).map Prod.fst := by
      intro added
      obtain ⟨p, within, rfl⟩ := List.mem_map.mp added
      exact (ShadowRow.mem_added within).2 before
    simp only [fillRow, lookup_eq_none absent]
    exact eq_of_narrowRow_eq same before
  obtain ⟨⟨name, type⟩, within, rfl⟩ := List.mem_map.mp (active.resolve_left before)
  have matching : pkMatch rel.pkColumns row = fun b => decide (S.keyOf s.relid b = S.keyOf s.relid a) := extends'.pkMatch_eq inTable same
  have distinct : ((s.added rel needed (sight.table rel.oid)).map Prod.fst).Nodup := extends'.added_distinct needed
  simp only [fillRow, lookup_of_mem distinct within, matching]
  rcases fills a inTable _ within with ⟨b, inBase, key, value⟩ | ⟨gone, null, fresh⟩
  · have listed : b ∈ (sight.table rel.oid).rows := (sees.rows rel.oid).mem_iff.mpr inBase
    have unique : Keyed (S.keyOf s.relid) (sight.table rel.oid).rows := by
      rw [here]
      exact (ok.keyed rel.oid).perm (sees.rows rel.oid).symm
    rw [← key, unique.find_of_mem listed]
    exact value
  · have missing : (sight.table rel.oid).rows.find? (fun b => decide (S.keyOf s.relid b = S.keyOf s.relid a)) = none := by
      rw [List.find?_eq_none]
      intro b listed same
      exact gone b ((sees.rows rel.oid).mem_iff.mp listed) (of_decide_eq_true same)
    rw [missing]
    simp only [fresh, reduceCtorEq, if_false, null]

theorem ShadowRow.Shows.extend (fills : s.Backfills S (db rel.oid) (s.added rel needed (sight.table rel.oid)) start) :
    (extendShadow rel needed keys (sight.table rel.oid) s).Shows S start ∧ (extendShadow rel needed keys (sight.table rel.oid) s).relid = s.relid ∧
      (extendShadow rel needed keys (sight.table rel.oid) s).frontier = s.frontier ∧
      (extendShadow rel needed keys (sight.table rel.oid) s).failed = s.failed := by
  have extends' := shows.extends here sees ok pk keyed typed
  have distinct : ((s.added rel needed (sight.table rel.oid)).map Prod.fst).Nodup := extends'.added_distinct needed
  have apart : ∀ p ∈ s.added rel needed (sight.table rel.oid), p.1 ∉ rel.pkColumns := extends'.added_apart needed
  obtain ⟨columns, types⟩ := @extendShadow_pairs rel needed keys (sight.table rel.oid) s
  obtain ⟨columns', types'⟩ := @extendShadow_pairs rel needed keys (sight.table rel.oid) { s with physical := [] }
  have sameColumns := columns.trans columns'.symm
  have sameTypes := types.trans types'.symm
  obtain ⟨rows, relid, pkColumns, frontier, failed⟩ := extendShadow_rows needed keys distinct apart
  have relid' : (extendShadow rel needed keys (sight.table rel.oid) { s with physical := [] }).relid = s.relid :=
    (@extendShadow_rows rel needed keys (sight.table rel.oid) { s with physical := [] } distinct apart).2.1
  obtain ⟨_, within, inKey, provided⟩ := extends'.fits' needed keys
  rw [relid'] at within inKey provided
  have key : S.primaryKey (extendShadow rel needed keys (sight.table rel.oid) s).relid ⊆ (extendShadow rel needed keys (sight.table rel.oid) s).columns := by
    rw [sameColumns, relid]
    exact inKey
  refine ⟨⟨⟨?_, ?_, key, ?_⟩, ?_, ⟨key, List.Subset.refl _, ?_, ?_⟩⟩, relid, frontier, failed⟩
  · rw [pkColumns, relid]
    exact shows.fits.pk
  · rw [sameColumns, relid]
    exact within
  · rw [sameColumns, sameTypes, relid]
    exact provided
  · rw [columns, types, List.length_map, List.length_map]
  all_goals
    have active : ∀ name ∈ (extendShadow rel needed keys (sight.table rel.oid) s).columns,
        name ∈ s.columns ∨ name ∈ (s.added rel needed (sight.table rel.oid)).map Prod.fst := by
      intro name member
      rw [sameColumns] at member
      exact (extends'.columns needed keys name).mp member
  · intro row' member c inRel listed ty resolved
    rw [rows] at member
    rw [relid] at inRel
    obtain ⟨row, inShadow, rfl⟩ := List.mem_map.mp member
    obtain ⟨a, inTable, same⟩ := List.mem_map.mp (shows.mirrors.rows.mem_iff.mp (List.mem_map_of_mem inShadow))
    rw [shows.fillRow_eq here sees ok pk keyed typed fills inTable same.symm (active c.name listed)]
    exact (typed a inTable).typed c inRel ty resolved
  · rw [rows, List.map_map]
    refine perm_map_of_agree shows.mirrors.rows fun row _ a inTable same => narrowRow_congr fun name listed => ?_
    exact shows.fillRow_eq here sees ok pk keyed typed fills inTable same (active name listed)

end Extend

theorem ShadowRow.Shows.counted {s : ShadowRow} {base : List BaseRow} (shows : s.Shows S base) (n : Int) :
    ({ s with refcount := n } : ShadowRow).Shows S base :=
  ⟨⟨shows.fits.pk, shows.fits.active, shows.fits.key, shows.fits.provided⟩, shows.paired, shows.mirrors.congr rfl rfl⟩

/-- Where a shadow comes from that is there after `ensure`. -/
inductive Ensured (rel : BaseRelation) (frontier : Nat) (needed keys : List String) (base : BaseTable) (shadows : List ShadowRow)
    (s' : ShadowRow) : Prop where
  | other (inShadows : s' ∈ shadows) (apart : s'.relid ≠ rel.oid)
  | created (absent : ∀ s ∈ shadows, s.relid ≠ rel.oid) (same : s' = createShadow rel frontier needed keys base)
  | refilled {s : ShadowRow} (inShadows : s ∈ shadows) (here : s.relid = rel.oid) (failed : s.failed = true)
      (same : s' = refillShadow rel frontier needed keys base { s with refcount := s.refcount + 1 })
  | extended {s : ShadowRow} (inShadows : s ∈ shadows) (here : s.relid = rel.oid) (sound : s.failed = false)
      (same : s' = extendShadow rel needed keys base { s with refcount := s.refcount + 1 })

theorem updateShadow_relids (relid : Nat) {f : ShadowRow → ShadowRow} (kept : ∀ s, (f s).relid = s.relid) (shadows : List ShadowRow) :
    (updateShadow relid f shadows).map ShadowRow.relid = shadows.map ShadowRow.relid :=
  Refcount.map_key_here kept relid shadows

theorem ensureShadow_relids {rel : BaseRelation} {frontier : Nat} {needed keys : List String} {base : BaseTable} {shadows : List ShadowRow}
    (keyed : Keyed ShadowRow.relid shadows) : Keyed ShadowRow.relid (ensureShadow rel frontier needed keys base shadows) := by
  unfold ensureShadow
  cases found : shadows.find? (·.relid = rel.oid) with
  | none =>
      refine keyed.concat fun listed => ?_
      obtain ⟨s, member, same⟩ := List.mem_map.mp listed
      exact List.find?_eq_none.mp found s member (decide_eq_true same)
  | some current =>
      dsimp only
      split
      · rw [Keyed, updateShadow_relids rel.oid fun s => (refillShadow_counts rel needed keys base s).1,
          updateShadow_relids rel.oid (f := fun s => { s with refcount := s.refcount + 1 }) fun _ => rfl]
        exact keyed
      · rw [Keyed, updateShadow_relids rel.oid fun s => (extendShadow_counts rel needed keys base s).1,
          updateShadow_relids rel.oid (f := fun s => { s with refcount := s.refcount + 1 }) fun _ => rfl]
        exact keyed

theorem mem_ensureShadow {rel : BaseRelation} {frontier : Nat} {needed keys : List String} {base : BaseTable} {shadows : List ShadowRow}
    (keyed : Keyed ShadowRow.relid shadows) {s' : ShadowRow} (member : s' ∈ ensureShadow rel frontier needed keys base shadows) :
    Ensured rel frontier needed keys base shadows s' := by
  unfold ensureShadow at member
  cases found : shadows.find? (·.relid = rel.oid) with
  | none =>
      have absent : ∀ s ∈ shadows, s.relid ≠ rel.oid := fun s inShadows same =>
        List.find?_eq_none.mp found s inShadows (decide_eq_true same)
      rw [found] at member
      rcases List.mem_append.mp member with before | new
      · exact .other before (absent s' before)
      · exact .created absent (List.mem_singleton.mp new)
  | some current =>
      have inShadows := List.mem_of_find?_eq_some found
      have here := List.find?_some found
      rw [decide_eq_true_eq] at here
      have back : ∀ f : ShadowRow → ShadowRow,
          s' ∈ updateShadow rel.oid f (updateShadow rel.oid (fun s => { s with refcount := s.refcount + 1 }) shadows) →
          (s' ∈ shadows ∧ s'.relid ≠ rel.oid) ∨ s' = f { current with refcount := current.refcount + 1 } := by
        intro f within
        obtain ⟨s₁, counted, rfl⟩ := List.mem_map.mp within
        obtain ⟨s, before, rfl⟩ := List.mem_map.mp counted
        by_cases same : s.relid = rel.oid
        · obtain rfl := keyed.eq_of_mem before inShadows (same.trans here.symm)
          right
          simp only [if_pos same]
        · simp only [if_neg same]
          exact Or.inl ⟨before, same⟩
      rw [found] at member
      dsimp only at member
      by_cases failed : current.failed = true
      · rw [if_pos failed] at member
        rcases back _ member with ⟨before, apart⟩ | same
        · exact .other before apart
        · exact .refilled inShadows here failed same
      · rw [if_neg failed] at member
        rcases back _ member with ⟨before, apart⟩ | same
        · exact .other before apart
        · exact .extended inShadows here (Bool.not_eq_true _ ▸ failed) same

theorem ensureShadow_other {rel : BaseRelation} {frontier : Nat} {needed keys : List String} {base : BaseTable} {shadows : List ShadowRow}
    {s : ShadowRow} (member : s ∈ shadows) (apart : s.relid ≠ rel.oid) : s ∈ ensureShadow rel frontier needed keys base shadows := by
  have stays : ∀ (f : ShadowRow → ShadowRow) {ss : List ShadowRow}, s ∈ ss → s ∈ updateShadow rel.oid f ss := fun f ss within =>
    List.mem_map.mpr ⟨s, within, if_neg apart⟩
  unfold ensureShadow
  cases shadows.find? (·.relid = rel.oid) with
  | none => exact List.mem_append_left _ member
  | some current =>
      dsimp only
      split
      · exact stays _ (stays _ member)
      · exact stays _ (stays _ member)

/-- The shadows of a group that handled the relations `done` so far, over those before it. -/
structure Prepared (h : History S) (point : Nat) (before : List ShadowRow) (done : List Nat) (shadows : List ShadowRow) : Prop where
  keyed : Keyed ShadowRow.relid shadows
  others : ∀ s ∈ shadows, s.relid ∉ done → s ∈ before
  stays : ∀ s ∈ before, s.relid ∉ done → s ∈ shadows
  shows : ∀ s ∈ shadows, s.relid ∈ done → s.failed = false ∧ s.Shows S (h.asOf s.frontier s.relid)
  origin : ∀ s ∈ shadows, s.relid ∈ done → (s.frontier = point ∧ ∀ s₀ ∈ before, s₀.relid = s.relid → s₀.failed = true) ∨
    ∃ s₀ ∈ before, s₀.relid = s.relid ∧ s₀.failed = false ∧ s.frontier = s₀.frontier

theorem Prepared.ensure {h : History S} {before : List ShadowRow} {done : List Nat} {shadows : List ShadowRow}
    (prepared : Prepared h point before done shadows) (sees : sight.Sees S (h.asOf point))
    (good : ∀ s ∈ before, s.failed = false → s.Shows S (h.asOf s.frontier s.relid)) {rel : BaseRelation} (needed keys : List String)
    (pk : rel.pkColumns = S.primaryKey rel.oid) (once : rel.oid ∉ done)
    (fills : ∀ s ∈ before, s.relid = rel.oid → s.failed = false →
      s.Backfills S (h.asOf point rel.oid) (s.added rel needed (sight.table rel.oid)) (h.asOf s.frontier s.relid)) :
    Prepared h point before (rel.oid :: done) (ensureShadow rel point needed keys (sight.table rel.oid) shadows) := by
  have ok := h.asOf_ok point
  have first : ∀ s ∈ shadows, s.relid = rel.oid → s ∈ before := fun s member here =>
    prepared.others s member (here ▸ once)
  have made : ∀ s' ∈ ensureShadow rel point needed keys (sight.table rel.oid) shadows, s'.relid = rel.oid →
      (s'.failed = false ∧ s'.Shows S (h.asOf s'.frontier s'.relid)) ∧
        ((s'.frontier = point ∧ ∀ s₀ ∈ before, s₀.relid = s'.relid → s₀.failed = true) ∨
          ∃ s₀ ∈ before, s₀.relid = s'.relid ∧ s₀.failed = false ∧ s'.frontier = s₀.frontier) := by
    intro s' member here'
    cases mem_ensureShadow prepared.keyed member with
    | other inShadows apart => exact absurd here' apart
    | created absent same =>
        subst same
        refine ⟨⟨rfl, (createShadow_filled rel point needed keys _).shows sees ok pk⟩, Or.inl ⟨rfl, ?_⟩⟩
        intro s₀ inBefore here
        exact absurd here (absent s₀ (prepared.stays s₀ inBefore (here ▸ once)))
    | @refilled s inShadows here failed same =>
        have filled : s'.Filled rel needed (sight.table rel.oid) := by
          rw [same]
          exact refillShadow_filled (show ({ s with refcount := s.refcount + 1 } : ShadowRow).relid = rel.oid from here) point needed keys _
        have frontier : s'.frontier = point := by rw [same]; rfl
        refine ⟨⟨by rw [same]; rfl, ?_⟩, Or.inl ⟨frontier, ?_⟩⟩
        · rw [frontier]
          exact filled.shows sees ok pk
        · intro s₀ inBefore here₀
          rw [here'] at here₀
          obtain rfl := prepared.keyed.eq_of_mem (prepared.stays s₀ inBefore (here₀ ▸ once)) inShadows (here₀.trans here.symm)
          exact failed
    | @extended s inShadows here sound same =>
        have inBefore := first s inShadows here
        have okThen := h.asOf_ok s.frontier
        have counted := (good s inBefore sound).counted (s.refcount + 1)
        obtain ⟨shows, relid, frontier, failed⟩ := @ShadowRow.Shows.extend pf S sight rel needed keys (h.asOf point) _ _ counted here sees ok pk
          (okThen.keyed s.relid) (okThen.rows s.relid) (fills s inBefore here sound)
        rw [← same] at shows relid frontier failed
        refine ⟨⟨failed.trans sound, ?_⟩, Or.inr ⟨s, inBefore, relid.symm, sound, frontier⟩⟩
        rw [frontier, relid]
        exact shows
  have handled : ∀ {s' : ShadowRow}, s' ∈ ensureShadow rel point needed keys (sight.table rel.oid) shadows → s'.relid ≠ rel.oid → s' ∈ shadows := by
    intro s' member apart
    cases mem_ensureShadow prepared.keyed member with
    | other inShadows _ => exact inShadows
    | created _ same => exact absurd (by rw [same]; rfl) apart
    | refilled _ here _ same => exact absurd (by rw [same]; exact here) apart
    | extended _ here _ same => exact absurd (by rw [same]; exact (extendShadow_counts rel needed keys _ _).1.trans here) apart
  refine ⟨ensureShadow_relids prepared.keyed, ?_, ?_, ?_, ?_⟩
  · intro s member untouched
    rw [List.mem_cons, not_or] at untouched
    exact prepared.others s (handled member untouched.1) untouched.2
  · intro s inBefore untouched
    rw [List.mem_cons, not_or] at untouched
    exact ensureShadow_other (prepared.stays s inBefore untouched.2) untouched.1
  · intro s member touched
    by_cases here : s.relid = rel.oid
    · exact (made s member here).1
    · exact prepared.shows s (handled member here) ((List.mem_cons.mp touched).resolve_left here)
  · intro s member touched
    by_cases here : s.relid = rel.oid
    · exact (made s member here).2
    · exact prepared.origin s (handled member here) ((List.mem_cons.mp touched).resolve_left here)

def Catalog.specs (c : Catalog) : List (Nat × ViewSpec) := c.views.map fun row => (row.id, row.spec)

theorem neededColumns_congr {c c' : Catalog} (relations : c'.viewRelations = c.viewRelations) (specs : c'.specs = c.specs) :
    neededColumns c' = neededColumns c := by
  have referencing : ∀ (d : Catalog) relid, d.referencing relid =
      (d.specs.filter fun p => d.viewRelations.contains (p.1, relid)).map Prod.snd := by
    intro d relid
    rw [Catalog.specs, List.filter_map, List.map_map]
    rfl
  funext relid own
  rw [neededColumns, neededColumns, referencing c', referencing c, relations, specs]

/-- The group reuses shadows only where they can follow their tables: none has yet to absorb
a TRUNCATE from before the point, and the columns that are added are filled with the values
of the shadow's own position. -/
structure Catalog.Reuses (S : Schema pf) (h : History S) (sight : Sight) (point : Nat) (group : List Pending) (c : Catalog) : Prop where
  intact : ∀ view ∈ group, view.spec.isJoin = true → ∀ b ∈ view.spec.relations, ∀ s ∈ c.shadows, s.relid = b.oid → s.failed = false →
    h.Intact b.oid s.frontier point
  fills : ∀ view ∈ group, view.spec.isJoin = true → ∀ b ∈ view.spec.relations, ∀ s ∈ c.shadows, s.relid = b.oid → s.failed = false →
    s.Backfills S (h.asOf point b.oid) (s.added b (neededColumns c b.oid view.spec).1 (sight.table b.oid)) (h.asOf s.frontier s.relid)

section Group

variable {h : History S} {before : List ShadowRow} (sees : sight.Sees S (h.asOf point))
  (good : ∀ s ∈ before, s.failed = false → s.Shows S (h.asOf s.frontier s.relid))
include sees good

theorem buildShadows_prepared (spec : ViewSpec) (rels : List BaseRelation) {done : List Nat} {c : Catalog}
    (prepared : Prepared h point before done c.shadows) (pk : ∀ rel ∈ rels, rel.pkColumns = S.primaryKey rel.oid)
    (fills : ∀ rel ∈ rels, ∀ s ∈ before, s.relid = rel.oid → s.failed = false →
      s.Backfills S (h.asOf point rel.oid) (s.added rel (neededColumns c rel.oid spec).1 (sight.table rel.oid)) (h.asOf s.frontier s.relid)) :
    Prepared h point before (buildShadows sight point false spec rels done c).2 (buildShadows sight point false spec rels done c).1.shadows ∧
      (∀ relid ∈ done, relid ∈ (buildShadows sight point false spec rels done c).2) ∧
      ∀ rel ∈ rels, rel.oid ∈ (buildShadows sight point false spec rels done c).2 := by
  induction rels generalizing done c with
  | nil => exact ⟨prepared, fun _ member => member, fun _ member => absurd member List.not_mem_nil⟩
  | cons rel rels ih =>
      rw [List.forall_mem_cons] at pk fills
      rw [buildShadows]
      by_cases handled : done.contains rel.oid = true
      · rw [if_pos handled]
        obtain ⟨later, kept, all⟩ := ih prepared pk.2 fills.2
        exact ⟨later, kept, List.forall_mem_cons.mpr ⟨kept _ (List.contains_iff_mem.mp handled), all⟩⟩
      · rw [if_neg handled]
        have ensured := prepared.ensure sees good _ (neededColumns c rel.oid spec).2 pk.1
          (fun member => handled (List.contains_iff_mem.mpr member)) fills.1
        obtain ⟨later, kept, all⟩ := @ih (rel.oid :: done) { c with shadows := _ } ensured pk.2 fills.2
        exact ⟨later, fun relid member => kept relid (List.mem_cons_of_mem _ member),
          List.forall_mem_cons.mpr ⟨kept _ List.mem_cons_self, all⟩⟩

theorem build_prepared {view : Pending} {done done' : List Nat} {c c' : Catalog} (first : view.rebuild = false)
    (built : build sight point view done c = .ok (c', done')) (prepared : Prepared h point before done c.shadows)
    (pk : ∀ rel ∈ view.spec.relations, rel.pkColumns = S.primaryKey rel.oid)
    (fills : view.spec.isJoin = true → ∀ rel ∈ view.spec.relations, ∀ s ∈ before, s.relid = rel.oid → s.failed = false →
      s.Backfills S (h.asOf point rel.oid) (s.added rel (neededColumns c rel.oid view.spec).1 (sight.table rel.oid)) (h.asOf s.frontier s.relid)) :
    Prepared h point before done' c'.shadows ∧ c'.specs = c.specs ∧ (∀ relid ∈ done, relid ∈ done') ∧
      (view.spec.isJoin = true → ∀ rel ∈ view.spec.relations, rel.oid ∈ done') := by
  have own : sight.spec view = .ok view.spec := by rw [Sight.spec, first]; rfl
  cases build_step built with
  | refused message invalid =>
      rw [own] at invalid
      cases invalid
  | built spec valid =>
      obtain rfl : view.spec = spec := Except.ok.inj (own.symm.trans valid)
      have respec : c.respec view view.spec = c := by rw [Catalog.respec, first]; rfl
      have specs : ∀ d : Catalog, (d.updateView view.id fun row => row.built point view.rebuild (sight.populate view.spec)).specs = d.specs := by
        intro d
        rw [Catalog.specs, Catalog.updateView, List.map_map, Catalog.specs]
        apply List.map_congr_left
        intro row _
        rw [Function.comp_apply]
        split <;> rfl
      rw [respec]
      unfold Catalog.reshadow
      rw [first]
      by_cases join : view.spec.isJoin = true
      · rw [if_pos join]
        obtain ⟨later, kept, all⟩ := buildShadows_prepared sees good view.spec view.spec.relations prepared pk (fills join)
        refine ⟨later, ?_, kept, fun _ => all⟩
        rw [← first, specs, Catalog.specs, buildShadows_views]
        rfl
      · rw [if_neg join]
        refine ⟨prepared, ?_, fun _ member => member, fun joins => absurd joins join⟩
        rw [← first, specs]

theorem buildGroup_prepared {group : List Pending} {done : List Nat} {c c' : Catalog} (first : ∀ view ∈ group, view.rebuild = false)
    (built : buildGroup sight point group done c = .ok c') (prepared : Prepared h point before done c.shadows)
    (pk : ∀ view ∈ group, ∀ rel ∈ view.spec.relations, rel.pkColumns = S.primaryKey rel.oid)
    (fills : ∀ view ∈ group, view.spec.isJoin = true → ∀ rel ∈ view.spec.relations, ∀ s ∈ before, s.relid = rel.oid → s.failed = false →
      s.Backfills S (h.asOf point rel.oid) (s.added rel (neededColumns c rel.oid view.spec).1 (sight.table rel.oid)) (h.asOf s.frontier s.relid)) :
    ∃ done', Prepared h point before done' c'.shadows ∧ c'.specs = c.specs ∧ (∀ relid ∈ done, relid ∈ done') ∧
      ∀ view ∈ group, view.spec.isJoin = true → ∀ rel ∈ view.spec.relations, rel.oid ∈ done' := by
  induction group generalizing done c with
  | nil =>
      obtain rfl := Except.ok.inj built
      exact ⟨done, prepared, rfl, fun _ member => member, fun _ member => absurd member List.not_mem_nil⟩
  | cons view group ih =>
      rw [buildGroup] at built
      cases one : build sight point view done c with
      | error message => simp only [one, reduceCtorEq] at built
      | ok r =>
          obtain ⟨c₁, done₁⟩ := r
          simp only [one] at built
          rw [List.forall_mem_cons] at first pk fills
          obtain ⟨prepared₁, specs₁, kept₁, own⟩ := build_prepared sees good first.1 one prepared pk.1 fills.1
          have needed := neededColumns_congr (build_step one).viewRelations specs₁
          obtain ⟨done', prepared', specs', kept', others⟩ := ih first.2 built prepared₁ pk.2 (by rw [needed]; exact fills.2)
          exact ⟨done', prepared', specs'.trans specs₁, fun relid member => kept' relid (kept₁ relid member),
            List.forall_mem_cons.mpr ⟨fun join rel member => kept' _ (own join rel member), others⟩⟩

end Group

/-- Every maintained shadow shows its table as of its own frontier, and every live join view
its query. -/
structure Durable.Mirrored (h : History S) (origin : Nat → Nat) (d : Durable) : Prop where
  settled : d.Settled h d.catalog.activeColumns origin
  paired : ∀ s ∈ d.catalog.shadows, s.columns.length = s.columnTypes.length
  intact : ∀ s ∈ d.catalog.shadows, s.failed = false → h.Intact s.relid (origin s.relid) s.frontier

theorem History.Intact.trans {h : History S} {relid o p q : Nat} (first : h.Intact relid o p) (second : h.Intact relid p q) : h.Intact relid o q := by
  intro t member later
  obtain ⟨inHistory, low⟩ := List.mem_filter.mp member
  by_cases early : t.endLsn ≤ p
  · exact first t (List.mem_filter.mpr ⟨inHistory, decide_eq_true early⟩) later
  · exact second t member (not_le.mp early)

theorem History.intact_later {h : History S} {o p : Nat} (none : ∀ t ∈ h.commits, t.endLsn ≤ p → t.endLsn ≤ o) (relid : Nat) : h.Intact relid o p := by
  intro t member later
  obtain ⟨inHistory, low⟩ := List.mem_filter.mp member
  exact absurd (none t inHistory (of_decide_eq_true low)) later.not_ge

section Mirrored

variable {h : History S} {origin : Nat → Nat}

theorem Durable.Mirrored.shows {d : Durable} (mirrored : d.Mirrored h origin) : ∀ s ∈ d.catalog.shadows, s.failed = false →
    s.Shows S (h.asOf s.frontier s.relid) := by
  intro s member sound
  have synced := mirrored.settled.synced
  have follows := (synced.follows s member sound (mirrored.intact s member sound)).mirrors
  have columns := Catalog.activeColumns_eq synced.keyed member
  change Mirrors S (d.catalog.activeColumns s.relid) s s.rows _ at follows
  rw [columns] at follows
  exact ⟨synced.fits s member, mirrored.paired s member, follows⟩

theorem Durable.Mirrored.of_shows {d : Durable} (ids : Keyed ViewRow.id d.catalog.views) (keyed : Keyed ShadowRow.relid d.catalog.shadows)
    (fits : ∀ s ∈ d.catalog.shadows, s.Fits S) (paired : ∀ s ∈ d.catalog.shadows, s.columns.length = s.columnTypes.length)
    (since : ∀ s ∈ d.catalog.shadows, origin s.relid ≤ s.frontier)
    (shows : ∀ s ∈ d.catalog.shadows, s.failed = false → s.Shows S (h.asOf s.frontier s.relid))
    (intact : ∀ s ∈ d.catalog.shadows, s.failed = false → h.Intact s.relid (origin s.relid) s.frontier)
    (views : ∀ row ∈ d.catalog.views, row.status = .live → row.spec.isJoin = true → row.Settled h origin)
    (slotViews : ∀ confirmed, d.slot = some confirmed → ∀ row ∈ d.catalog.views, row.status = .live →
      ∀ t ∈ h.commits, t.endLsn ≤ confirmed → t.endLsn ≤ row.frontier)
    (slotShadows : ∀ confirmed, d.slot = some confirmed → ∀ s ∈ d.catalog.shadows, s.failed = false →
      ∀ t ∈ h.commits, t.endLsn ≤ confirmed → t.endLsn ≤ s.frontier) : d.Mirrored h origin := by
  refine ⟨⟨⟨ids, keyed, fits, since, fun s member sound _ => ⟨?_, trivial⟩, views⟩, slotViews, slotShadows⟩, paired, intact⟩
  change Mirrors S (d.catalog.activeColumns s.relid) s s.rows _
  rw [Catalog.activeColumns_eq keyed member]
  exact (shows s member sound).mirrors

/-- A round that meets no TRUNCATE of a table whose shadow has yet to absorb it. -/
theorem Durable.Mirrored.round {stream : List SourceTransaction} (sends : List.Forall₂ (TransactionEncodes S) h.commits stream)
    {d d' : Durable} {settings : Settings} {faults : Faults} {cache : Nat → Option Relation} {peek : Peek} {confirmed : Nat}
    (mirrored : d.Mirrored h origin) (slot : d.slot = some confirmed) (reads : peek.Reads stream confirmed)
    (described : ∀ r ∈ changedRelids peek.transactions, Described S cache r)
    (admits : d.catalog.Admits h d.catalog.activeColumns peek.transactions)
    (untruncated : ∀ t ∈ h.commits, t.endLsn ∈ peek.transactions.map SourceTransaction.endLsn → ∀ s ∈ d.catalog.shadows,
      s.Active t.endLsn → ∀ relids, .truncate relids ∈ t.changes → s.relid ∉ relids)
    (state : d' ∈ runRound pf settings faults cache peek d) : d'.Mirrored h origin := by
  obtain ⟨settled, goes⟩ := mirrored.settled.round sends slot reads described admits state
  have synced := settled.synced
  have intact : ∀ s ∈ d'.catalog.shadows, s.failed = false → h.Intact s.relid (origin s.relid) s.frontier := by
    intro s' member sound t within later relids truncates
    obtain ⟨s, before, went⟩ := goes s' member
    obtain ⟨inHistory, low⟩ := List.mem_filter.mp within
    have old := mirrored.intact s before (went.alive sound)
    rw [went.relid] at later ⊢
    by_cases early : t.endLsn ≤ s.frontier
    · exact old t (List.mem_filter.mpr ⟨inHistory, decide_eq_true early⟩) later relids truncates
    · have read := (went.reach t inHistory (of_decide_eq_true low)).resolve_left early
      exact untruncated t inHistory read s before ⟨went.alive sound, not_le.mp early⟩ relids truncates
  have paired : ∀ s ∈ d'.catalog.shadows, s.columns.length = s.columnTypes.length := by
    intro s' member
    obtain ⟨s, before, went⟩ := goes s' member
    rw [went.columns, went.types]
    exact mirrored.paired s before
  refine .of_shows synced.ids synced.keyed synced.fits paired synced.since ?_ intact synced.views settled.views settled.shadows
  intro s' member sound
  obtain ⟨s, before, went⟩ := goes s' member
  have follows := (synced.follows s' member sound (intact s' member sound)).mirrors
  change Mirrors S (d.catalog.activeColumns s'.relid) s' s'.rows _ at follows
  rw [went.relid, Catalog.activeColumns_eq mirrored.settled.synced.keyed before, ← went.columns, ← went.relid] at follows
  exact ⟨synced.fits s' member, paired s' member, follows⟩

/-- A group of views that were validated against the schema and never built before. -/
structure Catalog.FirstBuilds (S : Schema pf) (c : Catalog) (group : List Pending) : Prop where
  distinct : (group.map Pending.id).Nodup
  first : ∀ view ∈ group, view.rebuild = false
  fits : ∀ view ∈ group, view.spec.isJoin = true → view.spec.Fits S
  pk : ∀ view ∈ group, ∀ rel ∈ view.spec.relations, rel.pkColumns = S.primaryKey rel.oid
  loaded : ∀ view ∈ group, ∀ row ∈ c.views, row.id = view.id → row.spec = view.spec

def buildOrigin (origin : Nat → Nat) (point : Nat) (before : List ShadowRow) (done : List Nat) (relid : Nat) : Nat :=
  if relid ∈ done ∧ ∀ s ∈ before, s.relid = relid → s.failed = true then point else origin relid

theorem buildOrigin_anew {before : List ShadowRow} {done : List Nat} {relid : Nat} (member : relid ∈ done)
    (failed : ∀ s ∈ before, s.relid = relid → s.failed = true) : buildOrigin origin point before done relid = point :=
  if_pos ⟨member, failed⟩

theorem buildOrigin_reused {before : List ShadowRow} {done : List Nat} {s : ShadowRow} (inBefore : s ∈ before) (sound : s.failed = false) :
    buildOrigin origin point before done s.relid = origin s.relid :=
  if_neg fun both => Bool.false_ne_true (sound.symm.trans (both.2 s inBefore rfl))

theorem buildOrigin_untouched {before : List ShadowRow} {done : List Nat} {relid : Nat} (apart : relid ∉ done) :
    buildOrigin origin point before done relid = origin relid :=
  if_neg fun both => apart both.1

theorem Durable.Mirrored.prepared_shadow {c : Catalog} {slot : Option Nat} (mirrored : Durable.Mirrored h origin ⟨c, slot⟩)
    (main : ∀ position, slot = some position → position ≤ point) {done : List Nat} {shadows : List ShadowRow}
    (prepared : Prepared h point c.shadows done shadows) {s : ShadowRow} (member : s ∈ shadows) :
    s.Fits S ∧ s.columns.length = s.columnTypes.length ∧ buildOrigin origin point c.shadows done s.relid ≤ s.frontier ∧
      (s.failed = false → s.Shows S (h.asOf s.frontier s.relid) ∧
        h.Intact s.relid (buildOrigin origin point c.shadows done s.relid) s.frontier ∧
        ∀ confirmed, slot = some confirmed → ∀ t ∈ h.commits, t.endLsn ≤ confirmed → t.endLsn ≤ s.frontier) := by
  by_cases handled : s.relid ∈ done
  · obtain ⟨sound, shows⟩ := prepared.shows s member handled
    rcases prepared.origin s member handled with ⟨atPoint, failed⟩ | ⟨s₀, inBefore, here, sound₀, frontier⟩
    · rw [buildOrigin_anew handled failed, atPoint]
      refine ⟨shows.fits, shows.paired, le_refl _, fun _ => ⟨atPoint ▸ shows, h.intact_later (fun _ _ => id) _, ?_⟩⟩
      exact fun confirmed at_ t _ low => low.trans (main confirmed at_)
    · rw [← here, buildOrigin_reused inBefore sound₀, here, frontier]
      refine ⟨shows.fits, shows.paired, ?_, fun _ => ⟨frontier ▸ shows, ?_, ?_⟩⟩
      · exact here ▸ mirrored.settled.synced.since s₀ inBefore
      · exact here ▸ mirrored.intact s₀ inBefore sound₀
      · exact fun confirmed at_ => mirrored.settled.shadows confirmed at_ s₀ inBefore sound₀
  · have inBefore := prepared.others s member handled
    rw [buildOrigin_untouched handled]
    exact ⟨mirrored.settled.synced.fits s inBefore, mirrored.paired s inBefore, mirrored.settled.synced.since s inBefore, fun sound =>
      ⟨mirrored.shows s inBefore sound, mirrored.intact s inBefore sound, fun confirmed at_ =>
        mirrored.settled.shadows confirmed at_ s inBefore sound⟩⟩

/-- A view that a group of first builds leaves live: it stood before, or it is at the point
with its query over what the population saw. -/
theorem Catalog.FirstBuilds.live {c : Catalog} {group : List Pending} (firsts : c.FirstBuilds S group) {row row' : ViewRow}
    (member : row ∈ c.views) (built : row.Built sight point group row') (live : row'.status = .live) :
    row' = row ∨ ∃ view ∈ group, row'.spec = view.spec ∧ row'.frontier = point ∧ row'.storage = sight.populate view.spec := by
  by_cases inside : row.id ∈ group.map Pending.id
  · rcases built.inside inside with ⟨view, inGroup, same, spec, valid, rfl⟩ | ⟨message, rfl⟩
    · have first := firsts.first view inGroup
      rw [Sight.spec, first, if_neg Bool.false_ne_true] at valid
      obtain rfl := Except.ok.inj valid
      refine Or.inr ⟨view, inGroup, ?_, rfl, rfl⟩
      simp only [ViewRow.rebuilt, ViewRow.built, first, Bool.false_eq_true, if_false]
      exact firsts.loaded view inGroup row member same.symm
    · exact absurd live Status.noConfusion
  · exact Or.inl (built.outside inside)

/-- First builds over shadows that can be reused: every view that is live afterwards, an old one
or a new one, holds its query, and its shadows go on to show their tables. -/
theorem Durable.Mirrored.populate {c : Catalog} {slot : Option Nat} {group : List Pending} (mirrored : Durable.Mirrored h origin ⟨c, slot⟩)
    (sees : sight.Sees S (h.asOf point)) (firsts : c.FirstBuilds S group) (reuses : c.Reuses S h sight point group)
    (behind : ∀ row ∈ c.views, row.status = .live → ∀ t ∈ h.commits, t.endLsn ≤ row.frontier → t.endLsn ≤ point) :
    ∃ origin', Durable.Mirrored h origin' ⟨c.populate sight point slot group, slot⟩ := by
  have synced := mirrored.settled.synced
  have views := @Catalog.populate_views sight point group firsts.distinct slot c
  have outcome := c.populate_cases sight point slot group
  generalize c.populate sight point slot group = c' at views outcome
  have ids : Keyed ViewRow.id c'.views := by
    rw [Keyed, map_eq_of_forall₂ views fun _ _ step => step.1.id]
    exact synced.ids
  cases outcome with
  | failed message =>
      have shadows := (c.recordFailure_frame group message).2
      have stands : ∀ row' ∈ (c.recordFailure group message).views, row'.status = .live → row' ∈ c.views := by
        intro row' member live
        obtain ⟨row, before, stood, refused⟩ := mem_of_forall₂_right (c.recordFailure_views group message) member
        by_cases inside : row.id ∈ group.map Pending.id
        · rw [refused inside] at live
          exact absurd live Status.noConfusion
        · exact stood inside ▸ before
      refine ⟨origin, .of_shows ids ?_ ?_ ?_ ?_ ?_ ?_ ?_ ?_ ?_⟩
      · exact shadows ▸ synced.keyed
      · exact shadows ▸ synced.fits
      · exact shadows ▸ mirrored.paired
      · exact shadows ▸ synced.since
      · exact shadows ▸ mirrored.shows
      · exact shadows ▸ mirrored.intact
      · exact fun row' member live => synced.views row' (stands row' member live) live
      · exact fun confirmed at_ row' member live => mirrored.settled.views confirmed at_ row' (stands row' member live) live
      · exact shadows ▸ mirrored.settled.shadows
  | built main ok =>
      have start : Prepared h point c.shadows [] c.shadows := ⟨synced.keyed, fun _ member _ => member, fun _ member _ => member,
        fun _ _ none => absurd none List.not_mem_nil, fun _ _ none => absurd none List.not_mem_nil⟩
      obtain ⟨done, prepared, _, _, handled⟩ := buildGroup_prepared sees mirrored.shows firsts.first ok start firsts.pk reuses.fills
      have shadow := fun s member => @Durable.Mirrored.prepared_shadow pf S point h origin c slot mirrored main done c'.shadows prepared s member
      have intactLive : ∀ relid, ∀ row ∈ c.views, row.status = .live → h.Intact relid (origin relid) row.frontier →
          h.Intact relid (buildOrigin origin point c.shadows done relid) row.frontier := by
        intro relid row member live intact
        unfold buildOrigin
        split
        · exact h.intact_later (behind row member live) relid
        · exact intact
      have intactNew : ∀ view ∈ group, view.spec.isJoin = true → ∀ b ∈ view.spec.relations,
          h.Intact b.oid (buildOrigin origin point c.shadows done b.oid) point := by
        intro view inGroup join b reads
        by_cases anew : ∀ s ∈ c.shadows, s.relid = b.oid → s.failed = true
        · rw [buildOrigin_anew (handled view inGroup join b reads) anew]
          exact h.intact_later (fun _ _ => id) _
        · simp only [not_forall, Bool.not_eq_true] at anew
          obtain ⟨s, inBefore, here, sound⟩ := anew
          rw [← here, buildOrigin_reused inBefore sound]
          exact (mirrored.intact s inBefore sound).trans (here ▸ reuses.intact view inGroup join b reads s inBefore here sound)
      have settledRow : ∀ row' ∈ c'.views, row'.status = .live → row'.spec.isJoin = true →
          row'.Settled h (buildOrigin origin point c.shadows done) := by
        intro row' member live join
        obtain ⟨row, before, built, _⟩ := mem_of_forall₂_right views member
        rcases firsts.live before built live with rfl | ⟨view, inGroup, spec, frontier, storage⟩
        · have old := synced.views row' before live join
          exact ⟨old.fits, old.holds, fun b reads => intactLive b.oid row' before live (old.intact b reads)⟩
        · rw [spec] at join
          have fits := firsts.fits view inGroup join
          refine ⟨spec ▸ fits, ?_, fun b reads => ?_⟩
          · rw [ViewRow.Holds, spec, frontier, storage]
            exact ViewSpec.populate_perm fits.closed fits.tabled sees.rows
          · rw [spec] at reads
            rw [frontier]
            exact intactNew view inGroup join b reads
      refine ⟨buildOrigin origin point c.shadows done, .of_shows ids prepared.keyed ?_ ?_ ?_ ?_ ?_ settledRow ?_ ?_⟩
      · exact fun s member => (shadow s member).1
      · exact fun s member => (shadow s member).2.1
      · exact fun s member => (shadow s member).2.2.1
      · exact fun s member sound => ((shadow s member).2.2.2 sound).1
      · exact fun s member sound => ((shadow s member).2.2.2 sound).2.1
      · intro confirmed at_ row' member live t inHistory low
        obtain ⟨row, before, built, _⟩ := mem_of_forall₂_right views member
        rcases firsts.live before built live with rfl | ⟨view, inGroup, spec, frontier, storage⟩
        · exact mirrored.settled.views confirmed at_ row' before live t inHistory low
        · rw [frontier]
          exact low.trans (main confirmed at_)
      · exact fun confirmed at_ s member sound => ((shadow s member).2.2.2 sound).2.2 confirmed at_

/-- What sessions do between two steps of the worker: they make no view live, and of a shadow
they change nothing but its references. -/
structure Catalog.Sessions (c c' : Catalog) : Prop where
  ids : Keyed ViewRow.id c'.views
  keyed : Keyed ShadowRow.relid c'.shadows
  live : ∀ row ∈ c'.views, row.status = .live → row ∈ c.views
  kept : ∀ s ∈ c'.shadows, ∃ s₀ ∈ c.shadows, s = { s₀ with refcount := s.refcount }

theorem Durable.Mirrored.session {c c' : Catalog} {slot : Option Nat} (mirrored : Durable.Mirrored h origin ⟨c, slot⟩)
    (sessions : c.Sessions c') : Durable.Mirrored h origin ⟨c', slot⟩ := by
  have synced := mirrored.settled.synced
  refine .of_shows sessions.ids sessions.keyed ?_ ?_ ?_ ?_ ?_ ?_ ?_ ?_
  · intro s member
    obtain ⟨s₀, before, same⟩ := sessions.kept s member
    have fits := synced.fits s₀ before
    rw [same]
    exact ⟨fits.pk, fits.active, fits.key, fits.provided⟩
  · intro s member
    obtain ⟨s₀, before, same⟩ := sessions.kept s member
    rw [same]
    exact mirrored.paired s₀ before
  · intro s member
    obtain ⟨s₀, before, same⟩ := sessions.kept s member
    rw [same]
    exact synced.since s₀ before
  · intro s member sound
    obtain ⟨s₀, before, same⟩ := sessions.kept s member
    rw [same] at sound ⊢
    exact (mirrored.shows s₀ before sound).counted s.refcount
  · intro s member sound
    obtain ⟨s₀, before, same⟩ := sessions.kept s member
    rw [same] at sound ⊢
    exact mirrored.intact s₀ before sound
  · exact fun row member live => synced.views row (sessions.live row member live) live
  · exact fun confirmed at_ row member live => mirrored.settled.views confirmed at_ row (sessions.live row member live) live
  · intro confirmed at_ s member sound
    obtain ⟨s₀, before, same⟩ := sessions.kept s member
    rw [same] at sound ⊢
    exact mirrored.settled.shadows confirmed at_ s₀ before sound

theorem Catalog.InStep.mirrored {db : Database} {p confirmed : Nat} {c : Catalog} (inStep : c.InStep S db p) (h : History S)
    (start : h.start = db) (later : ∀ t ∈ h.commits, p < t.endLsn) (held : confirmed ≤ p)
    (paired : ∀ s ∈ c.shadows, s.columns.length = s.columnTypes.length) : Durable.Mirrored h (fun _ => p) ⟨c, some confirmed⟩ := by
  refine ⟨inStep.settled h start later held, paired, fun s member _ => h.intact_later (fun t _ low => ?_) _⟩
  rwa [(inStep.sound s member).2] at low

end Mirrored

/-- The peek of a round truncates no table whose shadow has yet to absorb the transaction, and
it finds the shadows where its transactions need them. -/
structure Catalog.Keeps (h : History S) (c : Catalog) (txs : List SourceTransaction) : Prop where
  untruncated : ∀ t ∈ h.commits, t.endLsn ∈ txs.map SourceTransaction.endLsn → ∀ s ∈ c.shadows, s.Active t.endLsn →
    ∀ relids, .truncate relids ∈ t.changes → s.relid ∉ relids
  admits : c.Admits h c.activeColumns txs

/-- A run of worker rounds, of sessions and of first builds of views; the rounds meet one
condition on the catalog and the peek, the builds another one on the catalog and the group. -/
inductive Reusing (S : Schema pf) (h : History S) (stream : List SourceTransaction) (rounds : Catalog → List SourceTransaction → Prop)
    (builds : Sight → Nat → List Pending → Catalog → Prop) (d₀ : Durable) : Durable → Prop where
  | start : Reusing S h stream rounds builds d₀ d₀
  | session {d : Durable} {c : Catalog} (run : Reusing S h stream rounds builds d₀ d) (sessions : d.catalog.Sessions c) :
      Reusing S h stream rounds builds d₀ ⟨c, d.slot⟩
  | built {d : Durable} {sight : Sight} {point : Nat} {group : List Pending} (run : Reusing S h stream rounds builds d₀ d)
      (sees : sight.Sees S (h.asOf point)) (firsts : d.catalog.FirstBuilds S group)
      (behind : ∀ row ∈ d.catalog.views, row.status = .live → ∀ t ∈ h.commits, t.endLsn ≤ row.frontier → t.endLsn ≤ point)
      (met : builds sight point group d.catalog) :
      Reusing S h stream rounds builds d₀ ⟨d.catalog.populate sight point d.slot group, d.slot⟩
  | round {settings : Settings} {faults : Faults} {cache : Nat → Option Relation} {peek : Peek} {confirmed : Nat} {d d' : Durable}
      (run : Reusing S h stream rounds builds d₀ d) (slot : d.slot = some confirmed) (reads : peek.Reads stream confirmed)
      (described : ∀ r ∈ changedRelids peek.transactions, Described S cache r) (met : rounds d.catalog peek.transactions)
      (state : d' ∈ runRound pf settings faults cache peek d) : Reusing S h stream rounds builds d₀ d'

theorem Reusing.mirrored {h : History S} {stream : List SourceTransaction} {origin : Nat → Nat} {d₀ d : Durable}
    (sends : List.Forall₂ (TransactionEncodes S) h.commits stream) (starts : d₀.Mirrored h origin)
    (run : Reusing S h stream (Catalog.Keeps h) (Catalog.Reuses S h) d₀ d) : ∃ origin', d.Mirrored h origin' := by
  induction run with
  | start => exact ⟨origin, starts⟩
  | session run sessions before =>
      obtain ⟨origin', mirrored⟩ := before
      exact ⟨origin', mirrored.session sessions⟩
  | built run sees firsts behind met before =>
      obtain ⟨_, mirrored⟩ := before
      exact mirrored.populate sees firsts met behind
  | round run slot reads described met state before =>
      obtain ⟨origin', mirrored⟩ := before
      exact ⟨origin', mirrored.round sends slot reads described met.admits met.untruncated state⟩

/-- Whatever rounds absorb and views are built over the shadows, a shadow that is not flagged
failed holds the rows of its table as of its frontier, and every live join view its query. -/
theorem Reusing.copies_hold {h : History S} {stream : List SourceTransaction} {origin : Nat → Nat} {d₀ d : Durable}
    (sends : List.Forall₂ (TransactionEncodes S) h.commits stream) (starts : d₀.Mirrored h origin)
    (run : Reusing S h stream (Catalog.Keeps h) (Catalog.Reuses S h) d₀ d) :
    (∀ s ∈ d.catalog.shadows, s.failed = false →
      (s.rows.map (narrowRow s.columns)).Perm ((h.asOf s.frontier s.relid).map (narrowRow s.columns))) ∧
      ∀ row ∈ d.catalog.views, row.status = .live → row.spec.isJoin = true → row.Holds (h.asOf row.frontier) := by
  obtain ⟨origin', mirrored⟩ := run.mirrored sends starts
  exact ⟨fun s member sound => (mirrored.shows s member sound).mirrors.rows,
    fun row member live join => (mirrored.settled.synced.views row member live join).holds⟩

def emptiedStream : List SourceTransaction :=
  [⟨1, 9, 10, [.insert 1 (encodeRow .basic (shopRelation 1) waitingOrder)]⟩, ⟨2, 19, 20, [.truncate [1]]⟩]

def emptiedHistory : History shop where
  start := fun _ => []
  commits := [⟨10, [.insert 1 waitingOrder]⟩, ⟨20, [.truncate [1]]⟩]
  ok := shop_ok
  increasing := by decide
  valid := ⟨⟨shopRow_ok 1 ⟨"o", rfl⟩ (Or.inr rfl) (Or.inl rfl), List.not_mem_nil⟩, trivial, trivial⟩

theorem emptied_sends : List.Forall₂ (TransactionEncodes shop) emptiedHistory.commits emptiedStream :=
  .cons ⟨rfl, .cons .insert .nil⟩ (.cons ⟨rfl, .cons .truncate .nil⟩ .nil)

/-- The shadow of the orders keeps the order that the table has lost. -/
theorem emptied_kept : ¬ ∀ {h : History shop} {stream : List SourceTransaction} {origin : Nat → Nat} {d₀ d : Durable},
    List.Forall₂ (TransactionEncodes shop) h.commits stream → d₀.Mirrored h origin →
    Reusing shop h stream (fun _ _ => True) (fun _ _ _ _ => True) d₀ d →
    ∀ s ∈ d.catalog.shadows, s.failed = false →
      (s.rows.map (narrowRow s.columns)).Perm ((h.asOf s.frontier s.relid).map (narrowRow s.columns)) := by
  intro claim
  obtain ⟨d, s, state, member, relid, sound, frontier, rows⟩ : ∃ d s,
      d ∈ runRound .basic shopSettings Faults.none (some ∘ shopRelation) ⟨0, 20, emptiedStream, true, false⟩ ⟨shopCatalog, some 0⟩ ∧
      s ∈ d.catalog.shadows ∧ s.relid = 1 ∧ s.failed = false ∧ s.frontier = 20 ∧ s.rows.length = 1 :=
    ⟨_, _, List.mem_of_getElem? (i := 0) rfl, List.mem_cons_self, rfl, rfl, rfl, rfl⟩
  have starts : Durable.Mirrored emptiedHistory (fun _ => 0) ⟨shopCatalog, some 0⟩ := by
    refine shopCatalog_inStep.mirrored emptiedHistory rfl ?_ (Nat.le_refl 0) (by decide)
    intro t member
    simp only [emptiedHistory, List.mem_cons, List.not_mem_nil, or_false] at member
    rcases member with rfl | rfl <;> decide
  have run : Reusing shop emptiedHistory emptiedStream (fun _ _ => True) (fun _ _ _ _ => True) ⟨shopCatalog, some 0⟩ d :=
    .round .start rfl ⟨20, rfl, fun _ => le_refl 20⟩ (fun r _ => shop_described r) trivial state
  have equal := (claim emptied_sends starts run s member sound).length_eq
  have none : emptiedHistory.asOf 20 1 = [] := rfl
  rw [List.length_map, List.length_map, rows, relid, frontier, none] at equal
  exact absurd equal (by decide)

def orderedCatalog (orders : List BaseRow) : Catalog where
  views := [shopView 10 []]
  viewRelations := [(7, 1), (7, 2)]
  shadows := [shopShadow 1 10 ["id", "ref", "doc"] ["text", "text", "jsonb"] orders, shopShadow 2 10 ["id"] ["text"] []]

def againCatalog (orders : List BaseRow) : Catalog :=
  { orderedCatalog orders with
    views := [shopView 10 [], { shopView 0 [] with id := 8, name := "again", status := .initializing, populated := false }]
    viewRelations := [(7, 1), (7, 2), (8, 1), (8, 2)] }

def againGroup : List Pending := [{ id := 8, name := "again", status := .initializing, definition := "select", spec := shopSpec, populated := false }]

def againSight : Sight where
  table := fun relid => ⟨[("id", "text"), ("ref", "text"), ("doc", "jsonb")], if relid = 1 then [waitingOrder] else []⟩
  validate := fun _ => .ok shopSpec
  fault := fun _ => none

theorem again_sees : againSight.Sees shop (waitingHistory.asOf 15) where
  rows := by
    intro relid
    by_cases orders : relid = 1
    · subst orders
      exact List.Perm.refl _
    · have table : waitingHistory.asOf 15 relid = [] := by
        show (if relid = 1 then _ else _) = _
        rw [if_neg orders]
        rfl
      rw [table]
      simp only [againSight, if_neg orders, List.Perm.refl]
  distinct := fun _ => show ["id", "ref", "doc"].Nodup by decide
  described := fun relid => show ∀ p ∈ [("id", "text"), ("ref", "text"), ("doc", "jsonb")], (shopRelation relid).provides p.1 p.2 by
    intro p member
    simp only [List.mem_cons, List.not_mem_nil, or_false] at member
    rcases member with rfl | rfl | rfl <;> rfl
  key := fun _ => show ["id"] ⊆ ["id", "ref", "doc"] by decide

theorem again_firsts (orders : List BaseRow) : (againCatalog orders).FirstBuilds shop againGroup where
  distinct := List.nodup_singleton _
  first := fun view member => by rw [List.mem_singleton.mp member]; rfl
  fits := fun view member _ => by rw [List.mem_singleton.mp member]; exact shopSpec_fits
  pk := fun view member rel inSpec => by
    rw [List.mem_singleton.mp member] at inSpec
    simp only [shopSpec, List.mem_cons, List.not_mem_nil, or_false] at inSpec
    rcases inSpec with rfl | rfl <;> rfl
  loaded := fun view member row inViews _ => by
    rw [List.mem_singleton.mp member]
    simp only [againCatalog, List.mem_cons, List.not_mem_nil, or_false] at inViews
    rcases inViews with rfl | rfl <;> rfl

theorem waiting_untruncated {t : BaseTransaction} (member : t ∈ waitingHistory.commits) (relids : List Nat) : .truncate relids ∉ t.changes := by
  intro within
  simp only [waitingHistory, List.mem_cons, List.not_mem_nil, or_false] at member
  rcases member with rfl | rfl <;> simp only [List.mem_cons, reduceCtorEq, List.not_mem_nil, or_false] at within

theorem again_reuses (orders : List BaseRow) : (againCatalog orders).Reuses shop waitingHistory againSight 15 againGroup where
  intact := fun view _ _ b _ s _ _ _ t within _ relids truncates =>
    absurd truncates (waiting_untruncated (List.mem_of_mem_filter within) relids)
  fills := by
    intro view inGroup _ b reads s member here _ row _ p added
    rw [List.mem_singleton.mp inGroup] at reads added
    simp only [againCatalog, orderedCatalog, List.mem_cons, List.not_mem_nil, or_false] at member
    simp only [shopSpec, List.mem_cons, List.not_mem_nil, or_false] at reads
    -- neither shadow lacks a column that a view of the shop needs
    rcases reads with rfl | rfl
    · rcases member with rfl | rfl
      · exact absurd added List.not_mem_nil
      · exact absurd (show 2 = 1 from here) (by decide)
    · rcases member with rfl | rfl
      · exact absurd (show 1 = 2 from here) (by decide)
      · exact absurd added List.not_mem_nil

/-- The second view is built over the shadows of the first one. -/
theorem again_holds : ∃ d row, Reusing shop waitingHistory waitingStream (Catalog.Keeps waitingHistory) (Catalog.Reuses shop waitingHistory)
      ⟨shopCatalog, some 0⟩ d ∧ row ∈ d.catalog.views ∧ row.id = 8 ∧ row.status = .live ∧ row.frontier = 15 ∧
    row.Holds (waitingHistory.asOf 15) ∧ ∃ s ∈ d.catalog.shadows, s.relid = 1 ∧ s.frontier = 10 ∧
      (s.rows.map (narrowRow s.columns)).Perm ((waitingHistory.asOf 10 1).map (narrowRow s.columns)) := by
  obtain ⟨orders, state⟩ : ∃ orders, (⟨orderedCatalog orders, some 0⟩ : Durable) ∈
      runRound .basic shopSettings Faults.none (some ∘ shopRelation) ⟨0, 10, waitingStream.take 1, false, false⟩ ⟨shopCatalog, some 0⟩ :=
    ⟨_, List.mem_of_getElem? (i := 0) rfl⟩
  have starts : Durable.Mirrored waitingHistory (fun _ => 0) ⟨shopCatalog, some 0⟩ := by
    refine shopCatalog_inStep.mirrored waitingHistory rfl ?_ (Nat.le_refl 0) (by decide)
    intro t member
    simp only [waitingHistory, List.mem_cons, List.not_mem_nil, or_false] at member
    rcases member with rfl | rfl <;> decide
  have keeps : Catalog.Keeps waitingHistory shopCatalog (waitingStream.take 1) :=
    ⟨fun t inHistory _ _ _ _ relids truncates => absurd truncates (waiting_untruncated inHistory relids),
      waiting_admits _ (fun row member => by rw [List.mem_singleton.mp member]; rfl) rfl (Or.inl rfl)⟩
  have ordered : Reusing shop waitingHistory waitingStream (Catalog.Keeps waitingHistory) (Catalog.Reuses shop waitingHistory)
      ⟨shopCatalog, some 0⟩ ⟨orderedCatalog orders, some 0⟩ :=
    .round .start rfl ⟨10, rfl, fun _ => le_refl 10⟩ (fun r _ => shop_described r) keeps state
  have sessions : (orderedCatalog orders).Sessions (againCatalog orders) := by
    refine ⟨show [7, 8].Nodup by decide, show [1, 2].Nodup by decide, fun row member live => ?_, fun s member => ⟨s, member, rfl⟩⟩
    simp only [againCatalog, List.mem_cons, List.not_mem_nil, or_false] at member
    rcases member with rfl | rfl
    · exact List.mem_cons_self
    · exact absurd live Status.noConfusion
  have behind : ∀ row ∈ (againCatalog orders).views, row.status = .live → ∀ t ∈ waitingHistory.commits, t.endLsn ≤ row.frontier → t.endLsn ≤ 15 := by
    intro row member live t _ low
    obtain rfl := List.mem_singleton.mp (sessions.live row member live)
    exact low.trans (by decide)
  have built := (ordered.session sessions).built again_sees (again_firsts orders) behind (again_reuses orders)
  obtain ⟨shows, holds⟩ := built.copies_hold waiting_sends starts
  obtain ⟨row, member, id, live, frontier, join⟩ : ∃ row ∈ ((againCatalog orders).populate againSight 15 (some 0) againGroup).views,
      row.id = 8 ∧ row.status = .live ∧ row.frontier = 15 ∧ row.spec.isJoin = true :=
    ⟨_, List.mem_cons_of_mem _ List.mem_cons_self, rfl, rfl, rfl, rfl⟩
  obtain ⟨s, inShadows, here, sound, atOrder⟩ : ∃ s ∈ ((againCatalog orders).populate againSight 15 (some 0) againGroup).shadows,
      s.relid = 1 ∧ s.failed = false ∧ s.frontier = 10 := ⟨_, List.mem_cons_self, rfl, rfl, rfl⟩
  have query := holds row member live join
  have copy := shows s inShadows sound
  rw [frontier] at query
  rw [here, atOrder] at copy
  exact ⟨_, row, built, member, id, live, frontier, query, s, inShadows, here, atOrder, copy⟩

end Nabla
