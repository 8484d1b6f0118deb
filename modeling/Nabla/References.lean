import Nabla.Lib.Refcount
import Nabla.Feeding

/-! The reference counts of shadows: what builds and drops make of them, and when each
counts the populated join views over its table. -/
namespace Nabla
open Bags Refcount

variable {pf : Platform} {settings : Settings} {sight : Sight} {point : Nat}

def ViewRow.needs (row : ViewRow) (relid : Nat) : Bool := row.populated && row.spec.isJoin && row.spec.oids.contains relid

def Catalog.references (c : Catalog) (relid : Nat) : Nat := c.views.countP (·.needs relid)

/-- There is a shadow for every table some populated join view is over, and it counts them. -/
def Catalog.Counted (c : Catalog) : Prop := Exact ShadowRow.relid ShadowRow.refcount c.shadows c.references

theorem Catalog.references_congr {c c' : Catalog} {relid : Nat}
    (same : c'.views.map (·.needs relid) = c.views.map (·.needs relid)) : c'.references relid = c.references relid := by
  have counts : ∀ views : List ViewRow, views.countP (·.needs relid) = (views.map (·.needs relid)).countP id := by
    intro views
    rw [List.countP_map]
    rfl
  rw [Catalog.references, counts, same, ← counts]
  rfl

theorem Catalog.Counted.of_same {c c' : Catalog} (counted : c.Counted)
    (views : ∀ relid, c'.views.map (·.needs relid) = c.views.map (·.needs relid))
    (shadows : c'.shadows.map (fun s => (s.relid, s.refcount)) = c.shadows.map fun s => (s.relid, s.refcount)) : c'.Counted :=
  (Exact.of_same counted shadows).congr fun relid => (Catalog.references_congr (views relid)).symm

theorem Catalog.split_row {c : Catalog} (ids : Keyed ViewRow.id c.views) {row : ViewRow} (member : row ∈ c.views) :
    ∃ a b, c.views = a ++ row :: b ∧ (∀ other ∈ a, other.id ≠ row.id) ∧ ∀ other ∈ b, other.id ≠ row.id := by
  obtain ⟨a, b, split⟩ := List.append_of_mem member
  rw [Keyed, split, List.map_append, List.map_cons, List.nodup_append, List.nodup_cons] at ids
  refine ⟨a, b, split, fun other within => ?_, fun other within same => ?_⟩
  · exact ids.2.2 other.id (List.mem_map_of_mem within) row.id List.mem_cons_self
  · exact ids.2.1.1 (same ▸ List.mem_map_of_mem within)

theorem Catalog.references_update {c : Catalog} (ids : Keyed ViewRow.id c.views) {row : ViewRow} (member : row ∈ c.views)
    (f : ViewRow → ViewRow) (relid : Nat) :
    (c.updateView row.id f).references relid + (row.needs relid).toNat = c.references relid + ((f row).needs relid).toNat := by
  obtain ⟨a, b, split, left, right⟩ := Catalog.split_row ids member
  have kept : ∀ l : List ViewRow, (∀ other ∈ l, other.id ≠ row.id) → (l.map fun other => if other.id = row.id then f other else other) = l := by
    intro l others
    refine (List.map_congr_left fun other within => if_neg (others other within)).trans (List.map_id' l)
  rw [Catalog.references, Catalog.references, Catalog.updateView]
  dsimp only
  rw [split, List.map_append, List.map_cons, kept a left, kept b right, if_pos rfl, List.countP_append, List.countP_append,
    List.countP_cons, List.countP_cons]
  cases row.needs relid <;> cases (f row).needs relid <;> simp only [Bool.toNat_true, Bool.toNat_false, if_true, if_false, Bool.false_eq_true] <;> omega

theorem Catalog.references_forget {c : Catalog} (ids : Keyed ViewRow.id c.views) {row : ViewRow} (member : row ∈ c.views) (relid : Nat) :
    (c.forgetView row.id).references relid + (row.needs relid).toNat = c.references relid := by
  obtain ⟨a, b, split, left, right⟩ := Catalog.split_row ids member
  have kept : ∀ l : List ViewRow, (∀ other ∈ l, other.id ≠ row.id) → l.filter (fun other => !decide (other.id = row.id)) = l := by
    intro l others
    refine List.filter_eq_self.mpr fun other within => ?_
    rw [decide_eq_false (others other within), Bool.not_false]
  rw [Catalog.references, Catalog.references, Catalog.forgetView_views, split, List.filter_append, List.filter_cons, kept a left,
    kept b right, decide_eq_true rfl, List.countP_append, List.countP_append, List.countP_cons]
  cases row.needs relid <;> simp only [Bool.toNat_true, Bool.toNat_false, Bool.not_true, if_true, if_false, Bool.false_eq_true] <;> omega

theorem Exact.releaseAll {holders : Nat → Nat} {relids : List Nat} {shadows : List ShadowRow}
    (exact : Exact ShadowRow.relid ShadowRow.refcount shadows holders) (once : relids.Nodup) (there : ∀ r ∈ relids, 0 < holders r) :
    Exact ShadowRow.relid ShadowRow.refcount (relids.foldl releaseShadow shadows) fun k => holders k - if k ∈ relids then 1 else 0 := by
  induction relids generalizing shadows holders with
  | nil => exact exact.congr fun k => by rw [if_neg List.not_mem_nil, Nat.sub_zero]
  | cons relid relids ih =>
      rw [List.nodup_cons] at once
      have step := exact.release (f := fun s => { s with refcount := s.refcount - 1 }) (there relid List.mem_cons_self)
        (fun _ => rfl) fun _ => rfl
      refine (ih step once.2 fun r later => ?_).congr fun k => ?_
      · have other : r ≠ relid := fun same => once.1 (same ▸ later)
        rw [fewer_other holders other]
        exact there r (List.mem_cons_of_mem _ later)
      · by_cases here : k = relid
        · subst here
          rw [fewer_self, if_neg once.1, if_pos List.mem_cons_self, Nat.sub_zero]
        · rw [fewer_other holders here]
          by_cases later : k ∈ relids
          · rw [if_pos later, if_pos (List.mem_cons_of_mem _ later)]
          · rw [if_neg later, if_neg fun member => (List.mem_cons.mp member).elim here later]

/-- A catalog whose shadows are counted, and whose records tell the tables of each view. -/
structure Catalog.Tallied (c : Catalog) : Prop where
  ids : Keyed ViewRow.id c.views
  recorded : ∀ row ∈ c.views, ∀ relid, (row.id, relid) ∈ c.viewRelations ↔ relid ∈ row.spec.oids
  once : c.viewRelations.Nodup
  counted : c.Counted

theorem Catalog.Tallied.forgetView {c : Catalog} (tallied : c.Tallied) (id : Nat) : (c.forgetView id).Tallied where
  ids := by
    rw [Catalog.forgetView_views]
    exact tallied.ids.filter _
  recorded := by
    intro row member relid
    obtain ⟨before, other⟩ := Catalog.mem_forgetView.mp member
    rw [Catalog.forgetView_viewRelations other]
    exact tallied.recorded row before relid
  once := by
    unfold Catalog.forgetView
    cases c.views.find? (·.id = id) with
    | none => exact tallied.once
    | some v => exact tallied.once.filter _
  counted := by
    cases found : c.views.find? (·.id = id) with
    | none =>
        rw [Catalog.forgetView, found]
        exact tallied.counted
    | some v =>
        have member := List.mem_of_find?_eq_some found
        have same := List.find?_some found
        rw [decide_eq_true_eq] at same
        subst same
        have relids : ∀ r, r ∈ (c.viewRelations.filter fun vr => vr.1 = v.id).map Prod.snd ↔ r ∈ v.spec.oids := by
          intro r
          rw [← tallied.recorded v member r, List.mem_map]
          constructor
          · rintro ⟨⟨id, r⟩, within, rfl⟩
            obtain ⟨recorded, here⟩ := List.mem_filter.mp within
            obtain rfl := of_decide_eq_true here
            exact recorded
          · exact fun recorded => ⟨(v.id, r), List.mem_filter.mpr ⟨recorded, decide_eq_true rfl⟩, rfl⟩
        have left := Catalog.references_forget tallied.ids member
        unfold Catalog.Counted
        cases taken : v.spec.isJoin && v.populated with
        | false =>
            have none : ∀ r, v.needs r = false := fun r => by rw [ViewRow.needs, Bool.and_comm v.populated, taken, Bool.false_and]
            have shadows : (c.forgetView v.id).shadows = c.shadows := by
              rw [Catalog.forgetView, found]
              exact if_neg (by rw [taken]; exact Bool.false_ne_true)
            rw [shadows]
            refine tallied.counted.congr fun r => ?_
            rw [← left r, none r]
            rfl
        | true =>
            have some : ∀ r, v.needs r = true ↔ r ∈ v.spec.oids := fun r => by
              rw [ViewRow.needs, Bool.and_comm v.populated, taken, Bool.true_and, List.contains_iff_mem]
            have shadows : (c.forgetView v.id).shadows =
                ((c.viewRelations.filter fun vr => vr.1 = v.id).map Prod.snd).foldl releaseShadow c.shadows := by
              rw [Catalog.forgetView, found]
              exact if_pos taken
            rw [shadows]
            refine (Exact.releaseAll tallied.counted ?_ fun r among => ?_).congr fun r => ?_
            · refine (tallied.once.filter _).map_on fun x left y right same => ?_
              have hx := of_decide_eq_true (List.mem_filter.mp left).2
              have hy := of_decide_eq_true (List.mem_filter.mp right).2
              exact Prod.ext (hx.trans hy.symm) same
            · rw [← left r, (some r).mpr ((relids r).mp among)]
              exact Nat.succ_pos _
            · rw [← left r]
              by_cases among : r ∈ v.spec.oids
              · rw [if_pos ((relids r).mpr among), (some r).mpr among]
                exact Nat.add_sub_cancel _ _
              · rw [if_neg fun member => among ((relids r).mp member), Bool.eq_false_iff.mpr fun needs => among ((some r).mp needs)]
                rfl

theorem Catalog.Tallied.forgetAll {c : Catalog} (tallied : c.Tallied) (ids : List Nat) : (ids.foldl Catalog.forgetView c).Tallied := by
  induction ids generalizing c with
  | nil => exact tallied
  | cons id ids ih => exact ih (tallied.forgetView id)

theorem Catalog.dropShadow_absent {c : Catalog} {relid : Nat} (absent : relid ∉ c.shadows.map ShadowRow.relid) : c.dropShadow relid = c := by
  have all : c.shadows.filter (fun s => !decide (s.relid = relid)) = c.shadows := by
    refine List.filter_eq_self.mpr fun s member => ?_
    have other : s.relid ≠ relid := fun same => absent (same ▸ List.mem_map_of_mem member)
    rw [decide_eq_false other, Bool.not_false]
  rw [Catalog.dropShadow, all]

theorem Catalog.Tallied.dropTable {c : Catalog} (tallied : c.Tallied) (relid : Nat) : (c.dropTable relid).Tallied := by
  have forgotten := tallied.forgetAll ((c.viewRelations.filter fun vr => vr.2 = relid).map Prod.fst)
  rw [Catalog.dropTable, Catalog.dropShadow_absent]
  · exact forgotten
  · -- nothing over the table is left that could hold its shadow
    rw [forgotten.counted.held relid, Nat.pos_iff_ne_zero, not_not]
    refine List.countP_eq_zero.mpr fun row member needs => ?_
    obtain ⟨before, other⟩ := Catalog.mem_foldl_forgetView.mp member
    rw [ViewRow.needs, Bool.and_eq_true, List.contains_iff_mem] at needs
    exact other (Catalog.mem_over.mpr ((tallied.recorded row before relid).mpr needs.2))

theorem buildShadows_done (rebuild : Bool) (spec : ViewSpec) (rels : List BaseRelation) (done : List Nat) (c : Catalog) (r : Nat) :
    r ∈ (buildShadows sight point rebuild spec rels done c).2 ↔ r ∈ done ∨ r ∈ rels.map BaseRelation.oid := by
  induction rels generalizing done c with
  | nil => exact ⟨.inl, fun either => either.resolve_right List.not_mem_nil⟩
  | cons rel rels ih =>
      rw [buildShadows, List.map_cons, List.mem_cons]
      split
      · rename_i seen
        rw [List.contains_iff_mem] at seen
        rw [ih]
        refine or_congr_right' fun other => ?_
        exact ⟨.inr, fun either => either.resolve_left fun same => other (same ▸ seen)⟩
      · rw [ih, List.mem_cons]
        tauto

theorem updateShadow_counts (relid : Nat) {f : ShadowRow → ShadowRow}
    (kept : ∀ s, (f s).relid = s.relid ∧ (f s).refcount = s.refcount) (shadows : List ShadowRow) :
    (updateShadow relid f shadows).map (fun s => (s.relid, s.refcount)) = shadows.map fun s => (s.relid, s.refcount) := by
  rw [updateShadow, List.map_map]
  refine List.map_congr_left fun s _ => ?_
  rw [Function.comp_apply]
  split
  · rw [(kept s).1, (kept s).2]
  · rfl

theorem addColumn_counts (rel : BaseRelation) (base : BaseTable) (columns : List (String × String)) (s : ShadowRow) :
    (columns.foldl (addColumn rel base) s).relid = s.relid ∧ (columns.foldl (addColumn rel base) s).refcount = s.refcount := by
  induction columns generalizing s with
  | nil => exact ⟨rfl, rfl⟩
  | cons column columns ih => exact ih _

theorem extendShadow_counts (rel : BaseRelation) (needed keys : List String) (base : BaseTable) (s : ShadowRow) :
    (extendShadow rel needed keys base s).relid = s.relid ∧ (extendShadow rel needed keys base s).refcount = s.refcount :=
  addColumn_counts rel base _ s

theorem refillShadow_counts (rel : BaseRelation) (needed keys : List String) (base : BaseTable) (s : ShadowRow) :
    (refillShadow rel point needed keys base s).relid = s.relid ∧ (refillShadow rel point needed keys base s).refcount = s.refcount :=
  ⟨rfl, rfl⟩

theorem mem_relids_of_find {shadows : List ShadowRow} {relid : Nat} : (shadows.find? (·.relid = relid)).isSome ↔
    relid ∈ shadows.map ShadowRow.relid := by
  rw [List.find?_isSome, List.mem_map]
  simp only [decide_eq_true_eq]

theorem ensureShadow_exact {holders : Nat → Nat} {shadows : List ShadowRow} (exact : Exact ShadowRow.relid ShadowRow.refcount shadows holders)
    (rel : BaseRelation) (needed keys : List String) (base : BaseTable) :
    Exact ShadowRow.relid ShadowRow.refcount (ensureShadow rel point needed keys base shadows) (more holders rel.oid) := by
  have there := @mem_relids_of_find shadows rel.oid
  unfold ensureShadow
  cases found : shadows.find? (·.relid = rel.oid) with
  | none =>
      rw [found] at there
      exact Exact.insert exact (a := createShadow rel point needed keys base) (fun member => absurd (there.mpr member) Bool.false_ne_true) rfl
  | some current =>
      rw [found] at there
      have taken := Exact.acquire exact (f := fun s => { s with refcount := s.refcount + 1 }) (there.mp rfl) (fun _ => rfl) fun _ => rfl
      dsimp only
      split
      · exact taken.of_same (updateShadow_counts _ (refillShadow_counts rel needed keys base) _)
      · exact taken.of_same (updateShadow_counts _ (extendShadow_counts rel needed keys base) _)

theorem rebuildShadow_exact {holders : Nat → Nat} {shadows : List ShadowRow} (exact : Exact ShadowRow.relid ShadowRow.refcount shadows holders)
    {rel : BaseRelation} (there : 0 < holders rel.oid) (needed keys : List String) (base : BaseTable) :
    Exact ShadowRow.relid ShadowRow.refcount (rebuildShadow rel point needed keys base shadows) holders := by
  have some := mem_relids_of_find.mpr ((exact.held rel.oid).mpr there)
  unfold rebuildShadow
  cases found : shadows.find? (·.relid = rel.oid) with
  | none =>
      rw [found] at some
      exact absurd some Bool.false_ne_true
  | some current => exact exact.of_same (updateShadow_counts _ (refillShadow_counts rel needed keys base) _)

/-- A first build takes a reference to each of its tables that was not handled yet. -/
theorem buildShadows_ensures {holders : Nat → Nat} (spec : ViewSpec) {rels : List BaseRelation} {done : List Nat} {c : Catalog}
    (exact : Exact ShadowRow.relid ShadowRow.refcount c.shadows holders) :
    Exact ShadowRow.relid ShadowRow.refcount (buildShadows sight point false spec rels done c).1.shadows fun k =>
      holders k + if k ∈ rels.map BaseRelation.oid ∧ k ∉ done then 1 else 0 := by
  induction rels generalizing done c holders with
  | nil => exact exact.congr fun k => by rw [if_neg fun both => List.not_mem_nil both.1, Nat.add_zero]
  | cons rel rels ih =>
      rw [buildShadows]
      split
      · rename_i seen
        rw [List.contains_iff_mem] at seen
        refine (ih exact).congr fun k => ?_
        by_cases here : k = rel.oid
        · rw [if_neg fun both => both.2 (here ▸ seen), if_neg fun both => both.2 (here ▸ seen)]
        · simp only [List.map_cons, List.mem_cons, here, false_or]
      · rename_i unseen
        rw [List.contains_iff_mem] at unseen
        refine (ih (ensureShadow_exact exact rel _ _ _)).congr fun k => ?_
        by_cases here : k = rel.oid
        · subst here
          rw [more_self, if_neg fun both => both.2 List.mem_cons_self, if_pos ⟨List.mem_cons_self, unseen⟩]
        · rw [more_other holders here]
          simp only [List.map_cons, List.mem_cons, here, false_or]

theorem buildShadows_rebuilds {holders : Nat → Nat} (spec : ViewSpec) {rels : List BaseRelation} {done : List Nat} {c : Catalog}
    (exact : Exact ShadowRow.relid ShadowRow.refcount c.shadows holders) (there : ∀ rel ∈ rels, 0 < holders rel.oid) :
    Exact ShadowRow.relid ShadowRow.refcount (buildShadows sight point true spec rels done c).1.shadows holders := by
  induction rels generalizing done c with
  | nil => exact exact
  | cons rel rels ih =>
      have later : ∀ r ∈ rels, 0 < holders r.oid := fun r member => there r (List.mem_cons_of_mem _ member)
      rw [buildShadows]
      split
      · exact ih exact later
      · exact ih (rebuildShadow_exact exact (there rel List.mem_cons_self) _ _ _) later

theorem Catalog.updateView_twice (c : Catalog) (id : Nat) {f g : ViewRow → ViewRow} (kept : ∀ row, (f row).id = row.id) :
    ((c.updateView id f).updateView id g).views = (c.updateView id (g ∘ f)).views := by
  rw [Catalog.updateView, Catalog.updateView, Catalog.updateView, List.map_map]
  refine List.map_congr_left fun row _ => ?_
  rw [Function.comp_apply]
  by_cases here : row.id = id
  · rw [if_pos here, if_pos ((kept row).trans here), if_pos here]
    rfl
  · rw [if_neg here, if_neg here, if_neg here]

theorem BuildStep.built_views (view : Pending) (spec : ViewSpec) (done : List Nat) (c : Catalog) :
    (((c.respec view spec).reshadow sight point view spec done).1.updateView view.id fun row =>
      row.built point view.rebuild (sight.populate spec)).views =
      (c.updateView view.id fun row => row.rebuilt sight point view spec).views := by
  have shadowed : ((c.respec view spec).reshadow sight point view spec done).1.views = (c.respec view spec).views := by
    unfold Catalog.reshadow
    split
    · exact buildShadows_views _ _ _ _ _
    · rfl
  have same : ∀ {c c' : Catalog}, c'.views = c.views → ∀ f, (c'.updateView view.id f).views = (c.updateView view.id f).views := by
    intro c c' views f
    rw [Catalog.updateView, Catalog.updateView, views]
  rw [same shadowed]
  unfold Catalog.respec ViewRow.rebuilt
  cases view.rebuild with
  | true => exact c.updateView_twice view.id fun _ => rfl
  | false => rfl

theorem ViewSpec.isJoin_of_perm {spec spec' : ViewSpec} (same : spec.oids.Perm spec'.oids) : spec.isJoin = spec'.isJoin := by
  have length := same.length_eq
  rw [ViewSpec.oids, ViewSpec.oids, List.length_map, List.length_map] at length
  rw [ViewSpec.isJoin, ViewSpec.isJoin, length]

/-- The view as it was loaded, still in the catalog if it joins tables. -/
structure Pending.Current (view : Pending) (c : Catalog) : Prop where
  asLoaded : ∀ row ∈ c.views, row.id = view.id → row.pending = view
  there : view.spec.isJoin = true → ∃ row ∈ c.views, row.id = view.id

theorem ViewRow.rebuilt_needs {row : ViewRow} {view : Pending} {spec : ViewSpec} (perm : spec.oids.Perm row.spec.oids) (relid : Nat) :
    (row.rebuilt sight point view spec).needs relid = (row.spec.isJoin && row.spec.oids.contains relid) := by
  have joins := ViewSpec.isJoin_of_perm perm
  have same : spec.oids.contains relid = row.spec.oids.contains relid := by
    rw [Bool.eq_iff_iff, List.contains_iff_mem, List.contains_iff_mem]
    exact perm.mem_iff
  unfold ViewRow.needs ViewRow.rebuilt ViewRow.built
  cases view.rebuild with
  | true => simp only [if_true, Bool.true_and, joins, same]
  | false => simp only [Bool.false_eq_true, if_false, Bool.true_and]

theorem Catalog.references_pos {c : Catalog} {row : ViewRow} (member : row ∈ c.views) {relid : Nat} (needs : row.needs relid = true) :
    0 < c.references relid :=
  List.countP_pos_iff.mpr ⟨row, member, needs⟩

theorem Catalog.respec_shadows (c : Catalog) (view : Pending) (spec : ViewSpec) : (c.respec view spec).shadows = c.shadows := by
  unfold Catalog.respec
  split <;> rfl

theorem Catalog.references_single {c : Catalog} {view : Pending} {spec : ViewSpec}
    (asLoaded : ∀ row ∈ c.views, row.id = view.id → row.pending = view) (perm : spec.oids.Perm view.spec.oids)
    (single : view.spec.isJoin = false) (relid : Nat) :
    (c.updateView view.id fun row => row.rebuilt sight point view spec).references relid = c.references relid := by
  refine Catalog.references_congr ?_
  rw [Catalog.updateView, List.map_map]
  refine List.map_congr_left fun row member => ?_
  rw [Function.comp_apply]
  by_cases here : row.id = view.id
  · obtain rfl := asLoaded row member here
    rw [if_pos here, ViewRow.rebuilt_needs perm, ViewRow.needs]
    have none : row.spec.isJoin = false := single
    rw [none, Bool.false_and, Bool.and_false, Bool.false_and]
  · rw [if_neg here]

theorem Sight.spec_perm {view : Pending} {spec : ViewSpec}
    (resolves : view.rebuild = true → ∀ spec, sight.validate view.definition = .ok spec → spec.oids.Perm view.spec.oids)
    (valid : sight.spec view = .ok spec) : spec.oids.Perm view.spec.oids := by
  rw [Sight.spec] at valid
  cases again : view.rebuild with
  | true =>
      rw [if_pos again] at valid
      exact resolves again spec valid
  | false =>
      rw [again, if_neg Bool.false_ne_true] at valid
      rw [Except.ok.inj valid]

/-- One member of a group takes the references it needs, unless another one has handled
its tables before. -/
theorem BuildStep.counted {view : Pending} {done done' : List Nat} {c c' : Catalog} (step : BuildStep sight point view done c c' done')
    (ids : Keyed ViewRow.id c.views) (counted : c.Counted) (current : view.Current c)
    (waits : view.spec.isJoin = true → view.populated = true → view.status = .refreshing)
    (resolves : view.rebuild = true → ∀ spec, sight.validate view.definition = .ok spec → spec.oids.Perm view.spec.oids)
    (apart : view.spec.isJoin = true → view.populated = false → ∀ r ∈ view.spec.oids, r ∉ done) : c'.Counted := by
  cases step with
  | refused message =>
      refine counted.of_same (fun r => ?_) rfl
      rw [Catalog.updateView, List.map_map]
      refine List.map_congr_left fun row _ => ?_
      rw [Function.comp_apply]
      split <;> rfl
  | built spec valid =>
      have perm := Sight.spec_perm resolves valid
      have joins := ViewSpec.isJoin_of_perm perm
      have views := @BuildStep.built_views sight point view spec done c
      have after : ∀ r, (((c.respec view spec).reshadow sight point view spec done).1.updateView view.id fun row =>
          row.built point view.rebuild (sight.populate spec)).references r =
          (c.updateView view.id fun row => row.rebuilt sight point view spec).references r := by
        intro r
        rw [Catalog.references, Catalog.references, views]
      have before : Exact ShadowRow.relid ShadowRow.refcount (c.respec view spec).shadows c.references := by
        rw [c.respec_shadows view spec]
        exact counted
      suffices taken : Exact ShadowRow.relid ShadowRow.refcount ((c.respec view spec).reshadow sight point view spec done).1.shadows
          (c.updateView view.id fun row => row.rebuilt sight point view spec).references from taken.congr fun r => (after r).symm
      unfold Catalog.reshadow
      cases join : view.spec.isJoin with
      | false =>
          rw [joins, join, if_neg Bool.false_ne_true]
          exact before.congr fun r => (Catalog.references_single current.asLoaded perm join r).symm
      | true =>
          rw [joins, join, if_pos rfl]
          obtain ⟨row, member, same⟩ := current.there join
          obtain rfl := current.asLoaded row member same
          have joined : row.spec.isJoin = true := join
          have moved := Catalog.references_update ids member fun row' => row'.rebuilt sight point row.pending spec
          cases ever : row.populated with
          | true =>
              have again : row.pending.rebuild = true := by
                rw [Pending.rebuild, waits join ever, decide_eq_true rfl, Bool.true_and]
                exact ever
              have needs : ∀ r, row.needs r = row.spec.oids.contains r := fun r => by
                rw [ViewRow.needs, ever, joined, Bool.true_and, Bool.true_and]
              rw [again]
              refine (buildShadows_rebuilds spec before fun rel within => ?_).congr fun r => ?_
              · refine Catalog.references_pos member ?_
                rw [needs, List.contains_iff_mem]
                exact perm.mem_iff.mp (List.mem_map_of_mem within)
              · have kept := moved r
                rw [ViewRow.rebuilt_needs perm, joined, Bool.true_and, needs r] at kept
                exact (Nat.add_right_cancel kept).symm
          | false =>
              have first : row.pending.rebuild = false := by
                rw [Pending.rebuild, show row.pending.populated = false from ever, Bool.and_false]
              rw [first]
              refine (buildShadows_ensures spec before).congr fun r => ?_
              have taken := moved r
              rw [ViewRow.rebuilt_needs perm, joined, Bool.true_and, ViewRow.needs, ever, Bool.false_and, Bool.false_and,
                Bool.toNat_false, Nat.add_zero] at taken
              refine Eq.trans ?_ taken.symm
              congr 1
              by_cases among : r ∈ row.spec.oids
              · rw [if_pos ⟨perm.mem_iff.mpr among, apart join ever r among⟩, List.contains_iff_mem.mpr among]
                rfl
              · rw [if_neg fun both => among (perm.mem_iff.mp both.1), Bool.eq_false_iff.mpr fun has => among (List.contains_iff_mem.mp has)]
                rfl

theorem Pending.Current.kept {view other : Pending} {done done' : List Nat} {c c' : Catalog} (current : other.Current c)
    (apart : other.id ≠ view.id) (step : BuildStep sight point view done c c' done') : other.Current c' where
  asLoaded := by
    intro row' member same
    obtain ⟨row, before, built⟩ := mem_of_forall₂_right step.views member
    have outside : row.id ∉ [view].map Pending.id := fun here =>
      apart ((same.symm.trans built.id).trans (List.mem_singleton.mp here))
    rw [built.outside outside] at same ⊢
    exact current.asLoaded row before same
  there := by
    intro join
    obtain ⟨row, before, same⟩ := current.there join
    obtain ⟨row', member, built⟩ := mem_of_forall₂ step.views before
    exact ⟨row', member, built.id.trans same⟩

/-- What a member has handled are the tables it joins. -/
theorem BuildStep.handled {view : Pending} {done done' : List Nat} {c c' : Catalog} (step : BuildStep sight point view done c c' done')
    {r : Nat} (member : r ∈ done') : r ∈ done ∨ ∃ spec, sight.spec view = .ok spec ∧ spec.isJoin = true ∧ r ∈ spec.oids := by
  cases step with
  | refused => exact .inl member
  | built spec valid =>
      unfold Catalog.reshadow at member
      cases join : spec.isJoin with
      | false =>
          rw [if_neg (by rw [join]; exact Bool.false_ne_true)] at member
          exact .inl member
      | true =>
          rw [if_pos join, buildShadows_done] at member
          exact member.imp_right fun among => ⟨spec, valid, join, among⟩

/-- No member builds its shadows for the first time on a table that an earlier one joins. -/
def Apart (sight : Sight) (group : List Pending) : Prop :=
  group.Pairwise fun earlier later => (∃ spec, sight.spec earlier = .ok spec) → earlier.spec.isJoin = true →
    later.spec.isJoin = true → later.populated = false → ∀ r ∈ later.spec.oids, r ∉ earlier.spec.oids

theorem buildGroup_counted {group : List Pending} {done : List Nat} {c c' : Catalog} (ids : Keyed ViewRow.id c.views)
    (counted : c.Counted) (distinct : (group.map Pending.id).Nodup) (current : ∀ view ∈ group, view.Current c)
    (waits : ∀ view ∈ group, view.spec.isJoin = true → view.populated = true → view.status = .refreshing)
    (resolves : ∀ view ∈ group, view.rebuild = true → ∀ spec, sight.validate view.definition = .ok spec → spec.oids.Perm view.spec.oids)
    (clear : ∀ view ∈ group, view.spec.isJoin = true → view.populated = false → ∀ r ∈ view.spec.oids, r ∉ done)
    (apart : Apart sight group) (built : buildGroup sight point group done c = .ok c') : c'.Counted := by
  induction group generalizing done c with
  | nil =>
      obtain rfl := Except.ok.inj built
      exact counted
  | cons view group ih =>
      rw [buildGroup] at built
      cases one : build sight point view done c with
      | error message => simp only [one, reduceCtorEq] at built
      | ok r =>
          obtain ⟨c₁, done₁⟩ := r
          simp only [one] at built
          have step := build_step one
          rw [List.map_cons, List.nodup_cons] at distinct
          obtain ⟨here, later⟩ := List.pairwise_cons.mp apart
          have here' := List.mem_cons_self (a := view) (l := group)
          have rest : ∀ {other}, other ∈ group → other ∈ view :: group := List.mem_cons_of_mem view
          have ids₁ : Keyed ViewRow.id c₁.views := by
            rw [Keyed, map_eq_of_forall₂ step.views fun _ _ built => built.id]
            exact ids
          refine ih ids₁ (step.counted ids counted (current view here') (waits view here') (resolves view here') (clear view here'))
            distinct.2 (fun other member => ?_) (fun other member => waits other (rest member))
            (fun other member => resolves other (rest member)) (fun other member join first r among handled => ?_) later built
          · exact (current other (rest member)).kept (fun same => distinct.1 (same ▸ List.mem_map_of_mem member)) step
          · rcases step.handled handled with before | ⟨spec, valid, joins, reads⟩
            · exact clear other (rest member) join first r among before
            · have perm := Sight.spec_perm (resolves view here') valid
              exact here other member ⟨spec, valid⟩ ((ViewSpec.isJoin_of_perm perm).symm.trans joins) join first r among (perm.mem_iff.mp reads)

theorem buildGroup_faultless {group : List Pending} {done : List Nat} {c c' : Catalog}
    (built : buildGroup sight point group done c = .ok c') : ∀ view ∈ group, sight.fault view.id = none := by
  induction group generalizing done c with
  | nil => exact fun view member => absurd member List.not_mem_nil
  | cons view group ih =>
      rw [buildGroup] at built
      cases one : build sight point view done c with
      | error message => simp only [one, reduceCtorEq] at built
      | ok r =>
          obtain ⟨c₁, done₁⟩ := r
          simp only [one] at built
          refine List.forall_mem_cons.mpr ⟨?_, ih built⟩
          unfold build at one
          cases fault : sight.fault view.id with
          | none => rfl
          | some message => simp only [fault, reduceCtorEq] at one

/-- What a group must meet for its references to add up: a definition that is validated
again joins the same tables, no join view was dropped since the group was loaded, and no
first build comes after another member on one of its tables. -/
structure Server.Adds (s : Server) (sight : Sight) (group : List Pending) : Prop where
  resolves : ∀ view ∈ group, view.rebuild = true → ∀ spec, sight.validate view.definition = .ok spec → spec.oids.Perm view.spec.oids
  there : ∀ view ∈ group, view.spec.isJoin = true → ∃ row ∈ s.catalog.views, row.id = view.id
  apart : Apart sight group

/-- What keeps the counts: no shadow is dropped by hand, and every group that can be built
adds up. -/
def Server.Counts (s : Server) : Event → Prop
  | .committed (.dropShadow relid _) _ => relid ∉ s.catalog.shadows.map ShadowRow.relid
  | .built sight point slot group => (∀ view ∈ group, sight.fault view.id = none) →
      (∀ position, slot = some position → position ≤ point) → s.Adds sight group
  | _ => True

/-- The invariant: the catalog is tallied, and what was populated is never initializing. -/
structure Server.Tallied (s : Server) : Prop where
  catalog : s.catalog.Tallied
  waits : ∀ row ∈ s.catalog.views, row.populated = true → row.status ≠ .initializing

theorem ViewRow.needs_of {row row' : ViewRow} (populated : row'.populated = row.populated) (spec : row'.spec = row.spec) (relid : Nat) :
    row'.needs relid = row.needs relid := by
  rw [ViewRow.needs, ViewRow.needs, populated, spec]

theorem Catalog.Stands.tallied {c c' : Catalog} (stands : c.Stands c') (tallied : c.Tallied) : c'.Tallied where
  ids := by
    rw [Keyed, stands.ids]
    exact tallied.ids
  recorded := by
    intro row' member relid
    obtain ⟨row, before, kept⟩ := stands.row member
    rw [stands.viewRelations, kept.id, kept.spec]
    exact tallied.recorded row before relid
  once := by
    rw [stands.viewRelations]
    exact tallied.once
  counted := by
    refine tallied.counted.of_same (fun relid => ?_) ?_
    · exact map_eq_of_forall₂ stands.views fun row row' kept => ViewRow.needs_of kept.populated kept.spec relid
    · exact map_eq_of_forall₂ stands.shadows fun s s' kept => by rw [kept.relid, kept.refcount]

theorem Server.Tallied.of_stands {s : Server} (tallied : s.Tallied) {c : Catalog} (stands : s.catalog.Stands c) :
    Server.Tallied { s with catalog := c } where
  catalog := stands.tallied tallied.catalog
  waits := by
    intro row' member populated
    obtain ⟨row, before, kept⟩ := stands.row member
    rcases kept.status with same | ⟨_, stale⟩
    · rw [same]
      exact tallied.waits row before (kept.populated.symm.trans populated)
    · rw [stale]
      exact Status.noConfusion

theorem Catalog.Tallied.insertView {c : Catalog} (tallied : c.Tallied) {id : Nat} (fresh : id ∉ c.views.map ViewRow.id)
    (unrecorded : ∀ relid, (id, relid) ∉ c.viewRelations) {name definition : String} {spec : ViewSpec} (once : spec.oids.Nodup) :
    (c.insertView (.initial id name definition spec)).Tallied where
  ids := tallied.ids.concat fresh
  recorded := by
    intro row member relid
    rw [Catalog.insertView, List.mem_append, List.mem_map]
    rcases List.mem_append.mp member with before | new
    · rw [tallied.recorded row before relid]
      refine or_iff_left ?_
      rintro ⟨r, _, same⟩
      apply fresh
      rw [show id = row.id from (Prod.mk.inj same).1]
      exact List.mem_map_of_mem before
    · obtain rfl := List.mem_singleton.mp new
      refine (or_iff_right (unrecorded relid)).trans ?_
      constructor
      · rintro ⟨r, reads, same⟩
        obtain ⟨_, rfl⟩ := Prod.mk.inj same
        exact reads
      · exact fun reads => ⟨relid, reads, rfl⟩
  once := by
    rw [Catalog.insertView]
    refine List.nodup_append.mpr ⟨tallied.once, once.map fun _ _ same => (Prod.mk.inj same).2, fun a old b new => ?_⟩
    obtain ⟨relid, _, rfl⟩ := List.mem_map.mp new
    rintro rfl
    exact unrecorded relid old
  counted := by
    refine tallied.counted.congr fun relid => ?_
    rw [Catalog.references, Catalog.references, Catalog.insertView, List.countP_append]
    rfl

theorem Catalog.Tallied.markRefreshing {c : Catalog} (tallied : c.Tallied) (ids : List Nat) : (c.markRefreshing ids).Tallied := by
  have rows := c.markRefreshing_views ids
  have same : List.Forall₂ (fun row row' => row'.id = row.id ∧ row'.populated = row.populated ∧ row'.spec = row.spec) c.views
      (c.markRefreshing ids).views := by
    refine rows.imp fun row row' step => ?_
    rcases step with rfl | ⟨_, rfl⟩ <;> exact ⟨rfl, rfl, rfl⟩
  refine ⟨?_, fun row' member relid => ?_, tallied.once, ?_⟩
  · rw [Keyed, map_eq_of_forall₂ same fun _ _ kept => kept.1]
    exact tallied.ids
  · obtain ⟨row, before, id, _, spec⟩ := mem_of_forall₂_right same member
    rw [id, spec]
    exact tallied.recorded row before relid
  · refine tallied.counted.of_same (fun relid => ?_) rfl
    exact map_eq_of_forall₂ same fun row row' kept => ViewRow.needs_of kept.2.1 kept.2.2 relid

theorem Call.commit_tallied {s : Server} (tallied : s.Tallied) (orderly : s.Orderly) {call : Call} {id : Nat} {publication : List Nat}
    {c : Catalog} (fresh : id ∉ s.used) (writes : call.commit s.names id s.publication s.catalog = some (publication, c))
    (counts : s.Counts (.committed call id)) (calls : List Call) (used : List Nat) :
    Server.Tallied { s with catalog := c, publication := publication, calls := calls, used := used } := by
  cases call with
  | create name definition spec added =>
      simp only [Call.commit] at writes
      split at writes
      · cases writes
      · rename_i passes
        obtain ⟨rfl, rfl⟩ := Prod.mk.inj (Option.some.inj writes)
        rw [Bool.or_eq_true, not_or, Bool.not_eq_true', Bool.not_eq_false, decide_eq_true_eq] at passes
        refine ⟨tallied.catalog.insertView (fun member => ?_) (fun relid old => fresh (orderly.recorded _ old)) passes.2, ?_⟩
        · obtain ⟨row, before, same⟩ := List.mem_map.mp member
          exact fresh (same ▸ orderly.used row before)
        · intro row member populated
          rcases List.mem_append.mp member with before | new
          · exact tallied.waits row before populated
          · obtain rfl := List.mem_singleton.mp new
            exact absurd populated Bool.false_ne_true
  | refresh _ _ => cases writes
  | marked ids added =>
      simp only [Call.commit] at writes
      split at writes
      · cases writes
      · obtain ⟨rfl, rfl⟩ := Prod.mk.inj (Option.some.inj writes)
        refine ⟨tallied.catalog.markRefreshing ids, fun row' member populated => ?_⟩
        obtain ⟨row, before, step⟩ := mem_of_forall₂_right (s.catalog.markRefreshing_views ids) member
        rcases step with rfl | ⟨_, rfl⟩
        · exact tallied.waits row' before populated
        · exact Status.noConfusion
  | dropView view pruned =>
      obtain ⟨rfl, rfl⟩ := Prod.mk.inj (Option.some.inj writes)
      exact ⟨tallied.catalog.forgetView view, fun row member => tallied.waits row (Catalog.mem_forgetView.mp member).1⟩
  | dropTable relid pruned =>
      obtain ⟨rfl, rfl⟩ := Prod.mk.inj (Option.some.inj writes)
      exact ⟨tallied.catalog.dropTable relid, fun row member => tallied.waits row (Catalog.mem_dropTable.mp member).1⟩
  | dropShadow relid pruned =>
      obtain ⟨rfl, rfl⟩ := Prod.mk.inj (Option.some.inj writes)
      rw [Catalog.dropShadow_absent counts]
      exact ⟨tallied.catalog, tallied.waits⟩

theorem Server.Tallied.built {s : Server} (tallied : s.Tallied) (orderly : s.Orderly) {sight : Sight} {point : Nat} {slot : Option Nat}
    {group : List Pending} {groups : List (List Pending)} (next : s.groups = group :: groups)
    (counts : s.Counts (.built sight point slot group)) :
    Server.Tallied { s with catalog := s.catalog.populate sight point slot group, groups := groups } := by
  have distinct := orderly.head next
  have loaded : ∀ view ∈ group, ∀ row ∈ s.catalog.views, row.id = view.id → row.pending = view := by
    intro view member
    refine (orderly.loaded view ?_).2.2
    rw [next, List.flatten_cons]
    exact List.mem_append_left _ member
  have outcome := s.catalog.populate_cases sight point slot group
  have relations := s.catalog.populate_viewRelations sight point slot group
  generalize s.catalog.populate sight point slot group = c' at outcome relations
  cases outcome with
  | failed message =>
      have rows := s.catalog.recordFailure_views group message
      have same : List.Forall₂ (fun row row' => row'.id = row.id ∧ row'.populated = row.populated ∧ row'.spec = row.spec ∧
          (row' = row ∨ row'.status = .failed)) s.catalog.views (s.catalog.recordFailure group message).views := by
        refine rows.imp fun row row' step => ?_
        by_cases inside : row.id ∈ group.map Pending.id
        · rw [step.2 inside]
          exact ⟨rfl, rfl, rfl, .inr rfl⟩
        · rw [step.1 inside]
          exact ⟨rfl, rfl, rfl, .inl rfl⟩
      refine ⟨⟨?_, fun row' member relid => ?_, ?_, ?_⟩, fun row' member populated => ?_⟩
      · rw [Keyed, map_eq_of_forall₂ same fun _ _ kept => kept.1]
        exact tallied.catalog.ids
      · obtain ⟨row, before, id, _, spec, _⟩ := mem_of_forall₂_right same member
        rw [relations, id, spec]
        exact tallied.catalog.recorded row before relid
      · rw [relations]
        exact tallied.catalog.once
      · refine tallied.catalog.counted.of_same (fun relid => ?_) ?_
        · exact map_eq_of_forall₂ same fun row row' kept => ViewRow.needs_of kept.2.1 kept.2.2.1 relid
        · rw [(s.catalog.recordFailure_frame group message).2]
      · obtain ⟨row, before, _, kept, _, rfl | failed⟩ := mem_of_forall₂_right same member
        · exact tallied.waits row' before populated
        · rw [failed]
          exact Status.noConfusion
  | built main ok =>
      have adds := counts (buildGroup_faultless ok) main
      have rows := buildGroup_views distinct ok
      have perm : ∀ view ∈ group, ∀ spec, sight.spec view = .ok spec → spec.oids.Perm view.spec.oids :=
        fun view member spec => Sight.spec_perm (adds.resolves view member)
      refine ⟨⟨?_, fun row' member relid => ?_, ?_, ?_⟩, fun row' member populated => ?_⟩
      · rw [Keyed, map_eq_of_forall₂ rows fun _ _ built => built.id]
        exact tallied.catalog.ids
      · obtain ⟨row, before, built⟩ := mem_of_forall₂_right rows member
        rw [relations, built.id, tallied.catalog.recorded row before relid]
        by_cases inside : row.id ∈ group.map Pending.id
        · rcases built.inside inside with ⟨view, among, same, spec, valid, rfl⟩ | ⟨message, rfl⟩
          · obtain rfl := loaded view among row before same.symm
            unfold ViewRow.rebuilt ViewRow.built
            cases row.pending.rebuild with
            | true => exact (perm _ among spec valid).symm.mem_iff
            | false => exact Iff.rfl
          · exact Iff.rfl
        · rw [built.outside inside]
      · rw [relations]
        exact tallied.catalog.once
      · refine buildGroup_counted tallied.catalog.ids tallied.catalog.counted distinct
          (fun view member => ⟨loaded view member, adds.there view member⟩) (fun view member join ever => ?_) adds.resolves
          (fun _ _ _ _ _ _ handled => List.not_mem_nil handled) adds.apart ok
        obtain ⟨row, before, same⟩ := adds.there view member join
        obtain rfl := loaded view member row before same
        have status := (orderly.loaded row.pending (by
          rw [next, List.flatten_cons]
          exact List.mem_append_left _ member)).2.1
        exact status.resolve_left (tallied.waits row before ever)
      · obtain ⟨row, before, built⟩ := mem_of_forall₂_right rows member
        by_cases inside : row.id ∈ group.map Pending.id
        · rcases built.inside inside with ⟨view, among, same, spec, valid, rfl⟩ | ⟨message, rfl⟩
          · exact Status.noConfusion
          · exact Status.noConfusion
        · rw [built.outside inside] at populated ⊢
          exact tallied.waits row before populated

theorem Server.Step.tallied {s s' : Server} {e : Event} (tallied : s.Tallied) (orderly : s.Orderly) (step : s.Step pf settings e s')
    (counts : s.Counts e) : s'.Tallied := by
  cases step with
  | renamed | createBegan | refreshBegan | updated | viewDropBegan | tableDropBegan | shadowDropBegan | aborted | loaded | restarted =>
      exact ⟨tallied.catalog, tallied.waits⟩
  | committed began fresh writes => exact Call.commit_tallied tallied orderly fresh writes counts _ _
  | built next => exact tallied.built orderly next counts
  | applied done ran => exact tallied.of_stands (applyRound_stands orderly.ids ran)
  | idled => exact tallied.of_stands (s.catalog.idleAdvance_stands _)
  | lagged => exact tallied.of_stands s.catalog.markLagged_stands

theorem Server.Starts.tallied {s : Server} (starts : s.Starts) : s.Tallied := by
  refine ⟨⟨?_, ?_, ?_, ?_⟩, ?_⟩
  · rw [starts.views]
    exact Keyed.nil _
  · rw [starts.views]
    exact fun row member => absurd member List.not_mem_nil
  · rw [starts.viewRelations]
    exact List.nodup_nil
  · unfold Catalog.Counted
    rw [starts.shadows]
    refine Exact.nil.congr fun relid => ?_
    rw [Catalog.references, starts.views, List.countP_nil]
  · rw [starts.views]
    exact fun row member => absurd member List.not_mem_nil

theorem Server.Reachable.tallied {s : Server} (reached : s.Reachable pf settings Server.Counts) : s.Tallied := by
  induction reached with
  | start starts => exact starts.tallied
  | step before step counts ih => exact step.tallied ih before.orderly counts

/-- In every run whose builds add up, each shadow counts the populated join views over its
table, and there is one for exactly the tables that have such a view. -/
theorem Server.Reachable.refcounts {s : Server} (reached : s.Reachable pf settings Server.Counts) :
    (∀ shadow ∈ s.catalog.shadows, shadow.refcount = s.catalog.references shadow.relid) ∧
      ∀ relid, relid ∈ s.catalog.shadows.map ShadowRow.relid ↔ ∃ row ∈ s.catalog.views, row.needs relid = true := by
  have counted := reached.tallied.catalog.counted
  refine ⟨counted.counted, fun relid => ?_⟩
  rw [counted.held relid, Catalog.references, List.countP_pos_iff]

theorem Server.counts_first {s : Server} {view : Pending} {point : Nat} (first : view.rebuild = false)
    (there : ∃ row ∈ s.catalog.views, row.id = view.id) : s.Counts (.built (joinSight 0) point none [view]) := by
  refine fun _ _ => ⟨fun v member again => ?_, fun v member _ => ?_, List.pairwise_singleton _ _⟩
  · obtain rfl := List.mem_singleton.mp member
    exact absurd (first.symm.trans again) Bool.false_ne_true
  · obtain rfl := List.mem_singleton.mp member
    exact there

theorem joinPair_refcounts : (joinPair.shadows.map fun shadow => (shadow.relid, shadow.refcount)) = [(1, 2), (2, 2)] ∧
    (∀ shadow ∈ joinPair.shadows, shadow.refcount = joinPair.references shadow.relid) ∧
    ∀ relid, relid ∈ joinPair.shadows.map ShadowRow.relid ↔ ∃ row ∈ joinPair.views, row.needs relid = true :=
  ⟨rfl, @Server.Reachable.refcounts .basic shopSettings _ (joinPair_reachable ⟨fun _ _ => trivial, fun _ _ _ _ _ => trivial, fun _ => trivial⟩
    (Server.counts_first rfl ⟨_, List.mem_cons_self, rfl⟩) (Server.counts_first rfl ⟨_, List.mem_cons_of_mem _ List.mem_cons_self, rfl⟩))⟩

def joinFailed : Catalog :=
  (joinBuilt.insertView (joinRow 2 "public.b")).populate (joinSight 2) 20 none [(joinRow 2 "public.b").pending]

def joinRefreshed : Catalog :=
  (joinFailed.markRefreshing [1, 2]).populate (joinSight 0) 30 none (joinFailed.markRefreshing [1, 2]).loadPending

theorem joinFailed_reachable : (joinServer joinFailed [1, 2] [] [] [2, 1]).Reachable pf settings fun _ _ => True :=
  .step (joinSecond_reachable .all (joinBuilt_reachable .all trivial)) (@Server.Step.built pf settings _ (joinSight 2) 20 none _ _ rfl) trivial

theorem joinRefreshing_pending : (joinFailed.markRefreshing [1, 2]).loadPending =
    (joinFailed.markRefreshing [1, 2]).views.map ViewRow.pending := by
  rw [Catalog.loadPending, List.mergeSort_of_pairwise]
  · rfl
  · decide

theorem joinRefreshed_reachable : (joinServer joinRefreshed [1, 2] [] [] [3, 2, 1]).Reachable pf settings fun _ _ => True := by
  have begun : (joinServer joinFailed [1, 2] [.refresh [1, 2] []] [] [2, 1]).Reachable pf settings fun _ _ => True :=
    .step joinFailed_reachable (@Server.Step.refreshBegan pf settings (joinServer joinFailed [1, 2] [] [] [2, 1]) (joinSession "a") _ _
      List.mem_cons_self rfl) trivial
  have committed : (joinServer (joinFailed.markRefreshing [1, 2]) [1, 2] [] [] [3, 2, 1]).Reachable pf settings fun _ _ => True :=
    begun.refreshed rfl (show 3 ∉ [2, 1] by decide) (fun _ => trivial) trivial
  have loaded : (joinServer (joinFailed.markRefreshing [1, 2]) [1, 2] [] [(joinFailed.markRefreshing [1, 2]).loadPending]
      [3, 2, 1]).Reachable pf settings fun _ _ => True := by
    refine .step committed ?_ (e := .loaded) trivial
    have groups : group (joinFailed.markRefreshing [1, 2]).loadPending = [(joinFailed.markRefreshing [1, 2]).loadPending] := by
      rw [joinRefreshing_pending]
      rfl
    have step := @Server.Step.loaded pf settings (joinServer (joinFailed.markRefreshing [1, 2]) [1, 2] [] [] [3, 2, 1]) rfl
    rw [show (joinServer (joinFailed.markRefreshing [1, 2]) [1, 2] [] [] [3, 2, 1]).catalog = joinFailed.markRefreshing [1, 2] from rfl,
      groups] at step
    exact step
  exact .step loaded (@Server.Step.built pf settings _ (joinSight 0) 30 none _ _ rfl) trivial

/-- Two populated views, and each shadow counts one. -/
theorem joinRefreshed_miscounted : ¬ ∀ {pf : Platform} {settings : Settings} {s : Server}, s.Reachable pf settings (fun _ _ => True) →
    (∀ shadow ∈ s.catalog.shadows, shadow.refcount = s.catalog.references shadow.relid) ∧
      ∀ relid, relid ∈ s.catalog.shadows.map ShadowRow.relid ↔ ∃ row ∈ s.catalog.views, row.needs relid = true := by
  intro always
  have counted : ∀ shadow ∈ joinRefreshed.shadows, shadow.refcount = joinRefreshed.references shadow.relid :=
    (@always .basic shopSettings _ joinRefreshed_reachable).1
  have miscounted : joinRefreshed.shadows.map (fun s => (s.relid, s.refcount, joinRefreshed.references s.relid)) = [(1, 1, 2), (2, 1, 2)] := by
    rw [joinRefreshed, joinRefreshing_pending]
    rfl
  have first : (1, 1, 2) ∈ joinRefreshed.shadows.map fun s => (s.relid, s.refcount, joinRefreshed.references s.relid) :=
    miscounted ▸ List.mem_cons_self
  obtain ⟨shadow, member, same⟩ := List.mem_map.mp first
  have one := counted shadow member
  rw [(Prod.mk.inj (Prod.mk.inj same).2).1, (Prod.mk.inj (Prod.mk.inj same).2).2] at one
  exact absurd one (by decide)

end Nabla
