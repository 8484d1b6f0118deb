import Nabla.References
import Nabla.Lib.Grouping
import Nabla.Lib.Saturation

/-! What a refresh of a join view takes along: the join views that share a base table with
it, directly or through others. -/
namespace Nabla
open Bags Grouping Saturation

def Catalog.joinViews (c : Catalog) : List ViewRow := c.views.filter fun row => row.spec.isJoin

/-- The tables `view_relations` has for a view. -/
def Catalog.recorded (c : Catalog) (row : ViewRow) : List Nat := (c.viewRelations.filter fun vr => vr.1 = row.id).map Prod.snd

/-- The tables a view reads, by its spec or by `view_relations`. -/
def Catalog.reads (c : Catalog) (row : ViewRow) : List Nat := row.spec.oids ++ c.recorded row

/-- The ids of the join views connected to a view by shared tables: the least set with the
view that is closed under sharing. -/
structure Catalog.Component (c : Catalog) (v : ViewRow) (ids : List Nat) : Prop where
  once : ids.Nodup
  mem_iff : ∀ id, id ∈ ids ↔ ∃ w ∈ c.joinViews, w.id = id ∧ Linked c.reads c.joinViews v w
  closed : ∀ w ∈ c.joinViews, w.id ∈ ids → ∀ u ∈ c.joinViews, Overlap c.reads w u → u.id ∈ ids
  least : ∀ X : Set Nat, v.id ∈ X → (∀ w ∈ c.joinViews, w.id ∈ X → ∀ u ∈ c.joinViews, Overlap c.reads w u → u.id ∈ X) → ∀ id ∈ ids, id ∈ X

/-- Refreshing any member of the component of a view selects that component. -/
def Catalog.Selects (c : Catalog) (v : ViewRow) : Prop :=
  ∀ w ∈ c.joinViews, Linked c.reads c.joinViews v w → c.Component v (c.refreshClosure w)

/-- Recorded tables alone hold a component together, but for the first step, which the spec
of the view may take. -/
def Catalog.Held (c : Catalog) (v : ViewRow) : Prop :=
  ∀ w ∈ c.joinViews, ∀ u ∈ c.joinViews, Linked c.reads c.joinViews v w → Linked c.reads c.joinViews v u → w ≠ u →
    ∃ x ∈ c.joinViews, (∃ r ∈ c.reads w, r ∈ c.recorded x) ∧ Linked c.recorded c.joinViews x u

theorem Catalog.mem_joinViews {c : Catalog} {row : ViewRow} : row ∈ c.joinViews ↔ row ∈ c.views ∧ row.spec.isJoin = true := List.mem_filter

theorem Catalog.mem_recorded {c : Catalog} {row : ViewRow} {relid : Nat} : relid ∈ c.recorded row ↔ (row.id, relid) ∈ c.viewRelations := by
  simp only [Catalog.recorded, List.mem_map, List.mem_filter, decide_eq_true_eq]
  constructor
  · rintro ⟨⟨id, relid'⟩, ⟨member, rfl⟩, rfl⟩
    exact member
  · intro member
    exact ⟨_, ⟨member, rfl⟩, rfl⟩

theorem Catalog.joins_iff {c : Catalog} {id : Nat} : c.joins id = true ↔ ∃ row ∈ c.joinViews, row.id = id := by
  simp only [Catalog.joins, List.any_eq_true, Bool.and_eq_true, decide_eq_true_eq, Catalog.mem_joinViews]
  constructor
  · rintro ⟨row, member, same, join⟩
    exact ⟨row, ⟨member, join⟩, same⟩
  · rintro ⟨row, ⟨member, join⟩, same⟩
    exact ⟨row, member, same, join⟩

theorem Catalog.closureLoop_of_breaks {c : Catalog} {found r : List Nat × List Nat} {turns : Nat}
    (breaks : Breaks c.closureStep sizes found turns r) : ∀ fuel ≥ turns, c.closureLoop fuel found = r := by
  induction breaks with
  | stop same =>
      intro fuel enough
      cases fuel with
      | zero => exact absurd enough (by decide)
      | succ fuel =>
          obtain ⟨left, right⟩ := Prod.mk.inj same
          exact if_pos ⟨left, right⟩
  | again grew _ ih =>
      intro fuel enough
      cases fuel with
      | zero => exact absurd enough (by omega)
      | succ fuel =>
          have open_ : ¬((c.closureStep _).1.length = _ ∧ (c.closureStep _).2.length = _) := fun both => grew (Prod.ext both.1 both.2)
          exact (if_neg open_).trans (ih fuel (by omega))

def ViewRow.closureStart (v : ViewRow) : List Nat × List Nat := ([v.id], v.spec.oids.dedup)

/-- The loop ends, whatever the catalog holds, and the model gives it the turns it needs. -/
theorem Catalog.closureLoop_ends (c : Catalog) (v : ViewRow) : ∃ turns found,
    turns ≤ 2 * c.viewRelations.length + 1 ∧ Breaks c.closureStep sizes v.closureStart turns found ∧
    (∀ fuel ≥ turns, c.closureLoop fuel v.closureStart = found) ∧ FoundFrom c.viewRelations c.joins v.closureStart found ∧
    Closed c.viewRelations c.joins {id | id ∈ found.1} {relid | relid ∈ found.2} := by
  obtain ⟨turns, found, few, breaks, least, closed⟩ :=
    @saturates _ _ c.viewRelations c.joins _ _ v.closureStart (List.nodup_singleton _) (List.nodup_dedup _)
  exact ⟨turns, found, few, breaks, Catalog.closureLoop_of_breaks breaks, least, closed⟩

/-- Reached from a table the view reads, along recorded tables. -/
def Catalog.Reached (c : Catalog) (v u : ViewRow) : Prop :=
  ∃ x ∈ c.joinViews, (∃ r ∈ c.reads v, r ∈ c.recorded x) ∧ Linked c.recorded c.joinViews x u

theorem Catalog.Reached.next {c : Catalog} {v w u : ViewRow} (reached : c.Reached v w) (left : w ∈ c.joinViews) (right : u ∈ c.joinViews)
    (overlap : Overlap c.recorded w u) : c.Reached v u := by
  obtain ⟨x, member, start, linked⟩ := reached
  exact ⟨x, member, start, linked.trans (Linked.edge left right overlap)⟩

theorem Catalog.mem_refreshClosure {c : Catalog} {v : ViewRow} (member : v ∈ c.joinViews) {id : Nat} :
    id ∈ c.refreshClosure v ↔ id = v.id ∨ ∃ u ∈ c.joinViews, c.Reached v u ∧ u.id = id := by
  obtain ⟨turns, found, few, -, ends, begun, closed⟩ := c.closureLoop_ends v
  have selected : id ∈ c.refreshClosure v ↔ ∃ u ∈ c.views, u.id ∈ found.1 ∧ u.id = id := by
    have result : c.closureLoop (2 * c.viewRelations.length + 1) ([v.id], v.spec.oids.dedup) = found := ends _ few
    simp only [Catalog.refreshClosure, result, List.mem_map, List.mem_filter, List.contains_iff_mem, and_assoc]
  rw [selected]
  constructor
  · rintro ⟨u, -, inFound, rfl⟩
    have within : Closed c.viewRelations c.joins {id | id = v.id ∨ ∃ u ∈ c.joinViews, c.Reached v u ∧ u.id = id}
        {relid | relid ∈ c.reads v ∨ ∃ u ∈ c.joinViews, c.Reached v u ∧ relid ∈ c.recorded u} := by
      constructor
      · rintro ⟨id, relid⟩ edge join through
        obtain ⟨u, joined, rfl⟩ := Catalog.joins_iff.mp join
        have records : relid ∈ c.recorded u := Catalog.mem_recorded.mpr edge
        rcases through with own | ⟨w, inside, reached, reads⟩
        · exact .inr ⟨u, joined, ⟨u, joined, ⟨relid, own, records⟩, .refl⟩, rfl⟩
        · exact .inr ⟨u, joined, reached.next inside joined ⟨relid, reads, records⟩, rfl⟩
      · rintro ⟨id, relid⟩ edge through
        rcases through with rfl | ⟨u, joined, reached, rfl⟩
        · exact .inl (List.mem_append_right _ (Catalog.mem_recorded.mpr edge))
        · exact .inr ⟨u, joined, reached, Catalog.mem_recorded.mpr edge⟩
    refine (begun.least _ _ within ?_ ?_).1 u.id inFound
    · intro id given
      exact .inl (List.mem_singleton.mp given)
    · intro relid given
      exact .inl (List.mem_append_left _ (List.mem_dedup.mp given))
  · have own : v.id ∈ found.1 := begun.given.1 List.mem_cons_self
    have records : ∀ {u : ViewRow}, u.id ∈ found.1 → ∀ relid ∈ c.recorded u, relid ∈ found.2 := fun inside relid reads =>
      closed.right _ (Catalog.mem_recorded.mp reads) inside
    have joined : ∀ {u : ViewRow}, u ∈ c.joinViews → ∀ relid ∈ c.recorded u, relid ∈ found.2 → u.id ∈ found.1 := fun member relid reads inside =>
      closed.left _ (Catalog.mem_recorded.mp reads) (Catalog.joins_iff.mpr ⟨_, member, rfl⟩) inside
    rintro (rfl | ⟨u, inside, ⟨x, first, ⟨relid, reads, start⟩, linked⟩, rfl⟩)
    · exact ⟨v, (Catalog.mem_joinViews.mp member).1, own, rfl⟩
    · have inFound : relid ∈ found.2 := by
        rcases List.mem_append.mp reads with spec | recorded
        · exact begun.given.2 (List.mem_dedup.mpr spec)
        · exact records own relid recorded
      have reached : u.id ∈ found.1 := by
        clear selected
        induction linked with
        | refl => exact joined first relid start inFound
        | tail _ edge ih =>
            obtain ⟨left, right, shared, onLeft, onRight⟩ := edge
            exact joined right shared onRight (records (ih left) shared onLeft)
      exact ⟨u, (Catalog.mem_joinViews.mp inside).1, reached, rfl⟩

theorem Catalog.refreshClosure_nodup {c : Catalog} (ids : Keyed ViewRow.id c.views) (v : ViewRow) : (c.refreshClosure v).Nodup :=
  ids.filter _

theorem Catalog.linked_reads {c : Catalog} {v w : ViewRow} (linked : Linked c.recorded c.joinViews v w) : Linked c.reads c.joinViews v w := by
  refine Relation.ReflTransGen.mono ?_ _ _ linked
  rintro a b ⟨left, right, relid, onLeft, onRight⟩
  exact ⟨left, right, relid, List.mem_append_right _ onLeft, List.mem_append_right _ onRight⟩

theorem Catalog.Reached.linked {c : Catalog} {v u : ViewRow} (member : v ∈ c.joinViews) (reached : c.Reached v u) :
    Linked c.reads c.joinViews v u := by
  obtain ⟨x, inside, ⟨relid, reads, recorded⟩, linked⟩ := reached
  exact .head ⟨member, inside, relid, reads, List.mem_append_right _ recorded⟩ (Catalog.linked_reads linked)

theorem Catalog.joinViews_keyed {c : Catalog} (ids : Keyed ViewRow.id c.views) : Keyed ViewRow.id c.joinViews := ids.filter _

theorem Catalog.Component.of_mem {c : Catalog} (keyed : Keyed ViewRow.id c.views) {v : ViewRow} {ids : List Nat} (once : ids.Nodup)
    (mem_iff : ∀ id, id ∈ ids ↔ ∃ w ∈ c.joinViews, w.id = id ∧ Linked c.reads c.joinViews v w) : c.Component v ids where
  once := once
  mem_iff := mem_iff
  closed := by
    intro w member inside u joined overlap
    obtain ⟨w', member', same, linked⟩ := (mem_iff w.id).mp inside
    obtain rfl := (Catalog.joinViews_keyed keyed).eq_of_mem member' member same
    exact (mem_iff u.id).mpr ⟨u, joined, rfl, linked.tail ⟨member, joined, overlap⟩⟩
  least := by
    intro X own closed id inside
    obtain ⟨w, member, rfl, linked⟩ := (mem_iff id).mp inside
    clear inside member
    induction linked with
    | refl => exact own
    | tail _ edge ih => exact closed _ edge.1 ih _ edge.2.1 edge.2.2

/-- The loop of `refresh_closure` ends for every view. A refresh of any member of a component
selects exactly the component when recorded tables hold it together, and only then. -/
theorem Catalog.refreshClosure_iff {c : Catalog} (keyed : Keyed ViewRow.id c.views) (v : ViewRow) :
    (∃ turns found, Breaks c.closureStep sizes v.closureStart turns found ∧ ∀ fuel ≥ turns, c.closureLoop fuel v.closureStart = found) ∧
      (c.Selects v ↔ c.Held v) := by
  constructor
  · obtain ⟨turns, found, -, breaks, ends, -⟩ := c.closureLoop_ends v
    exact ⟨turns, found, breaks, ends⟩
  · constructor
    · intro selects w member u joined linked linked' other
      have inside := ((selects w member linked).mem_iff u.id).mpr ⟨u, joined, rfl, linked'⟩
      rcases (Catalog.mem_refreshClosure member).mp inside with same | ⟨u', joined', reached, same⟩
      · exact absurd ((Catalog.joinViews_keyed keyed).eq_of_mem member joined same.symm) other
      · obtain rfl := (Catalog.joinViews_keyed keyed).eq_of_mem joined' joined same
        exact reached
    · intro held w member linked
      apply Catalog.Component.of_mem keyed (Catalog.refreshClosure_nodup keyed w)
      intro id
      rw [Catalog.mem_refreshClosure member]
      constructor
      · rintro (rfl | ⟨u, joined, reached, rfl⟩)
        · exact ⟨w, member, rfl, linked⟩
        · exact ⟨u, joined, rfl, linked.trans (reached.linked member)⟩
      · rintro ⟨u, joined, rfl, linked'⟩
        by_cases same : w = u
        · exact .inl (same ▸ rfl)
        · exact .inr ⟨u, joined, held w member u joined linked linked' same, rfl⟩

theorem Catalog.held_of_recorded {c : Catalog} (recorded : ∀ row ∈ c.views, ∀ relid, (row.id, relid) ∈ c.viewRelations ↔ relid ∈ row.spec.oids)
    (v : ViewRow) : c.Held v := by
  have same : ∀ row ∈ c.joinViews, ∀ relid, relid ∈ c.reads row ↔ relid ∈ c.recorded row := by
    intro row member relid
    have spec := recorded row (Catalog.mem_joinViews.mp member).1 relid
    rw [Catalog.reads, List.mem_append, ← spec, Catalog.mem_recorded, or_self]
  have stays : ∀ {a b : ViewRow}, Linked c.reads c.joinViews a b → Linked c.recorded c.joinViews a b := by
    intro a b linked
    refine Relation.ReflTransGen.mono ?_ _ _ linked
    rintro x y ⟨left, right, relid, onLeft, onRight⟩
    exact ⟨left, right, relid, (same x left relid).mp onLeft, (same y right relid).mp onRight⟩
  intro w member u joined linked linked' other
  rcases Relation.ReflTransGen.cases_head (linked.symm.trans linked') with equal | ⟨x, edge, rest⟩
  · exact absurd equal other
  · obtain ⟨-, inside, relid, onLeft, onRight⟩ := edge
    exact ⟨x, inside, ⟨relid, onLeft, (same x inside relid).mp onRight⟩, stays rest⟩

def tablesSpec (orders customers : Nat) : ViewSpec :=
  { shopSpec with
    relations := [⟨orders, 1, "public.orders", ["id"], ["id", "ref", "doc"], ["text", "text", "jsonb"], ["ref"]⟩,
      ⟨customers, 2, "public.customers", ["id"], ["id"], ["text"], ["id"]⟩] }

def chainCatalog : Catalog where
  views := [.initial 1 "public.a" "select" (tablesSpec 1 2), .initial 2 "public.b" "select" (tablesSpec 3 4),
    .initial 3 "public.c" "select" (tablesSpec 2 3), .initial 4 "public.d" "select" (tablesSpec 5 6)]
  viewRelations := [(1, 1), (1, 2), (2, 3), (2, 4), (3, 2), (3, 3), (4, 5), (4, 6)]
  shadows := []

theorem chainCatalog_recorded : ∀ row ∈ chainCatalog.views, ∀ relid, (row.id, relid) ∈ chainCatalog.viewRelations ↔ relid ∈ row.spec.oids := by
  simp [chainCatalog, ViewRow.initial, tablesSpec, ViewSpec.oids, eq_comm]

theorem chainCatalog_selected : chainCatalog.views.map chainCatalog.refreshClosure = [[1, 2, 3], [1, 2, 3], [1, 2, 3], [4]] ∧
    ∀ v ∈ chainCatalog.views, chainCatalog.Selects v :=
  ⟨rfl, fun v _ => (@Catalog.refreshClosure_iff chainCatalog (show [1, 2, 3, 4].Nodup by decide) v).2.mpr
    (Catalog.held_of_recorded chainCatalog_recorded v)⟩

/-- In every run whose rebuilds keep the base tables, a refresh selects components. -/
theorem Server.Reachable.selects {pf : Platform} {settings : Settings} {s : Server} (reached : s.Reachable pf settings Server.Resolves)
    (v : ViewRow) : s.catalog.Selects v := by
  have recorded : s.Recorded := reached.recorded fun _ _ resolves => resolves
  have selects := (Catalog.refreshClosure_iff reached.orderly.ids v).2
  exact selects.mpr (Catalog.held_of_recorded recorded v)

def movedSight : Sight := { joinSight 0 with validate := fun _ => .ok (tablesSpec 3 2) }

def besideSession : Session := { joinSession "public.b" with validate := fun _ => .ok (tablesSpec 3 4) }

def movedRefreshing : Catalog := joinBuilt.markRefreshing [1]

def joinMoved : Catalog := movedRefreshing.populate movedSight 30 none movedRefreshing.loadPending

def besideRow : ViewRow := .initial 3 "public.b" "select" (tablesSpec 3 4)

def joinBeside : Catalog := joinMoved.insertView besideRow

theorem movedRefreshing_pending : movedRefreshing.loadPending = movedRefreshing.views.map ViewRow.pending := by
  rw [Catalog.loadPending, List.mergeSort_of_pairwise]
  · rfl
  · decide

theorem joinMoved_reachable {pf : Platform} {settings : Settings} :
    (joinServer joinMoved [1, 2] [] [] [2, 1]).Reachable pf settings fun _ _ => True := by
  have live : (joinServer joinBuilt [1, 2] [] [] [1]).Reachable pf settings fun _ _ => True :=
    joinBuilt_reachable .all trivial
  have begun : (joinServer joinBuilt [1, 2] [.refresh [1] []] [] [1]).Reachable pf settings fun _ _ => True :=
    .step live (@Server.Step.refreshBegan pf settings (joinServer joinBuilt [1, 2] [] [] [1]) (joinSession "a") _ _ List.mem_cons_self rfl)
      trivial
  have committed : (joinServer movedRefreshing [1, 2] [] [] [2, 1]).Reachable pf settings fun _ _ => True :=
    begun.refreshed rfl (show 2 ∉ [1] by decide) (fun _ => trivial) trivial
  have loaded : (joinServer movedRefreshing [1, 2] [] [movedRefreshing.loadPending] [2, 1]).Reachable pf settings fun _ _ => True := by
    refine .step committed ?_ (e := .loaded) trivial
    have groups : group movedRefreshing.loadPending = [movedRefreshing.loadPending] := by
      rw [movedRefreshing_pending]
      rfl
    have step := @Server.Step.loaded pf settings (joinServer movedRefreshing [1, 2] [] [] [2, 1]) rfl
    rw [show (joinServer movedRefreshing [1, 2] [] [] [2, 1]).catalog = movedRefreshing from rfl, groups] at step
    exact step
  exact .step loaded (@Server.Step.built pf settings _ movedSight 30 none _ _ rfl) trivial

theorem joinBeside_reachable {pf : Platform} {settings : Settings} :
    (joinServer joinBeside [1, 2, 3, 4] [] [] [3, 2, 1]).Reachable pf settings fun _ _ => True := by
  have begun : (joinServer joinMoved [1, 2] [.create "public.b" "select" (tablesSpec 3 4) [3, 4]] [] [2, 1]).Reachable pf settings
      fun _ _ => True := by
    refine .step joinMoved_reachable (@Server.Step.createBegan pf settings (joinServer joinMoved [1, 2] [] [] [2, 1]) besideSession "b" "select"
      _ ?_ fun _ _ other member => absurd member List.not_mem_nil) trivial
    rw [show (joinServer joinMoved [1, 2] [] [] [2, 1]).catalog = joinMoved from rfl, joinMoved, movedRefreshing_pending]
    rfl
  have writes : Call.commit (joinServer joinMoved [] [] [] []).names 3 [1, 2] joinMoved (.create "public.b" "select" (tablesSpec 3 4) [3, 4]) =
      some ([1, 2, 3, 4], joinBeside) := by
    rw [joinBeside, joinMoved, movedRefreshing_pending]
    rfl
  exact .step begun (.committed (.refl _) (by decide) writes :
    Server.Step pf settings _ (.committed (.create "public.b" "select" (tablesSpec 3 4) [3, 4]) 3) _) trivial

/-- Both read table 3; a refresh of the first takes both along, one of the second only itself. -/
theorem joinBeside_selections : joinBeside.views.map joinBeside.refreshClosure = [[1, 3], [3]] := by
  rw [joinBeside, joinMoved, movedRefreshing_pending]
  rfl

theorem joinBeside_ids : joinBeside.views.map ViewRow.id = [1, 3] ∧ joinBeside.joinViews = joinBeside.views := by
  rw [joinBeside, joinMoved, movedRefreshing_pending]
  exact ⟨rfl, rfl⟩

theorem joinBeside_overlap : ∃ v w, joinBeside.views = [v, w] ∧ Overlap joinBeside.reads v w := by
  rw [joinBeside, joinMoved, movedRefreshing_pending]
  exact ⟨_, _, rfl, 3, by decide, by decide⟩

/-- The second view misses the first. -/
theorem joinBeside_missed : ¬ ∀ {pf : Platform} {settings : Settings} {s : Server}, s.Reachable pf settings (fun _ _ => True) →
    ∀ v ∈ s.catalog.joinViews, s.catalog.Selects v := by
  intro always
  obtain ⟨v, w, views, overlap⟩ := joinBeside_overlap
  have selections := joinBeside_selections
  have ids := joinBeside_ids.1
  have joins : joinBeside.joinViews = [v, w] := joinBeside_ids.2.trans views
  rw [views] at selections ids
  obtain ⟨first, second⟩ := List.cons.inj ids
  have inside : w ∈ joinBeside.joinViews := joins ▸ List.mem_cons_of_mem _ List.mem_cons_self
  have before : v ∈ joinBeside.joinViews := joins ▸ List.mem_cons_self
  have selects : joinBeside.Selects w := @always .basic shopSettings _ joinBeside_reachable w inside
  have taken := ((selects w inside .refl).mem_iff v.id).mpr ⟨v, before, rfl, .single ⟨inside, before, overlap.symm⟩⟩
  have only : joinBeside.refreshClosure w = [3] := (List.cons.inj (List.cons.inj selections).2).1
  rw [only, first] at taken
  exact absurd taken (by decide)

end Nabla
