import Nabla.Sharing

/-! A shadow that is snapshotted again, and the live views over it. -/
namespace Nabla
open Bags

variable {pf : Platform} {settings : Settings}

def HasShadow (shadows : List ShadowRow) (relid : Nat) : Prop :=
  (∃ s ∈ shadows, s.relid = relid) ∧ ∀ s ∈ shadows, s.relid = relid → s.failed = false

/-- The group snapshots the shadow of the table: it rebuilds a view over it, or builds one
over a shadow that failed or is missing. -/
def Catalog.Snapshots (c : Catalog) (sight : Sight) (group : List Pending) (relid : Nat) : Prop :=
  ∃ view ∈ group, ∃ spec, sight.spec view = .ok spec ∧ spec.isJoin = true ∧ relid ∈ spec.oids ∧
    (view.rebuild = true ∨ ¬ HasShadow c.shadows relid)

/-- A join view with this spec waits for a rebuild, in the catalog or among what the worker
has loaded, outside the views with these ids. -/
def Server.Awaits (s : Server) (groups : List (List Pending)) (apart : List Nat) (spec : ViewSpec) : Prop :=
  spec.isJoin = true ∧
    ((∃ row ∈ s.catalog.views, row.id ∉ apart ∧ row.status = .refreshing ∧ row.populated = true ∧ row.spec = spec) ∨
      ∃ view ∈ groups.flatten, view.rebuild = true ∧ view.spec = spec)

/-- A rebuild validates its definition to the same tables. When a group is built, no join
view outside it that shares a table with one of its join views waits for a rebuild, and none
is live over a failed or missing shadow. When a refresh commits, every live join view that
shares a table with a populated one that its UPDATE marked was marked as well. -/
def Server.Together (s : Server) : Event → Prop
  | .built sight _ _ group =>
    (∀ view ∈ group, view.rebuild = true → ∀ spec, sight.validate view.definition = .ok spec → spec.oids.Perm view.spec.oids) ∧
    (∀ view ∈ group, view.spec.isJoin = true → ∀ spec, s.Awaits s.groups.tail (group.map Pending.id) spec →
      ∀ relid ∈ view.spec.oids, relid ∉ spec.oids) ∧
    ∀ view ∈ group, view.spec.isJoin = true → ∀ relid ∈ view.spec.oids, ¬ HasShadow s.catalog.shadows relid →
      ∀ row ∈ s.catalog.views, row.id ∉ group.map Pending.id → row.status = .live → row.spec.isJoin = true → relid ∉ row.spec.oids
  | .committed (.marked ids _) _ => ∀ row ∈ s.catalog.views, row.id ∈ ids → row.populated = true → row.spec.isJoin = true →
    ∀ other ∈ s.catalog.views, other.id ∉ ids → other.status = .live → other.spec.isJoin = true →
      ∀ relid ∈ row.spec.oids, relid ∉ other.spec.oids
  | _ => True

/-- No live join view shares a table with one that waits for a rebuild. -/
def Server.Apart (s : Server) : Prop := ∀ row ∈ s.catalog.views, row.status = .live → row.spec.isJoin = true →
  ∀ spec, s.Awaits s.groups [] spec → ∀ relid ∈ row.spec.oids, relid ∉ spec.oids

/-- The shadows of one table are as they were, as far as their place in the log goes. -/
structure SameAt (relid : Nat) (shadows shadows' : List ShadowRow) : Prop where
  back : ∀ s' ∈ shadows', s'.relid = relid → ∃ s ∈ shadows, s.relid = relid ∧ s'.frontier = s.frontier ∧ s'.failed = s.failed
  there : (∃ s ∈ shadows, s.relid = relid) → ∃ s' ∈ shadows', s'.relid = relid

theorem SameAt.refl (relid : Nat) (shadows : List ShadowRow) : SameAt relid shadows shadows :=
  ⟨fun s member here => ⟨s, member, here, rfl, rfl⟩, id⟩

theorem SameAt.trans {relid : Nat} {shadows shadows' shadows'' : List ShadowRow} (first : SameAt relid shadows shadows')
    (second : SameAt relid shadows' shadows'') : SameAt relid shadows shadows'' where
  back := by
    intro s'' member here
    obtain ⟨s', member', here', frontier', failed'⟩ := second.back s'' member here
    obtain ⟨s, before, was, frontier, failed⟩ := first.back s' member' here'
    exact ⟨s, before, was, frontier'.trans frontier, failed'.trans failed⟩
  there := second.there ∘ first.there

theorem HasShadow.same {relid : Nat} {shadows shadows' : List ShadowRow} (has : HasShadow shadows relid) (same : SameAt relid shadows shadows') :
    HasShadow shadows' relid := by
  refine ⟨same.there has.1, fun s' member here => ?_⟩
  obtain ⟨s, before, was, _, failed⟩ := same.back s' member here
  exact failed.trans (has.2 s before was)

theorem updateShadow_sameAt {relid other : Nat} {f : ShadowRow → ShadowRow} (kept : ∀ s, (f s).relid = s.relid)
    (stands : other = relid → ∀ s, (f s).frontier = s.frontier ∧ (f s).failed = s.failed) (shadows : List ShadowRow) :
    SameAt relid shadows (updateShadow other f shadows) := by
  constructor
  · intro s' member here
    obtain ⟨s, before, rfl⟩ := List.mem_map.mp member
    by_cases touched : s.relid = other
    · rw [if_pos touched] at here ⊢
      have was : s.relid = relid := (kept s).symm.trans here
      exact ⟨s, before, was, stands (touched.symm.trans was) s⟩
    · rw [if_neg touched] at here ⊢
      exact ⟨s, before, here, rfl, rfl⟩
  · rintro ⟨s, before, here⟩
    refine ⟨_, List.mem_map_of_mem before, ?_⟩
    split
    · exact (kept s).trans here
    · exact here

theorem append_sameAt {relid : Nat} {s : ShadowRow} (other : s.relid ≠ relid) (shadows : List ShadowRow) :
    SameAt relid shadows (shadows ++ [s]) := by
  constructor
  · intro s' member here
    rcases List.mem_append.mp member with before | new
    · exact ⟨s', before, here, rfl, rfl⟩
    · exact absurd ((List.mem_singleton.mp new).symm ▸ here) other
  · rintro ⟨s', before, here⟩
    exact ⟨s', List.mem_append_left _ before, here⟩

theorem addColumn_place (rel : BaseRelation) (base : BaseTable) (columns : List (String × String)) (s : ShadowRow) :
    (columns.foldl (addColumn rel base) s).frontier = s.frontier ∧ (columns.foldl (addColumn rel base) s).failed = s.failed := by
  induction columns generalizing s with
  | nil => exact ⟨rfl, rfl⟩
  | cons column columns ih => exact ih _

section Shadows

variable {sight : Sight} {point relid : Nat}

theorem ensureShadow_sameAt {rel : BaseRelation} {shadows : List ShadowRow} (sound : rel.oid = relid → HasShadow shadows relid)
    (needed keys : List String) (base : BaseTable) : SameAt relid shadows (ensureShadow rel point needed keys base shadows) := by
  unfold ensureShadow
  cases found : shadows.find? (·.relid = rel.oid) with
  | none =>
      refine append_sameAt (s := createShadow rel point needed keys base) (fun here => ?_) shadows
      obtain ⟨s, member, same⟩ := (sound here).1
      have other := List.find?_eq_none.mp found s member
      rw [decide_eq_true_eq] at other
      exact other (same.trans here.symm)
  | some current =>
      have taken : SameAt relid shadows (updateShadow rel.oid (fun s => { s with refcount := s.refcount + 1 }) shadows) :=
        updateShadow_sameAt (by intro s; rfl) (by intro _ s; exact ⟨rfl, rfl⟩) shadows
      refine taken.trans ?_
      dsimp only
      split
      · rename_i failed
        refine updateShadow_sameAt (by intro s; rfl) (fun here => ?_) _
        have located := List.find?_some found
        simp only [decide_eq_true_eq] at located
        have whole := (sound here).2 current (List.mem_of_find?_eq_some found) (located.trans here)
        exact absurd (whole.symm.trans failed) Bool.false_ne_true
      · exact updateShadow_sameAt (fun s => (extendShadow_counts rel needed keys base s).1) (fun _ s => addColumn_place rel base _ s) _

theorem rebuildShadow_sameAt {rel : BaseRelation} (other : rel.oid ≠ relid) (needed keys : List String) (base : BaseTable)
    (shadows : List ShadowRow) : SameAt relid shadows (rebuildShadow rel point needed keys base shadows) := by
  unfold rebuildShadow
  cases shadows.find? (·.relid = rel.oid) with
  | none => exact append_sameAt (s := createShadow rel point needed keys base) other shadows
  | some current => exact updateShadow_sameAt (by intro s; rfl) (fun here => absurd here other) shadows

theorem buildShadows_sameAt {rebuild : Bool} (spec : ViewSpec) {rels : List BaseRelation} {done : List Nat} {c : Catalog}
    (sound : relid ∈ rels.map BaseRelation.oid → rebuild = false ∧ HasShadow c.shadows relid) :
    SameAt relid c.shadows (buildShadows sight point rebuild spec rels done c).1.shadows := by
  induction rels generalizing done c with
  | nil => exact .refl _ _
  | cons rel rels ih =>
      rw [List.map_cons, List.mem_cons] at sound
      rw [buildShadows]
      split
      · exact ih fun member => sound (.inr member)
      · have one : SameAt relid c.shadows (if rebuild then rebuildShadow rel point (neededColumns c rel.oid spec).1
            (neededColumns c rel.oid spec).2 (sight.table rel.oid) c.shadows
            else ensureShadow rel point (neededColumns c rel.oid spec).1 (neededColumns c rel.oid spec).2 (sight.table rel.oid) c.shadows) := by
          cases rebuild with
          | true => exact rebuildShadow_sameAt (fun here => absurd (sound (.inl here.symm)).1.symm Bool.false_ne_true) _ _ _ _
          | false => exact ensureShadow_sameAt (fun here => (sound (.inl here.symm)).2) _ _ _
        have later := @ih (rel.oid :: done) ⟨c.views, c.viewRelations, _⟩ fun member => ⟨(sound (.inr member)).1, (sound (.inr member)).2.same one⟩
        exact one.trans later

theorem BuildStep.sameAt {view : Pending} {done done' : List Nat} {c c' : Catalog} (step : BuildStep sight point view done c c' done')
    (sound : ∀ spec, sight.spec view = .ok spec → spec.isJoin = true → relid ∈ spec.oids → view.rebuild = false ∧ HasShadow c.shadows relid) :
    SameAt relid c.shadows c'.shadows := by
  cases step with
  | refused => exact .refl _ _
  | built spec valid =>
      have same : (c.respec view spec).shadows = c.shadows := by
        unfold Catalog.respec
        split <;> rfl
      show SameAt relid c.shadows ((c.respec view spec).reshadow sight point view spec done).1.shadows
      rw [← same]
      unfold Catalog.reshadow
      split
      · rename_i join
        exact buildShadows_sameAt spec fun member => same.symm ▸ sound spec valid join member
      · exact .refl _ _

/-- The shadow of a table that the group does not snapshot keeps its place in the log. -/
theorem Catalog.populate_sameAt {c : Catalog} {group : List Pending} (spares : ¬ c.Snapshots sight group relid) (slot : Option Nat) :
    SameAt relid c.shadows (c.populate sight point slot group).shadows := by
  have sound : ∀ view ∈ group, ∀ spec, sight.spec view = .ok spec → spec.isJoin = true → relid ∈ spec.oids →
      view.rebuild = false ∧ HasShadow c.shadows relid := by
    intro view member spec valid join reads
    constructor
    · rw [← Bool.not_eq_true]
      exact fun rebuild => spares ⟨view, member, spec, valid, join, reads, .inl rebuild⟩
    · by_contra missing
      exact spares ⟨view, member, spec, valid, join, reads, .inr missing⟩
  have outcome := c.populate_cases sight point slot group
  generalize c.populate sight point slot group = c' at outcome
  cases outcome with
  | failed message =>
      rw [(c.recordFailure_frame group message).2]
      exact .refl _ _
  | built _ ok =>
      clear spares
      generalize ([] : List Nat) = done at ok
      induction group generalizing done c with
      | nil =>
          obtain rfl := Except.ok.inj ok
          exact .refl _ _
      | cons view group ih =>
          rw [buildGroup] at ok
          cases one : build sight point view done c with
          | error message => simp only [one, reduceCtorEq] at ok
          | ok r =>
              simp only [one] at ok
              have same := (build_step one).sameAt (sound view List.mem_cons_self)
              refine same.trans (ih (fun v member spec valid join reads => ?_) _ ok)
              obtain ⟨first, has⟩ := sound v (List.mem_cons_of_mem _ member) spec valid join reads
              exact ⟨first, has.same same⟩

end Shadows

theorem Server.Apart.of_fewer {s s' : Server} (held : s.Apart)
    (live : ∀ row' ∈ s'.catalog.views, row'.status = .live → ∃ row ∈ s.catalog.views, row.status = .live ∧ row'.spec = row.spec)
    (waiting : ∀ spec, s'.Awaits s'.groups [] spec → s.Awaits s.groups [] spec) : s'.Apart := by
  intro row' member isLive join spec awaits
  obtain ⟨row, before, wasLive, same⟩ := live row' member isLive
  rw [same] at join ⊢
  exact held row before wasLive join spec (waiting spec awaits)

theorem Server.Awaits.of_rows {s s' : Server} {groups groups' : List (List Pending)}
    (rows : ∀ row' ∈ s'.catalog.views, row'.status = .refreshing → ∃ row ∈ s.catalog.views, row.status = .refreshing ∧
      row'.populated = row.populated ∧ row'.spec = row.spec)
    (loaded : ∀ view ∈ groups'.flatten, view.rebuild = true → view ∈ groups.flatten ∨
      ∃ row ∈ s.catalog.views, row.status = .refreshing ∧ row.populated = true ∧ row.spec = view.spec) {spec : ViewSpec}
    (awaits : s'.Awaits groups' [] spec) : s.Awaits groups [] spec := by
  obtain ⟨join, ⟨row', member, _, refreshing, populated, rfl⟩ | ⟨view, member, rebuild, rfl⟩⟩ := awaits
  · obtain ⟨row, before, was, same, spec⟩ := rows row' member refreshing
    exact ⟨join, .inl ⟨row, before, List.not_mem_nil, was, same ▸ populated, spec.symm⟩⟩
  · rcases loaded view member rebuild with before | ⟨row, before, was, populated, spec⟩
    · exact ⟨join, .inr ⟨view, before, rebuild, rfl⟩⟩
    · exact ⟨join, .inl ⟨row, before, List.not_mem_nil, was, populated, spec⟩⟩

theorem Catalog.markRefreshing_live {c : Catalog} {ids : List Nat} {row' : ViewRow} (member : row' ∈ (c.markRefreshing ids).views)
    (live : row'.status = .live) : row' ∈ c.views ∧ row'.id ∉ ids := by
  obtain ⟨row, before, same⟩ := List.mem_map.mp member
  split at same
  · subst same
    exact absurd live.symm Status.noConfusion
  · rename_i unmarked
    subst same
    exact ⟨before, fun asked => unmarked (List.contains_iff_mem.mpr asked)⟩

theorem Server.Apart.committed {s : Server} (held : s.Apart) {call : Call} {id : Nat} {publication : List Nat} {c : Catalog} {rest : List Call}
    (writes : call.commit s.names id s.publication s.catalog = some (publication, c)) (meets : s.Together (.committed call id)) :
    Server.Apart { s with catalog := c, publication := publication, calls := rest, used := id :: s.used } := by
  have kept : ∀ {c' : Catalog}, c'.views ⊆ s.catalog.views →
      Server.Apart { s with catalog := c', publication := publication, calls := rest, used := id :: s.used } := by
    intro c' fewer
    refine held.of_fewer (fun row' member live => ⟨row', fewer member, live, rfl⟩) fun spec awaits => ?_
    exact awaits.of_rows (fun row' member refreshing => ⟨row', fewer member, refreshing, rfl, rfl⟩) fun view member _ => .inl member
  cases call with
  | create name definition spec added =>
      simp only [Call.commit] at writes
      split at writes
      · cases writes
      · obtain ⟨rfl, rfl⟩ := Prod.mk.inj (Option.some.inj writes)
        have old : ∀ row' ∈ (s.catalog.insertView (.initial id name definition spec)).views, row'.status ≠ .initializing → row' ∈ s.catalog.views := by
          intro row' member other
          rcases List.mem_append.mp member with before | new
          · exact before
          · rw [List.mem_singleton.mp new] at other
            exact absurd rfl other
        refine held.of_fewer (fun row' member live => ?_) fun spec awaits => ?_
        · exact ⟨row', old row' member (live ▸ Status.noConfusion), live, rfl⟩
        · refine awaits.of_rows (fun row' member refreshing => ?_) fun view member _ => .inl member
          exact ⟨row', old row' member (refreshing ▸ Status.noConfusion), refreshing, rfl, rfl⟩
  | refresh _ _ => cases writes
  | marked ids added =>
      simp only [Call.commit] at writes
      split at writes
      · cases writes
      · obtain ⟨rfl, rfl⟩ := Prod.mk.inj (Option.some.inj writes)
        intro row' member live join spec awaits relid reads within
        obtain ⟨before, apart⟩ := Catalog.markRefreshing_live member live
        obtain ⟨joins, ⟨waiting, there, _, refreshing, populated, rfl⟩ | loaded⟩ := awaits
        · obtain ⟨row, was, rfl | ⟨asked, rfl⟩⟩ := mem_of_forall₂_right (s.catalog.markRefreshing_views ids) there
          · exact held row' before live join waiting.spec ⟨joins, .inl ⟨waiting, was, List.not_mem_nil, refreshing, populated, rfl⟩⟩ relid reads within
          · exact meets row was asked populated joins row' before apart live join relid within reads
        · exact held row' before live join spec ⟨joins, .inr loaded⟩ relid reads within
  | dropView dropped pruned =>
      obtain ⟨rfl, rfl⟩ := Prod.mk.inj (Option.some.inj writes)
      exact kept fun row member => (Catalog.mem_forgetView.mp member).1
  | dropTable relid pruned =>
      obtain ⟨rfl, rfl⟩ := Prod.mk.inj (Option.some.inj writes)
      exact kept fun row member => (Catalog.mem_dropTable.mp member).1
  | dropShadow relid pruned =>
      obtain ⟨rfl, rfl⟩ := Prod.mk.inj (Option.some.inj writes)
      exact kept (List.Subset.refl _)

theorem Server.Apart.of_stands {s : Server} (held : s.Apart) {c : Catalog} (stands : s.catalog.Stands c) :
    Server.Apart { s with catalog := c } := by
  refine held.of_fewer (fun row' member live => ?_) fun spec awaits => ?_
  · obtain ⟨row, before, kept⟩ := stands.row member
    exact ⟨row, before, kept.live live, kept.spec⟩
  · refine awaits.of_rows (fun row' member refreshing => ?_) fun view member _ => .inl member
    obtain ⟨row, before, kept⟩ := stands.row member
    refine ⟨row, before, ?_, kept.populated, kept.spec⟩
    rcases kept.status with same | ⟨_, stale⟩
    · exact same.symm.trans refreshing
    · exact absurd (stale.symm.trans refreshing) Status.noConfusion

theorem Server.Apart.loaded {s : Server} (held : s.Apart) (orderly : s.Orderly) :
    Server.Apart { s with groups := group s.catalog.loadPending } := by
  refine held.of_fewer (fun row' member live => ⟨row', member, live, rfl⟩) fun spec awaits => ?_
  refine awaits.of_rows (fun row' member refreshing => ⟨row', member, refreshing, rfl, rfl⟩) fun view member rebuild => .inr ?_
  have pending := (group_flatten (Catalog.loadPending_ids orderly.ids)).mem_iff.mp member
  obtain ⟨row, before, _, rfl⟩ := Catalog.mem_loadPending.mp pending
  rw [Pending.rebuild, Bool.and_eq_true, decide_eq_true_eq] at rebuild
  exact ⟨row, before, rebuild.1, rebuild.2, rfl⟩

section Built

variable {s : Server} {sight : Sight} {point : Nat} {slot : Option Nat} {group : List Pending} {groups : List (List Pending)}
  (orderly : s.Orderly) (next : s.groups = group :: groups) (meets : s.Together (.built sight point slot group))
include orderly next meets

/-- A row of the group that is live after the build stands at the point, over the tables
it was loaded with. -/
theorem Server.Together.built_row {row' : ViewRow} (member : row' ∈ (s.catalog.populate sight point slot group).views) :
    (row' ∈ s.catalog.views ∧ row'.id ∉ group.map Pending.id) ∨ (row'.id ∈ group.map Pending.id ∧ (row'.status = .live ∨ row'.status = .failed) ∧
      (row'.status = .live → row'.frontier = point ∧ ∃ view ∈ group, row'.spec.oids.Perm view.spec.oids)) := by
  have rows := @Catalog.populate_views sight point group (orderly.head next) slot s.catalog
  obtain ⟨row, before, step, _⟩ := mem_of_forall₂_right rows member
  by_cases inGroup : row.id ∈ group.map Pending.id
  · right
    refine ⟨step.id ▸ inGroup, ?_⟩
    rcases step.inside inGroup with ⟨view, inside, id, spec, valid, rfl⟩ | ⟨message, rfl⟩
    · refine ⟨.inl rfl, fun _ => ⟨rfl, view, inside, ?_⟩⟩
      show (if view.rebuild then spec else row.spec).oids.Perm view.spec.oids
      by_cases rebuild : view.rebuild = true
      · rw [if_pos rebuild]
        rw [Sight.spec, if_pos rebuild] at valid
        exact meets.1 view inside rebuild spec valid
      · rw [if_neg rebuild]
        have within : view ∈ s.groups.flatten := by
          rw [next, List.flatten_cons]
          exact List.mem_append_left _ inside
        have pending := (orderly.loaded view within).2.2 row before id.symm
        exact .of_eq (congrArg (ViewSpec.oids ∘ Pending.spec) pending)
    · exact ⟨.inr rfl, fun live => absurd live.symm Status.noConfusion⟩
  · left
    rw [step.outside inGroup]
    exact ⟨before, inGroup⟩

theorem Server.Together.built_awaits {spec : ViewSpec}
    (awaits : Server.Awaits { s with catalog := s.catalog.populate sight point slot group, groups := groups } groups [] spec) :
    s.Awaits groups (group.map Pending.id) spec := by
  obtain ⟨join, ⟨row', member, _, refreshing, populated, same⟩ | loaded⟩ := awaits
  · rcases meets.built_row orderly next member with ⟨before, apart⟩ | ⟨_, ended, _⟩
    · exact ⟨join, .inl ⟨row', before, apart, refreshing, populated, same⟩⟩
    · rw [refreshing] at ended
      exact absurd ended (by decide)
  · exact ⟨join, .inr loaded⟩

theorem Server.Apart.built (held : s.Apart) :
    Server.Apart { s with catalog := s.catalog.populate sight point slot group, groups := groups } := by
  intro row' member live join spec awaits relid reads within
  have waits := meets.built_awaits orderly next awaits
  rcases meets.built_row orderly next member with ⟨before, _⟩ | ⟨_, _, built⟩
  · refine held row' before live join spec ⟨waits.1, ?_⟩ relid reads within
    rcases waits.2 with ⟨row, there, _, rest⟩ | ⟨view, loaded, rest⟩
    · exact .inl ⟨row, there, List.not_mem_nil, rest⟩
    · refine .inr ⟨view, ?_, rest⟩
      rw [next, List.flatten_cons]
      exact List.mem_append_right _ loaded
  · obtain ⟨_, view, inside, same⟩ := built live
    have tail : s.groups.tail = groups := by rw [next, List.tail_cons]
    exact meets.2.1 view inside (ViewSpec.isJoin_of_perm same ▸ join) spec (tail.symm ▸ waits) relid (same.mem_iff.mp reads) within

/-- Whatever live join view is over a shadow that the group snapshots is at the point. -/
theorem Server.Apart.snapshot (held : s.Apart) {relid : Nat} (snapshots : s.catalog.Snapshots sight group relid) {row' : ViewRow}
    (member : row' ∈ (s.catalog.populate sight point slot group).views) (live : row'.status = .live) (join : row'.spec.isJoin = true)
    (reads : relid ∈ row'.spec.oids) : row'.frontier = point := by
  rcases meets.built_row orderly next member with ⟨before, apart⟩ | ⟨_, _, built⟩
  · exfalso
    obtain ⟨view, inside, spec, valid, joins, within, rebuilds | lost⟩ := snapshots
    · rw [Sight.spec, if_pos rebuilds] at valid
      have same := meets.1 view inside rebuilds spec valid
      have loaded : view ∈ s.groups.flatten := by
        rw [next, List.flatten_cons]
        exact List.mem_append_left _ inside
      exact held row' before live join view.spec ⟨ViewSpec.isJoin_of_perm same ▸ joins, .inr ⟨view, loaded, rebuilds, rfl⟩⟩ relid reads
        (same.mem_iff.mp within)
    · have same : spec.oids.Perm view.spec.oids := by
        by_cases rebuild : view.rebuild = true
        · rw [Sight.spec, if_pos rebuild] at valid
          exact meets.1 view inside rebuild spec valid
        · rw [Sight.spec, if_neg rebuild] at valid
          rw [Except.ok.inj valid]
      exact meets.2.2 view inside (ViewSpec.isJoin_of_perm same ▸ joins) relid (same.mem_iff.mp within) lost row' before apart live join reads
  · exact (built live).1

end Built

theorem Server.Apart.step {s s' : Server} {e : Event} (held : s.Apart) (orderly : s.Orderly) (step : s.Step pf settings e s')
    (meets : s.Together e) : s'.Apart := by
  cases step with
  | renamed => exact held
  | createBegan => exact held
  | refreshBegan => exact held
  | updated => exact held
  | viewDropBegan => exact held
  | tableDropBegan => exact held
  | shadowDropBegan => exact held
  | committed began fresh writes => exact held.committed writes meets
  | aborted => exact held
  | loaded done => exact held.loaded orderly
  | built next => exact Server.Apart.built orderly next meets held
  | restarted =>
      refine held.of_fewer (fun row' member live => ⟨row', member, live, rfl⟩) fun spec awaits => ?_
      exact awaits.of_rows (fun row' member refreshing => ⟨row', member, refreshing, rfl, rfl⟩) fun view member _ => absurd member List.not_mem_nil
  | applied done ran => exact held.of_stands (applyRound_stands orderly.ids ran)
  | idled => exact held.of_stands (s.catalog.idleAdvance_stands _)
  | lagged => exact held.of_stands s.catalog.markLagged_stands

theorem Server.Reachable.apart {s : Server} (reached : s.Reachable pf settings Server.Together) : s.Apart := by
  induction reached with
  | start starts =>
      intro row member
      rw [starts.views] at member
      cases member
  | step before step meets held => exact held.step before.orderly step meets

/-- A shadow that a group moves is one it snapshots, and when it snapshots one, every join
view that is live over it afterwards was rebuilt at that point. -/
theorem Server.Reachable.snapshots_together {s s' : Server} (reached : s.Reachable pf settings Server.Together) {sight : Sight} {point : Nat}
    {slot : Option Nat} {group : List Pending} (step : s.Step pf settings (.built sight point slot group) s')
    (meets : s.Together (.built sight point slot group)) :
    (∀ shadow' ∈ s'.catalog.shadows, s.catalog.Snapshots sight group shadow'.relid ∨
      ∃ shadow ∈ s.catalog.shadows, shadow.relid = shadow'.relid ∧ shadow'.frontier = shadow.frontier) ∧
    ∀ relid, s.catalog.Snapshots sight group relid → ∀ row ∈ s'.catalog.views, row.status = .live → row.spec.isJoin = true →
      relid ∈ row.spec.oids → row.frontier = point := by
  cases step with
  | built next =>
      constructor
      · intro shadow' member
        by_cases snapshots : s.catalog.Snapshots sight group shadow'.relid
        · exact .inl snapshots
        · obtain ⟨shadow, before, same, frontier, _⟩ := (Catalog.populate_sameAt snapshots slot).back shadow' member rfl
          exact .inr ⟨shadow, before, same, frontier⟩
      · intro relid snapshots row member live join reads
        exact Server.Apart.snapshot reached.orderly next meets reached.apart snapshots member live join reads

theorem joinAlone_together {s : Server} (ids : s.catalog.views.map ViewRow.id = [1]) {view : Pending} (own : view.id = 1)
    (spec : view.spec = shopSpec) (point : Nat) (last : s.groups.tail = []) : s.Together (.built (joinSight 0) point none [view]) := by
  have inside : ∀ row ∈ s.catalog.views, row.id ∈ [view].map Pending.id := by
    intro row member
    have listed := List.mem_map_of_mem (f := ViewRow.id) member
    rw [ids] at listed
    rwa [List.map_singleton, own]
  refine ⟨fun v member _ spec' valid => ?_, fun v _ _ spec' awaits => ?_, fun v _ _ relid _ _ row member apart => absurd (inside row member) apart⟩
  · obtain rfl := List.mem_singleton.mp member
    rw [spec, ← Except.ok.inj valid]
  · rcases awaits.2 with ⟨row, member, apart, _⟩ | ⟨other, member, _⟩
    · exact absurd (inside row member) apart
    · rw [last] at member
      exact absurd member List.not_mem_nil

theorem joinAgain_reachable : ∃ (s : Server) (view : Pending), s.Reachable pf settings Server.Together ∧ s.groups = [[view]] ∧ view.id = 1 ∧ view.spec = shopSpec ∧
    view.rebuild = true ∧ s.catalog.views.map ViewRow.id = [1] := by
  have live : (joinServer joinBuilt [1, 2] [] [] [1]).Reachable pf settings Server.Together :=
    joinBuilt_reachable ⟨fun _ _ => trivial, fun _ _ _ _ _ => trivial, fun _ => trivial⟩ (joinAlone_together rfl rfl rfl 10 rfl)
  have begun : (joinServer joinBuilt [1, 2] [.refresh [1] []] [] [1]).Reachable pf settings Server.Together :=
    .step live (@Server.Step.refreshBegan pf settings (joinServer joinBuilt [1, 2] [] [] [1]) (joinSession "a") _ _ List.mem_cons_self rfl)
      trivial
  have committed : (joinServer movedRefreshing [1, 2] [] [] [2, 1]).Reachable pf settings Server.Together := by
    refine begun.refreshed rfl (show 2 ∉ [1] by decide) (fun _ => trivial) ?_
    intro row _ _ _ _ other member apart
    have listed := List.mem_map_of_mem (f := ViewRow.id) member
    exact absurd listed apart
  have again : (joinServer movedRefreshing [1, 2] [] (group movedRefreshing.loadPending) [2, 1]).Reachable pf settings Server.Together :=
    .step committed (.loaded rfl) trivial
  refine ⟨_, joinLate, again, ?_, rfl, rfl, rfl, rfl⟩
  show group movedRefreshing.loadPending = _
  rw [movedRefreshing_pending]
  rfl

theorem joinAgain_together : ∃ (s s' : Server) (view : Pending), s.Step .basic shopSettings (.built (joinSight 0) 30 none [view]) s' ∧
    s.catalog.Snapshots (joinSight 0) [view] 1 ∧
    ∀ row ∈ s'.catalog.views, row.status = .live → row.spec.isJoin = true → 1 ∈ row.spec.oids → row.frontier = 30 := by
  obtain ⟨s, view, reached, groups, own, spec, rebuild, ids⟩ := @joinAgain_reachable .basic shopSettings
  have step := @Server.Step.built .basic shopSettings s (joinSight 0) 30 none _ _ groups
  have snapshots : s.catalog.Snapshots (joinSight 0) [view] 1 := by
    refine ⟨view, List.mem_cons_self, shopSpec, ?_, rfl, List.mem_cons_self, .inl rebuild⟩
    rw [Sight.spec, if_pos rebuild]
    rfl
  have meets := joinAlone_together ids own spec 30 (by rw [groups]; rfl)
  exact ⟨s, _, view, step, snapshots, (reached.snapshots_together step meets).2 1 snapshots⟩

/-- The second view is initializing when the UPDATE of the refresh runs, so it marks the first. -/
def joinMarked : Catalog := (joinBuilt.insertView (joinRow 2 "public.b")).markRefreshing [1]

def joinEarly : Catalog := joinMarked.populate (joinSight 0) 20 none [(joinRow 2 "public.b").pending]

theorem joinEarly_reachable : (joinServer joinEarly [1, 2] [] [[joinLate]] [3, 2, 1]).Reachable pf settings fun _ _ => True := by
  have begun : (joinServer (joinBuilt.insertView (joinRow 2 "public.b")) [1, 2] [.refresh [1, 2] []] [[(joinRow 2 "public.b").pending]]
      [2, 1]).Reachable pf settings fun _ _ => True :=
    .step (joinSecond_reachable .all (joinBuilt_reachable .all trivial)) (@Server.Step.refreshBegan pf settings _ (joinSession "a") _ _ List.mem_cons_self rfl) trivial
  have committed : (joinServer joinMarked [1, 2] [] [[(joinRow 2 "public.b").pending]] [3, 2, 1]).Reachable pf settings fun _ _ => True :=
    begun.refreshed rfl (show 3 ∉ [2, 1] by decide) (fun _ => trivial) trivial
  have built : (joinServer joinEarly [1, 2] [] [] [3, 2, 1]).Reachable pf settings fun _ _ => True :=
    .step committed (@Server.Step.built pf settings _ (joinSight 0) 20 none _ _ rfl) trivial
  refine .step built ?_ (e := .loaded) trivial
  have groups : group joinEarly.loadPending = [[joinLate]] := by
    rw [Catalog.loadPending_single rfl]
    rfl
  rw [← groups]
  exact .loaded rfl

/-- The rebuild of the first view snapshots both shadows at 30; the second is live at 20. -/
theorem joinEarly_behind : ¬ ∀ {pf : Platform} {settings : Settings} {s s' : Server} {sight : Sight} {point : Nat} {slot : Option Nat}
    {group : List Pending}, s.Reachable pf settings (fun _ _ => True) → s.Step pf settings (.built sight point slot group) s' →
    ∀ relid, s.catalog.Snapshots sight group relid → ∀ row ∈ s'.catalog.views, row.status = .live → row.spec.isJoin = true →
      relid ∈ row.spec.oids → point ≤ row.frontier := by
  intro always
  have step := @Server.Step.built .basic shopSettings (joinServer joinEarly [1, 2] [] [[joinLate]] [3, 2, 1]) (joinSight 0) 30 none _ _ rfl
  have snapshots : joinEarly.Snapshots (joinSight 0) [joinLate] 1 := ⟨joinLate, List.mem_cons_self, shopSpec, rfl, rfl, List.mem_cons_self, .inl rfl⟩
  have late := always joinEarly_reachable step 1 snapshots
  let seen (row : ViewRow) := (row.frontier, row.status, row.spec.isJoin, row.spec.oids)
  have views : (joinEarly.populate (joinSight 0) 30 none [joinLate]).views.map seen = [(30, .live, true, [1, 2]), (20, .live, true, [1, 2])] := rfl
  have second : (20, Status.live, true, [1, 2]) ∈ (joinEarly.populate (joinSight 0) 30 none [joinLate]).views.map seen :=
    views ▸ List.mem_cons_of_mem _ List.mem_cons_self
  obtain ⟨row, member, same⟩ := List.mem_map.mp second
  obtain ⟨frontier, live, join, oids⟩ : row.frontier = 20 ∧ row.status = .live ∧ row.spec.isJoin = true ∧ row.spec.oids = [1, 2] := by
    simpa only [seen, Prod.mk.injEq] using same
  have reached := late row member live join (oids ▸ List.mem_cons_self)
  rw [frontier] at reached
  exact absurd reached (by decide)

end Nabla
