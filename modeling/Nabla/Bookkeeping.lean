import Nabla.PhaseTwo

/-! The end of a round: the rows it writes, and the catalog that has them. -/
namespace Nabla
open Bags

structure ViewRow.Finished (v : LiveView) (row : ViewRow) : Prop where
  id : row.id = v.row.id
  spec : row.spec = v.row.spec
  storage : row.storage = v.row.storage
  status : row.status = v.row.status
  frontier : row.frontier = v.absorbed.getLast?.getD v.row.frontier

theorem LiveView.finish_ok {settings : Settings} {v : LiveView} {row : ViewRow} (done : v.finish settings = .ok row) :
    ViewRow.Finished v row := by
  unfold LiveView.finish at done
  cases absorbed : v.absorbed.getLast? with
  | none =>
      simp only [absorbed, Except.ok.injEq] at done
      subst done
      exact ⟨rfl, rfl, rfl, rfl, by rw [absorbed, Option.getD_none]⟩
  | some e =>
      simp only [absorbed] at done
      cases pending : v.pending.getLast? with
      | none =>
          simp only [pending, Except.ok.injEq] at done
          subst done
          exact ⟨rfl, rfl, rfl, rfl, by rw [absorbed, Option.getD_some]⟩
      | some last =>
          simp only [pending] at done
          cases sent : notify s!"nabla:{v.row.name}" s!"{last.seq}:{formatLsn last.lsn}" with
          | error message => simp only [sent, Except.map, reduceCtorEq] at done
          | ok _ =>
              simp only [sent, Except.map, Except.ok.injEq] at done
              subst done
              exact ⟨rfl, rfl, rfl, rfl, by rw [absorbed, Option.getD_some]⟩

theorem finishViews_iff {settings : Settings} {views : List LiveView} {rows : List ViewRow} :
    finishViews settings views = .ok rows ↔ List.Forall₂ (fun v row => v.finish settings = .ok row) views rows := by
  induction views generalizing rows with
  | nil =>
      rw [finishViews, Except.ok.injEq]
      constructor
      · rintro rfl
        exact .nil
      · rintro ⟨⟩
        rfl
  | cons v views ih =>
      rw [finishViews]
      cases first : v.finish settings with
      | error e =>
          constructor
          · intro done
            exact absurd done (by simp only [reduceCtorEq, not_false_iff])
          · intro related
            cases related with
            | cons head tail => exact absurd (first.symm.trans head) (by simp only [reduceCtorEq, not_false_iff])
      | ok row =>
          cases later : finishViews settings views with
          | error e =>
              constructor
              · intro done
                exact absurd done (by simp only [reduceCtorEq, not_false_iff])
              · intro related
                cases related with
                | cons head tail =>
                    exact absurd (later.symm.trans (ih.mpr tail)) (by simp only [reduceCtorEq, not_false_iff])
          | ok more =>
              constructor
              · intro done
                obtain rfl := Except.ok.inj done
                exact .cons first (ih.mp later)
              · intro related
                cases related with
                | @cons _ row' _ more' head tail =>
                    obtain rfl := Except.ok.inj (first.symm.trans head)
                    obtain rfl := Except.ok.inj (later.symm.trans (ih.mpr tail))
                    rfl

theorem finishViews_ok {settings : Settings} {views : List LiveView} {rows : List ViewRow}
    (done : finishViews settings views = .ok rows) : List.Forall₂ ViewRow.Finished views rows :=
  (finishViews_iff.mp done).imp fun _ _ => LiveView.finish_ok

theorem Catalog.writeBack_ids (c : Catalog) (written : List ViewRow) (shadows : List ShadowRow) :
    (c.writeBack written shadows).views.map ViewRow.id = c.views.map ViewRow.id := by
  rw [Catalog.writeBack, List.map_map]
  apply List.map_congr_left
  intro row _
  rw [Function.comp_apply]
  cases found : written.find? (·.id = row.id) with
  | none => rfl
  | some new =>
      have same := List.find?_some found
      rwa [decide_eq_true_eq] at same

theorem Catalog.mem_writeBack {c : Catalog} {written : List ViewRow} {shadows : List ShadowRow} {row : ViewRow}
    (member : row ∈ (c.writeBack written shadows).views) :
    row ∈ written ∨ (row ∈ c.views ∧ row.id ∉ written.map ViewRow.id) := by
  obtain ⟨old, inCatalog, rfl⟩ := List.mem_map.mp member
  cases found : written.find? (·.id = old.id) with
  | some new =>
      rw [Option.getD_some]
      exact Or.inl (List.mem_of_find?_eq_some found)
  | none =>
      rw [Option.getD_none]
      refine Or.inr ⟨inCatalog, fun taken => ?_⟩
      obtain ⟨new, inWritten, same⟩ := List.mem_map.mp taken
      have missing := List.find?_eq_none.mp found new inWritten
      rw [decide_eq_true_eq] at missing
      exact missing same

theorem Catalog.mem_liveViews {c : Catalog} {v : LiveView} (member : v ∈ c.liveViews) :
    ∃ row ∈ c.views, row.status = .live ∧ v = LiveView.load row := by
  obtain ⟨row, live, rfl⟩ := List.mem_map.mp member
  rw [List.mem_filter, decide_eq_true_eq] at live
  exact ⟨row, live.1, live.2, rfl⟩

section Loaded

variable {c : Catalog} {views : List LiveView} {written : List ViewRow}
  (loaded : List.Forall₂ (fun v v' => v'.row.id = v.row.id) c.liveViews views)
  (finished : List.Forall₂ ViewRow.Finished views written)
include loaded finished

theorem Catalog.written_ids : written.map ViewRow.id = (c.views.filter (·.status = .live)).map ViewRow.id := by
  have first : views.map (·.row.id) = c.liveViews.map (·.row.id) :=
    map_eq_of_forall₂ loaded fun v v' same => same
  have second : written.map ViewRow.id = views.map (·.row.id) :=
    map_eq_of_forall₂ finished fun v row same => same.id
  rw [second, first, Catalog.liveViews, List.map_map]
  rfl

/-- A live row after the round is as the round wrote it. -/
theorem Catalog.written_live {shadows : List ShadowRow} {row : ViewRow}
    (member : row ∈ (c.writeBack written shadows).views) (live : row.status = .live) :
    ∃ v ∈ views, ViewRow.Finished v row := by
  rcases Catalog.mem_writeBack member with inWritten | ⟨before, absent⟩
  · exact mem_of_forall₂_right finished inWritten
  · rw [Catalog.written_ids loaded finished] at absent
    refine absurd (List.mem_map_of_mem ?_) absent
    rw [List.mem_filter, decide_eq_true_eq]
    exact ⟨before, live⟩

theorem Catalog.writeBack_written (ids : Keyed ViewRow.id c.views) {shadows : List ShadowRow} {row row' : ViewRow}
    (inWritten : row' ∈ written) (member : row ∈ c.views) (same : row'.id = row.id) :
    row' ∈ (c.writeBack written shadows).views := by
  have keyed : Keyed ViewRow.id written := by
    rw [Keyed, Catalog.written_ids loaded finished]
    exact List.Nodup.sublist (List.filter_sublist.map _) ids
  refine List.mem_map.mpr ⟨row, member, ?_⟩
  have found := keyed.find_of_mem inWritten
  rw [same] at found
  rw [found, Option.getD_some]

end Loaded

end Nabla
