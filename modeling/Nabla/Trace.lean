import Nabla.Bookkeeping

/-! What a round does to one view is a list of events that the other views have no part
in: the relation descriptions, the source transactions and the shadows decide it. -/
namespace Nabla
open Bags

variable (pf : Platform) (settings : Settings) (faults : Faults)

inductive ViewEvent where
  | plan (endLsn position relid : Nat) (tables : Nat → Option (List BaseRow)) (rel : Relation) (change : Change)
      (oldFull : Except String (Option Tuple))
  | lost (relid : Nat) (rel : Relation) (message : String)
  | execute (tx : SourceTransaction)

def LiveView.handle (v : LiveView) : ViewEvent → LiveView
  | .plan endLsn position relid tables rel change oldFull =>
    planView pf faults endLsn position relid tables rel change oldFull v
  | .lost relid rel message => shadowLost relid rel message v
  | .execute tx => executeView pf settings faults tx v

def LiveView.replay (events : List ViewEvent) (v : LiveView) : LiveView :=
  events.foldl (LiveView.handle pf settings faults) v

theorem LiveView.replay_append (first second : List ViewEvent) :
    LiveView.replay pf settings faults (first ++ second) =
      LiveView.replay pf settings faults second ∘ LiveView.replay pf settings faults first := by
  funext v
  exact List.foldl_append

/-- Nothing a round decides reads a shadow's stale reason. -/
def ShadowRow.Like (s s' : ShadowRow) : Prop := ∃ reason, s' = { s with staleReason := reason }

theorem ShadowRow.Like.refl (s : ShadowRow) : s.Like s := ⟨s.staleReason, rfl⟩

theorem like_updateShadow {f g : ShadowRow → ShadowRow} (like : ∀ s s', s.Like s' → (f s).Like (g s')) (relid : Nat)
    {shadows shadows' : List ShadowRow} (same : List.Forall₂ ShadowRow.Like shadows shadows') :
    List.Forall₂ ShadowRow.Like (updateShadow relid f shadows) (updateShadow relid g shadows') := by
  rw [updateShadow, updateShadow, List.forall₂_map_left_iff, List.forall₂_map_right_iff]
  refine same.imp fun s s' like' => ?_
  have relids : s'.relid = s.relid := by
    obtain ⟨reason, rfl⟩ := like'
    rfl
  rw [relids]
  by_cases here : s.relid = relid
  · rw [if_pos here, if_pos here]
    exact like s s' like'
  · rw [if_neg here, if_neg here]
    exact like'

theorem like_find {shadows shadows' : List ShadowRow} (same : List.Forall₂ ShadowRow.Like shadows shadows')
    (relid : Nat) : Option.Rel ShadowRow.Like (shadows.find? (·.relid = relid)) (shadows'.find? (·.relid = relid)) := by
  induction same with
  | nil => exact .none
  | @cons s s' _ _ like _ ih =>
      have relids : s'.relid = s.relid := by
        obtain ⟨reason, rfl⟩ := like
        rfl
      rw [List.find?_cons, List.find?_cons, relids]
      by_cases here : s.relid = relid
      · simp only [here, decide_true]
        exact .some like
      · simp only [here, decide_false]
        exact ih

theorem like_activeShadow {shadows shadows' : List ShadowRow} (same : List.Forall₂ ShadowRow.Like shadows shadows')
    (relid e : Nat) : Option.Rel ShadowRow.Like (activeShadow shadows relid e) (activeShadow shadows' relid e) := by
  rw [activeShadow, activeShadow]
  have found := like_find same relid
  generalize shadows.find? (·.relid = relid) = s, shadows'.find? (·.relid = relid) = s' at found
  cases found with
  | none => exact .none
  | @some s s' like =>
      obtain ⟨reason, rfl⟩ := like
      rw [Option.filter_some, Option.filter_some]
      by_cases active : (!s.failed && decide (s.frontier < e)) = true
      · rw [if_pos active, if_pos active]
        exact .some ⟨reason, rfl⟩
      · rw [if_neg active, if_neg active]
        exact .none

theorem like_shadowTable {shadows shadows' : List ShadowRow} (same : List.Forall₂ ShadowRow.Like shadows shadows') :
    shadowTable shadows = shadowTable shadows' := by
  funext relid
  rw [shadowTable, shadowTable]
  have found := like_find same relid
  generalize shadows.find? (·.relid = relid) = s, shadows'.find? (·.relid = relid) = s' at found
  cases found with
  | none => rfl
  | some like =>
      obtain ⟨reason, rfl⟩ := like
      rfl

/-- From shadows up to their stale reasons, `f` raises one error for any views, or replays
the same events for each of them. -/
def Traced (f : RoundState → Except String RoundState) : Prop :=
  ∀ shadows : List ShadowRow,
    (∃ message, ∀ shadows', List.Forall₂ ShadowRow.Like shadows shadows' → ∀ views,
      f ⟨views, shadows'⟩ = .error message) ∨
    ∃ events left, ∀ shadows', List.Forall₂ ShadowRow.Like shadows shadows' →
      ∃ left', List.Forall₂ ShadowRow.Like left left' ∧ ∀ views,
        f ⟨views, shadows'⟩ = .ok ⟨views.map (LiveView.replay pf settings faults events), left'⟩

variable {pf settings faults}

theorem Traced.nil : Traced pf settings faults Except.ok := by
  intro shadows
  refine Or.inr ⟨[], shadows, fun shadows' same => ⟨shadows', same, fun views => ?_⟩⟩
  have idle : views.map (LiveView.replay pf settings faults []) = views := List.map_id' views
  rw [idle]

theorem Traced.seq {f g : RoundState → Except String RoundState} (first : Traced pf settings faults f)
    (second : Traced pf settings faults g) {h : RoundState → Except String RoundState}
    (error : ∀ {st message}, f st = .error message → h st = .error message)
    (ok : ∀ {st st'}, f st = .ok st' → h st = g st') : Traced pf settings faults h := by
  intro shadows
  rcases first shadows with ⟨message, failed⟩ | ⟨events, left, done⟩
  · exact Or.inl ⟨message, fun shadows' same views => error (failed shadows' same views)⟩
  · rcases second left with ⟨message, failed⟩ | ⟨later, end_, done'⟩
    · refine Or.inl ⟨message, fun shadows' same views => ?_⟩
      obtain ⟨left', same', done⟩ := done shadows' same
      rw [ok (done views)]
      exact failed left' same' _
    · refine Or.inr ⟨events ++ later, end_, fun shadows' same => ?_⟩
      obtain ⟨left', same', done⟩ := done shadows' same
      obtain ⟨end_', same'', done'⟩ := done' left' same'
      refine ⟨end_', same'', fun views => ?_⟩
      rw [ok (done views), LiveView.replay_append, ← List.map_map]
      exact done' _

theorem applyRelid_traced (rels : List (Nat × Relation)) (e position : Nat) (change : Change) (relid : Nat) :
    Traced pf settings faults (applyRelid pf faults rels e position change relid) := by
  intro shadows
  unfold applyRelid
  cases rels.lookup relid with
  | none => exact Or.inl ⟨_, fun shadows' _ views => rfl⟩
  | some rel =>
      have tables := fun shadows' => @like_shadowTable shadows shadows'
      have active := fun shadows' same => @like_activeShadow shadows shadows' same relid e
      dsimp only
      generalize activeShadow shadows relid e = a at active
      cases a with
      | none =>
          refine Or.inr ⟨[.plan e position relid (shadowTable shadows) rel change (.ok none)], shadows, ?_⟩
          intro shadows' same
          have found := active shadows' same
          rw [tables shadows' same]
          generalize activeShadow shadows' relid e = a' at found
          cases found
          exact ⟨shadows', same, fun views => rfl⟩
      | some s =>
          have found : ∀ shadows', List.Forall₂ ShadowRow.Like shadows shadows' → ∃ s', s.Like s' ∧
              activeShadow shadows' relid e = some s' := by
            intro shadows' same
            have found := active shadows' same
            generalize activeShadow shadows' relid e = a' at found
            cases found with
            | some like => exact ⟨_, like, rfl⟩
          have oldFull : ∀ s', s.Like s' →
              readOldRow pf faults e position s' rel change = readOldRow pf faults e position s rel change := by
            rintro s' ⟨reason, rfl⟩
            cases change <;> rfl
          have maintained : ∀ s', s.Like s' → ∀ old newFull, maintainShadow pf faults e position s' rel change old newFull =
              maintainShadow pf faults e position s rel change old newFull := by
            rintro s' ⟨reason, rfl⟩ old newFull
            cases old with
            | error message => rfl
            | ok old => cases change <;> rfl
          generalize readOldRow pf faults e position s rel change = old at oldFull
          cases completed : completeNewRow rel (old.toOption.getD none) change with
          | error message =>
              refine Or.inl ⟨message, fun shadows' same views => ?_⟩
              obtain ⟨s', like, eq⟩ := found shadows' same
              simp only [eq, oldFull s' like, completed]
          | ok newFull =>
              cases written : maintainShadow pf faults e position s rel change old newFull with
              | ok rows =>
                  refine Or.inr ⟨[.plan e position relid (shadowTable shadows) rel change old],
                    updateShadow relid (fun t => { t with rows := rows }) shadows, fun shadows' same => ?_⟩
                  obtain ⟨s', like, eq⟩ := found shadows' same
                  refine ⟨updateShadow relid (fun t => { t with rows := rows }) shadows',
                    like_updateShadow ?_ relid same, fun views => ?_⟩
                  · rintro t t' ⟨reason, rfl⟩
                    exact ⟨reason, rfl⟩
                  · simp only [eq, oldFull s' like, completed, maintained s' like, written, ← tables shadows' same]
                    rfl
              | error message =>
                  refine Or.inr ⟨[.plan e position relid (shadowTable shadows) rel change old, .lost relid rel message],
                    updateShadow relid (recordShadowFailure · message) shadows, fun shadows' same => ?_⟩
                  obtain ⟨s', like, eq⟩ := found shadows' same
                  refine ⟨updateShadow relid (recordShadowFailure · message) shadows',
                    like_updateShadow ?_ relid same, fun views => ?_⟩
                  · rintro t t' ⟨reason, rfl⟩
                    exact ⟨_, rfl⟩
                  · simp only [eq, oldFull s' like, completed, maintained s' like, written, ← tables shadows' same,
                      List.map_map]
                    rfl

theorem applyRelids_traced (rels : List (Nat × Relation)) (e position : Nat) (change : Change) (relids : List Nat) :
    Traced pf settings faults (applyRelids pf faults rels e position change relids) := by
  induction relids with
  | nil => exact Traced.nil
  | cons relid relids ih =>
      refine Traced.seq (applyRelid_traced rels e position change relid) ih ?_ ?_
      · intro st message failed
        rw [applyRelids, failed]
      · intro st st' done
        rw [applyRelids, done]

theorem applyChanges_traced (rels : List (Nat × Relation)) (e position : Nat) (changes : List Change) :
    Traced pf settings faults (applyChanges pf faults rels e position changes) := by
  induction changes generalizing position with
  | nil => exact Traced.nil
  | cons change changes ih =>
      refine Traced.seq (applyRelids_traced rels e position change change.relids) (ih (position + 1)) ?_ ?_
      · intro st message failed
        rw [applyChanges, failed]
      · intro st st' done
        rw [applyChanges, done]

theorem applyTransaction_traced (rels : List (Nat × Relation)) (tx : SourceTransaction) :
    Traced pf settings faults fun st => (applyTransaction pf settings faults rels tx st).map Prod.fst := by
  refine Traced.seq (applyChanges_traced rels tx.endLsn 0 tx.changes)
    (g := fun st => .ok ⟨st.views.map (executeView pf settings faults tx), st.shadows.map (advanceShadow tx.endLsn)⟩)
    ?_ ?_ ?_
  · intro shadows
    refine Or.inr ⟨[.execute tx], shadows.map (advanceShadow tx.endLsn), fun shadows' same => ?_⟩
    refine ⟨shadows'.map (advanceShadow tx.endLsn), ?_, fun views => rfl⟩
    rw [List.forall₂_map_left_iff, List.forall₂_map_right_iff]
    refine same.imp fun s s' like => ?_
    obtain ⟨reason, rfl⟩ := like
    rw [advanceShadow, advanceShadow]
    by_cases moves : (!s.failed && decide (s.frontier < tx.endLsn)) = true
    · rw [if_pos moves, if_pos moves]
      exact ⟨reason, rfl⟩
    · rw [if_neg moves, if_neg moves]
      exact ⟨reason, rfl⟩
  · intro st message failed
    rw [applyTransaction, failed]
    rfl
  · intro st st' done
    rw [applyTransaction, done]
    rfl

theorem applyTransactions_traced (rels : List (Nat × Relation)) (ti : Nat) (txs : List SourceTransaction) :
    Traced pf settings faults fun st => (applyTransactions pf settings faults rels ti txs st).map Prod.fst := by
  induction txs generalizing ti with
  | nil => exact Traced.nil
  | cons tx txs ih =>
      refine Traced.seq (applyTransaction_traced rels tx) (ih (ti + 1)) ?_ ?_
      · intro st message failed
        rw [applyTransactions]
        cases step : applyTransaction pf settings faults rels tx st with
        | error e =>
            rw [step] at failed
            exact failed
        | ok r =>
            rw [step] at failed
            cases failed
      · intro st st' done
        rw [applyTransactions]
        cases step : applyTransaction pf settings faults rels tx st with
        | error e =>
            rw [step] at done
            cases done
        | ok r =>
            rw [step] at done
            obtain rfl := Except.ok.inj done
            dsimp only
            cases applyTransactions pf settings faults rels (ti + 1) txs r.1 with
            | error e => rfl
            | ok r' => rfl

def LiveView.driftBy (roundEnd : Nat) (v : LiveView) (p : Nat × Relation) : LiveView :=
  if v.stale.isNone && decide (v.frontier < roundEnd) then { v with stale := v.row.spec.drift p.1 p.2 } else v

theorem like_shadowDrift (rel : Relation) (q q' : String) {s s' : ShadowRow} (like : s.Like s') :
    (shadowDrift s rel q).Like (shadowDrift s' rel q') := by
  obtain ⟨reason, rfl⟩ := like
  unfold shadowDrift
  dsimp only
  by_cases none : ((s.columns.zip s.columnTypes).filter fun c => !rel.provides c.1 c.2).map Prod.fst = []
  · rw [if_pos none, if_pos none]
    exact ⟨reason, rfl⟩
  · rw [if_neg none, if_neg none]
    split
    · exact ⟨_, rfl⟩
    · exact ⟨_, rfl⟩

theorem driftRelation_like (roundEnd : Nat) {st st' : RoundState} (p : Nat × Relation)
    (same : List.Forall₂ ShadowRow.Like st.shadows st'.shadows) :
    List.Forall₂ ShadowRow.Like (driftRelation roundEnd st p).shadows (driftRelation roundEnd st' p).shadows := by
  obtain ⟨relid, rel⟩ := p
  refine like_updateShadow (fun s s' like => ?_) relid same
  obtain ⟨reason, rfl⟩ := like
  by_cases active : (!s.failed && decide (s.frontier < roundEnd)) = true
  · rw [if_pos active, if_pos active]
    exact like_shadowDrift rel _ _ ⟨reason, rfl⟩
  · rw [if_neg active, if_neg active]
    exact ⟨reason, rfl⟩

theorem foldl_driftRelation_like (roundEnd : Nat) (rels : List (Nat × Relation)) {st st' : RoundState}
    (same : List.Forall₂ ShadowRow.Like st.shadows st'.shadows) :
    List.Forall₂ ShadowRow.Like (rels.foldl (driftRelation roundEnd) st).shadows
      (rels.foldl (driftRelation roundEnd) st').shadows := by
  induction rels generalizing st st' with
  | nil => exact same
  | cons p rels ih => exact ih (driftRelation_like roundEnd p same)

theorem foldl_driftRelation_views (roundEnd : Nat) (rels : List (Nat × Relation)) (st : RoundState) :
    (rels.foldl (driftRelation roundEnd) st).views = st.views.map fun v => rels.foldl (LiveView.driftBy roundEnd) v := by
  induction rels generalizing st with
  | nil => exact (List.map_id' st.views).symm
  | cons p rels ih =>
      rw [List.foldl_cons, ih]
      exact List.map_map

theorem foldl_driftBy (roundEnd : Nat) (rels : List (Nat × Relation)) (v : LiveView) :
    rels.foldl (LiveView.driftBy roundEnd) v = { v with stale := (rels.foldl (LiveView.driftBy roundEnd) v).stale } := by
  induction rels generalizing v with
  | nil => rfl
  | cons p rels ih =>
      have first : v.driftBy roundEnd p = { v with stale := (v.driftBy roundEnd p).stale } := by
        unfold LiveView.driftBy
        split <;> rfl
      rw [List.foldl_cons, ih (v.driftBy roundEnd p)]
      generalize (rels.foldl (LiveView.driftBy roundEnd) (v.driftBy roundEnd p)).stale = stale
      rw [first]

variable (pf settings faults) in
/-- The round for each view: what it does to a live row, the rest of the catalog's views
not consulted. -/
theorem applyRound_separates (cache : Nat → Option Relation) (txs : List SourceTransaction)
    (shadows : List ShadowRow) :
    (∃ message, ∀ c : Catalog, List.Forall₂ ShadowRow.Like shadows c.shadows →
      applyRound pf settings faults cache c txs = .error message) ∨
    ∃ (drift : LiveView → LiveView) (events : List ViewEvent) (left : List ShadowRow),
      (∀ v, drift v = { v with stale := (drift v).stale }) ∧
      ∀ c : Catalog, List.Forall₂ ShadowRow.Like shadows c.shadows →
        ∃ left' cache' blockedAt, List.Forall₂ ShadowRow.Like left left' ∧
          applyRound pf settings faults cache c txs =
            (finishViews settings (c.liveViews.map (LiveView.replay pf settings faults events ∘ drift))).map fun written =>
              ⟨c.writeBack written left', cache', blockedAt,
                c.liveViews.map (LiveView.replay pf settings faults events ∘ drift)⟩ := by
  cases collected : collectRelations pf (changedRelids txs) cache [] with
  | error message =>
      left
      refine ⟨message, fun c _ => ?_⟩
      simp only [applyRound, collected]
  | ok described =>
      obtain ⟨cache', rels⟩ := described
      generalize roundEnd : (txs.getLast?.map SourceTransaction.endLsn).getD 0 = e
      have start : ∀ c : Catalog, List.Forall₂ ShadowRow.Like shadows c.shadows →
          List.Forall₂ ShadowRow.Like (rels.foldl (driftRelation e) ⟨[], shadows⟩).shadows
            (rels.foldl (driftRelation e) ⟨c.liveViews, c.shadows⟩).shadows :=
        fun c like => foldl_driftRelation_like e rels like
      rcases @applyTransactions_traced pf settings faults rels 0 txs (rels.foldl (driftRelation e) ⟨[], shadows⟩).shadows
        with ⟨message, failed⟩ | ⟨events, left, done⟩
      · left
        refine ⟨message, fun c like => ?_⟩
        have views := failed _ (start c like) (rels.foldl (driftRelation e) ⟨c.liveViews, c.shadows⟩).views
        simp only [applyRound, collected, roundEnd]
        cases ran : applyTransactions pf settings faults rels 0 txs
            (rels.foldl (driftRelation e) ⟨c.liveViews, c.shadows⟩) with
        | error message' =>
            simp only [ran, Except.map, Except.error.injEq] at views
            rw [views]
        | ok r => simp only [ran, Except.map, reduceCtorEq] at views
      · right
        refine ⟨fun v => rels.foldl (LiveView.driftBy e) v, events, left, foldl_driftBy e rels, fun c like => ?_⟩
        obtain ⟨left', related, done⟩ := done _ (start c like)
        have views := done (rels.foldl (driftRelation e) ⟨c.liveViews, c.shadows⟩).views
        simp only [applyRound, collected, roundEnd]
        cases ran : applyTransactions pf settings faults rels 0 txs
            (rels.foldl (driftRelation e) ⟨c.liveViews, c.shadows⟩) with
        | error message' => simp only [ran, Except.map, reduceCtorEq] at views
        | ok r =>
            obtain ⟨st, blockedAt⟩ := r
            simp only [ran, Except.map, Except.ok.injEq] at views
            rw [foldl_driftRelation_views, List.map_map] at views
            subst views
            exact ⟨left', cache', blockedAt, related, rfl⟩

end Nabla
