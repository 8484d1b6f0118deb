import Nabla.Absorption

/-! Phase 1 of a source transaction: every relation of every change is planned by the
views and absorbed by its shadow, so that both follow the tables through the
transaction. A shadow that cannot follow is lost, and its views with it. -/
namespace Nabla
open Bags

variable {pf : Platform} {S : Schema pf}

structure ShadowRow.Kept (e : Nat) (s s' : ShadowRow) : Prop where
  same : s' = { s with rows := s'.rows, failed := s'.failed, staleReason := s'.staleReason }
  idle : ¬ s.Active e → s' = s

theorem ShadowRow.Kept.refl (e : Nat) (s : ShadowRow) : s.Kept e s := ⟨rfl, fun _ => rfl⟩

theorem ShadowRow.Kept.relid {e : Nat} {s s' : ShadowRow} (kept : s.Kept e s') : s'.relid = s.relid := by
  rw [kept.same]

theorem ShadowRow.Kept.frontier {e : Nat} {s s' : ShadowRow} (kept : s.Kept e s') : s'.frontier = s.frontier := by
  rw [kept.same]

theorem ShadowRow.Kept.columns {e : Nat} {s s' : ShadowRow} (kept : s.Kept e s') : s'.columns = s.columns := by
  rw [kept.same]

theorem ShadowRow.Kept.types {e : Nat} {s s' : ShadowRow} (kept : s.Kept e s') : s'.columnTypes = s.columnTypes := by
  rw [kept.same]

theorem ShadowRow.Kept.active {e : Nat} {s s' : ShadowRow} (kept : s.Kept e s') (active : s'.Active e) :
    s.Active e := by
  by_contra idle
  rw [kept.idle idle] at active
  exact idle active

theorem ShadowRow.Kept.trans {e : Nat} {s s' s'' : ShadowRow} (first : s.Kept e s') (second : s'.Kept e s'') :
    s.Kept e s'' where
  same := by
    rw [second.same, first.same]
  idle := by
    intro idle
    rw [second.idle fun active => idle (first.active active), first.idle idle]

theorem ShadowRow.Kept.fits {e : Nat} {s s' : ShadowRow} (kept : s.Kept e s') (fits : s.Fits S) : s'.Fits S := by
  rw [kept.same]
  exact ⟨fits.pk, fits.active, fits.key, fits.provided⟩

def RoundState.Lost (st : RoundState) (relid : Nat) : Prop :=
  ∀ v ∈ st.views, v.row.spec.isJoin = true → (v.row.spec.relationIndex relid).isSome = true → v.dead = false →
    v.stale ≠ none

/-- What phase 1 leaves of the state of the round. -/
structure RoundState.Kept (e : Nat) (st st' : RoundState) : Prop where
  views : List.Forall₂ (LiveView.Kept e) st.views st'.views
  shadows : List.Forall₂ (ShadowRow.Kept e) st.shadows st'.shadows
  lost : ∀ s' ∈ st'.shadows, s'.failed = true →
    (∃ s ∈ st.shadows, s.relid = s'.relid ∧ s.failed = true) ∨ st'.Lost s'.relid

theorem RoundState.Kept.refl (e : Nat) (st : RoundState) : st.Kept e st where
  views := List.forall₂_same.mpr fun v _ => LiveView.Kept.refl e v
  shadows := List.forall₂_same.mpr fun s _ => ShadowRow.Kept.refl e s
  lost := fun s member failed => Or.inl ⟨s, member, rfl, failed⟩

theorem RoundState.Lost.kept {e relid : Nat} {st st' : RoundState} (lost : st.Lost relid)
    (views : List.Forall₂ (LiveView.Kept e) st.views st'.views) : st'.Lost relid := by
  intro v' member
  obtain ⟨v, before, kept⟩ := mem_of_forall₂_right views member
  intro join reads alive fresh
  rw [kept.row] at join reads
  rw [kept.dead] at alive
  exact lost v before join reads alive (kept.stale fresh)

theorem RoundState.Kept.trans {e : Nat} {st st' st'' : RoundState} (first : st.Kept e st')
    (second : st'.Kept e st'') : st.Kept e st'' where
  views := forall₂_trans (fun _ _ _ left right => left.trans right) first.views second.views
  shadows := forall₂_trans (fun _ _ _ left right => left.trans right) first.shadows second.shadows
  lost := by
    intro s'' member failed
    rcases second.lost s'' member failed with ⟨s', member', same, failed'⟩ | lost
    · rcases first.lost s' member' failed' with ⟨s, member, same', failed⟩ | lost
      · exact Or.inl ⟨s, member, same'.trans same, failed⟩
      · exact Or.inr (same ▸ lost.kept second.views)
    · exact Or.inr lost

/-- Within a source transaction: the shadows follow the tables, and so do the planned
rows of the views that are to absorb it. -/
structure Tracking.Inside (K : Tracking S) (e : Nat) (good : Nat → Prop) (footprint : Footprint) (db : Database)
    (st : RoundState) : Prop where
  shadows : K.Shadows e good db st.shadows
  views : ∀ v ∈ st.views, v.Owes e → K.View e good footprint db st.shadows v

theorem ShadowRow.Kept.keyed {e : Nat} {shadows shadows' : List ShadowRow}
    (kept : List.Forall₂ (ShadowRow.Kept e) shadows shadows') (keyed : Keyed ShadowRow.relid shadows) :
    Keyed ShadowRow.relid shadows' := by
  rw [Keyed, map_eq_of_forall₂ kept fun _ _ same => same.relid]
  exact keyed

/-- A view whose shadows stay active reads as before. -/
theorem LiveView.Fresh.kept {K : Tracking S} {e : Nat} {shadows shadows' : List ShadowRow} {v : LiveView}
    (fresh : v.Fresh K e shadows) (kept : List.Forall₂ (ShadowRow.Kept e) shadows shadows')
    (remain : ∀ b ∈ v.row.spec.relations, ∀ s' ∈ shadows', s'.relid = b.oid → ∀ s ∈ shadows, s.Kept e s' →
      s.Active e → s'.Active e) :
    v.Fresh K e shadows' := by
  intro b member
  obtain ⟨s, inShadows, here, active, used⟩ := fresh b member
  obtain ⟨s', inShadows', same⟩ := mem_of_forall₂ kept inShadows
  have here' : s'.relid = b.oid := same.relid.trans here
  refine ⟨s', inShadows', here', remain b member s' inShadows' here' s inShadows same active, ?_⟩
  rwa [same.frontier]

/-- Shadows that have gone on stay as they are. -/
theorem LiveView.Placed.kept {K : Tracking S} {e : Nat} {footprint : Footprint} {db : Database}
    {shadows shadows' : List ShadowRow} {v : LiveView} (placed : v.Placed K e footprint db shadows)
    (kept : List.Forall₂ (ShadowRow.Kept e) shadows shadows')
    (remain : ∀ b ∈ v.row.spec.relations, ∀ s' ∈ shadows', s'.relid = b.oid → ∀ s ∈ shadows, s.Kept e s' →
      s.Active e → s'.Active e) :
    v.Placed K e footprint db shadows' := by
  intro b member
  rcases placed b member with ⟨s, inShadows, here, shows⟩ | alone
  · obtain ⟨s', inShadows', same⟩ := mem_of_forall₂ kept inShadows
    have here' : s'.relid = b.oid := same.relid.trans here
    refine Or.inl ⟨s', inShadows', here', ?_⟩
    rcases shows with ⟨active, used⟩ | ⟨idle, untouched, rows⟩
    · exact Or.inl ⟨remain b member s' inShadows' here' s inShadows same active, by rwa [same.frontier]⟩
    · rw [same.idle idle]
      exact Or.inr ⟨idle, untouched, rows⟩
  · refine Or.inr ⟨fun s' inShadows' here' active => ?_, alone.2⟩
    obtain ⟨s, inShadows, same⟩ := mem_of_forall₂_right kept inShadows'
    exact alone.1 s inShadows (same.relid.symm.trans here') (same.active active)

theorem LiveView.Behind.kept {e : Nat} {footprint : Footprint} {shadows shadows' : List ShadowRow} {v : LiveView}
    (behind : v.Behind e footprint shadows) (kept : List.Forall₂ (ShadowRow.Kept e) shadows shadows') :
    v.Behind e footprint shadows' := by
  intro b member
  obtain ⟨noInsert, idle⟩ := behind b member
  refine ⟨noInsert, fun touched s' inShadows' here active => ?_⟩
  obtain ⟨s, inShadows, same⟩ := mem_of_forall₂_right kept inShadows'
  exact idle touched s inShadows (same.relid.symm.trans here) (same.active active)

theorem updateShadow_kept {shadows : List ShadowRow} (keyed : Keyed ShadowRow.relid shadows) {e : Nat}
    {s : ShadowRow} (member : s ∈ shadows) (active : s.Active e) {f : ShadowRow → ShadowRow}
    (frame : s.Kept e (f s)) : List.Forall₂ (ShadowRow.Kept e) shadows (updateShadow s.relid f shadows) := by
  apply forall₂_map_right
  intro t within
  by_cases here : t.relid = s.relid
  · obtain rfl := keyed.eq_of_mem within member here
    rwa [if_pos here]
  · rw [if_neg here]
    exact ShadowRow.Kept.refl e t

theorem mem_updateShadow {shadows : List ShadowRow} (keyed : Keyed ShadowRow.relid shadows) {s : ShadowRow}
    (member : s ∈ shadows) {f : ShadowRow → ShadowRow} {t : ShadowRow}
    (within : t ∈ updateShadow s.relid f shadows) : t = f s ∨ (t ∈ shadows ∧ t.relid ≠ s.relid) := by
  obtain ⟨u, inShadows, eq⟩ := List.mem_map.mp within
  by_cases here : u.relid = s.relid
  · obtain rfl := keyed.eq_of_mem inShadows member here
    rw [if_pos here] at eq
    exact Or.inl eq.symm
  · rw [if_neg here] at eq
    subst eq
    exact Or.inr ⟨inShadows, here⟩

theorem ShadowRow.kept_rows (e : Nat) {s : ShadowRow} (active : s.Active e) (rows : List BaseRow) :
    s.Kept e { s with rows := rows } := ⟨rfl, fun idle => absurd active idle⟩

theorem ShadowRow.kept_failure (e : Nat) {s : ShadowRow} (active : s.Active e) (message : String) :
    s.Kept e (recordShadowFailure s message) := ⟨rfl, fun idle => absurd active idle⟩

theorem shadowLost_kept (e relid : Nat) (rel : Relation) (message : String) (v : LiveView) :
    v.Kept e (shadowLost relid rel message v) := by
  unfold shadowLost
  split
  · rename_i losing
    simp only [Bool.and_eq_true, Option.isNone_iff_eq_none] at losing
    exact ⟨rfl, fun _ => losing.1.2, id, fun _ => ⟨rfl, rfl⟩⟩
  · exact LiveView.Kept.refl e v

theorem shadowLost_lost {relid : Nat} {rel : Relation} {message : String} {v : LiveView}
    (join : v.row.spec.isJoin = true) (reads : (v.row.spec.relationIndex relid).isSome = true)
    (alive : v.dead = false) : (shadowLost relid rel message v).stale ≠ none := by
  unfold shadowLost
  split
  · exact Option.some_ne_none _
  · rename_i kept
    simp only [join, reads, alive, Bool.true_and, Bool.not_false, Bool.and_true, Option.isNone_iff_eq_none] at kept
    exact kept

theorem shadowLost_ops (relid : Nat) (rel : Relation) (message : String) (v : LiveView) :
    (shadowLost relid rel message v).ops = v.ops := by
  unfold shadowLost
  split <;> rfl

theorem shadowLost_other {relid : Nat} {rel : Relation} {message : String} {v : LiveView}
    (unused : v.row.spec.relationIndex relid = none) : shadowLost relid rel message v = v := by
  simp only [shadowLost, unused, Option.isSome_none, Bool.and_false, Bool.false_and, Bool.false_eq_true, if_false]

theorem Mirrors.congr {cols : List String} {s s' : ShadowRow} {rows base : List BaseRow}
    (mirrors : Mirrors S cols s rows base) (relid : s'.relid = s.relid) (columns : s'.columns = s.columns) :
    Mirrors S cols s' rows base := by
  constructor
  · rw [relid]
    exact mirrors.key
  · rw [columns]
    exact mirrors.active
  · rw [relid, columns]
    exact mirrors.typed
  · exact mirrors.rows

section Relid

variable {K : Tracking S} {faults : Faults} {rels : List (Nat × Relation)} {e position relid : Nat}
  {good : Nat → Prop} {footprint : Footprint} {db : Database} {st : RoundState} {change : Change}

def oldRowRead (pf : Platform) (faults : Faults) (e position relid : Nat) (rel : Relation) (change : Change)
    (shadows : List ShadowRow) : Except String (Option Tuple) :=
  match activeShadow shadows relid e with
  | none => .ok none
  | some s => readOldRow pf faults e position s rel change

def plannedViews (pf : Platform) (faults : Faults) (e position relid : Nat) (rel : Relation) (change : Change)
    (st : RoundState) : List LiveView :=
  st.views.map (planView pf faults e position relid (shadowTable st.shadows) rel change
    (oldRowRead pf faults e position relid rel change st.shadows))

/-- The three outcomes of one relation of a change: no shadow has yet to absorb it,
the shadow absorbs it, or the shadow is lost. -/
inductive RelidStep (pf : Platform) (faults : Faults) (e position relid : Nat) (rel : Relation) (change : Change)
    (st : RoundState) : RoundState → Prop where
  | unread (missing : activeShadow st.shadows relid e = none) :
      RelidStep pf faults e position relid rel change st
        ⟨plannedViews pf faults e position relid rel change st, st.shadows⟩
  | absorbed {s : ShadowRow} {newFull : Option Tuple} {rows : List BaseRow}
      (found : activeShadow st.shadows relid e = some s)
      (completed : completeNewRow rel ((readOldRow pf faults e position s rel change).toOption.getD none) change =
        .ok newFull)
      (maintained : maintainShadow pf faults e position s rel change
        (readOldRow pf faults e position s rel change) newFull = .ok rows) :
      RelidStep pf faults e position relid rel change st
        ⟨plannedViews pf faults e position relid rel change st,
          updateShadow relid (fun s => { s with rows := rows }) st.shadows⟩
  | lost {s : ShadowRow} {newFull : Option Tuple} {message : String}
      (found : activeShadow st.shadows relid e = some s)
      (completed : completeNewRow rel ((readOldRow pf faults e position s rel change).toOption.getD none) change =
        .ok newFull)
      (failed : maintainShadow pf faults e position s rel change
        (readOldRow pf faults e position s rel change) newFull = .error message) :
      RelidStep pf faults e position relid rel change st
        ⟨(plannedViews pf faults e position relid rel change st).map (shadowLost relid rel message),
          updateShadow relid (recordShadowFailure · message) st.shadows⟩

/-- What a relation of a change did to the state. -/
theorem applyRelid_ok {st' : RoundState} (applied : applyRelid pf faults rels e position change relid st = .ok st') :
    ∃ rel, rels.lookup relid = some rel ∧ RelidStep pf faults e position relid rel change st st' := by
  unfold applyRelid at applied
  cases described : rels.lookup relid with
  | none => simp only [described, reduceCtorEq] at applied
  | some rel =>
      refine ⟨rel, rfl, ?_⟩
      simp only [described] at applied
      cases found : activeShadow st.shadows relid e with
      | none =>
          simp only [found, Except.ok.injEq] at applied
          have read : oldRowRead pf faults e position relid rel change st.shadows = .ok none := by
            rw [oldRowRead, found]
          rw [← applied, ← read]
          exact .unread found
      | some s =>
          simp only [found] at applied
          have read : oldRowRead pf faults e position relid rel change st.shadows =
              readOldRow pf faults e position s rel change := by
            rw [oldRowRead, found]
          cases completed : completeNewRow rel ((readOldRow pf faults e position s rel change).toOption.getD none)
              change with
          | error message => simp only [completed, reduceCtorEq] at applied
          | ok newFull =>
              simp only [completed] at applied
              cases maintained : maintainShadow pf faults e position s rel change
                  (readOldRow pf faults e position s rel change) newFull with
              | ok rows =>
                  simp only [maintained, Except.ok.injEq] at applied
                  rw [← applied, ← read]
                  exact .absorbed found completed maintained
              | error message =>
                  simp only [maintained, Except.ok.injEq] at applied
                  rw [← applied, ← read]
                  exact .lost found completed maintained

/-- A relation between states that every step of phase 1 keeps holds over all of it. -/
theorem applyChanges_rule {P : RoundState → RoundState → Prop} (refl : ∀ st, P st st)
    (trans : ∀ {st st' st''}, P st st' → P st' st'' → P st st'')
    (step : ∀ {position relid change st st'}, applyRelid pf faults rels e position change relid st = .ok st' → P st st')
    {changes : List Change} {st' : RoundState} (applied : applyChanges pf faults rels e position changes st = .ok st') :
    P st st' := by
  have relids : ∀ {position change relids st st'},
      applyRelids pf faults rels e position change relids st = .ok st' → P st st' := by
    intro position change relids
    induction relids with
    | nil =>
        intro st st' applied
        obtain rfl := Except.ok.inj applied
        exact refl st
    | cons relid relids ih =>
        intro st st' applied
        rw [applyRelids] at applied
        cases first : applyRelid pf faults rels e position change relid st with
        | error message => simp only [first, reduceCtorEq] at applied
        | ok between =>
            simp only [first] at applied
            exact trans (step first) (ih applied)
  induction changes generalizing st position with
  | nil =>
      obtain rfl := Except.ok.inj applied
      exact refl st
  | cons change changes ih =>
      rw [applyChanges] at applied
      cases first : applyRelids pf faults rels e position change change.relids st with
      | error message => simp only [first, reduceCtorEq] at applied
      | ok between =>
          simp only [first] at applied
          exact trans (relids first) (ih applied)

theorem applyRelid_step {rel : Relation} (described : rels.lookup relid = some rel)
    (total : ∀ oldFull, ∃ newFull, completeNewRow rel oldFull change = .ok newFull) :
    ∃ st', applyRelid pf faults rels e position change relid st = .ok st' ∧
      RelidStep pf faults e position relid rel change st st' := by
  cases found : activeShadow st.shadows relid e with
  | none =>
      refine ⟨_, ?_, .unread found⟩
      simp only [applyRelid, described, found, plannedViews, oldRowRead]
  | some s =>
      obtain ⟨newFull, completed⟩ := total ((readOldRow pf faults e position s rel change).toOption.getD none)
      cases maintained : maintainShadow pf faults e position s rel change
          (readOldRow pf faults e position s rel change) newFull with
      | ok rows =>
          refine ⟨_, ?_, .absorbed found completed maintained⟩
          simp only [applyRelid, described, found, completed, maintained, plannedViews, oldRowRead]
      | error message =>
          refine ⟨_, ?_, .lost found completed maintained⟩
          simp only [applyRelid, described, found, completed, maintained, plannedViews, oldRowRead]

theorem plannedViews_kept (pf : Platform) (faults : Faults) (e position relid : Nat) (rel : Relation) (change : Change)
    (st : RoundState) :
    List.Forall₂ (LiveView.Kept e) st.views (plannedViews pf faults e position relid rel change st) :=
  forall₂_map_right _ fun v _ => planView_kept pf faults e position relid _ rel change _ v

theorem RelidStep.kept {rel : Relation} {st' : RoundState}
    (step : RelidStep pf faults e position relid rel change st st') (keyed : Keyed ShadowRow.relid st.shadows) :
    st.Kept e st' := by
  cases step with
  | unread missing =>
      exact ⟨plannedViews_kept pf faults e position relid rel change st,
        List.forall₂_same.mpr fun s _ => ShadowRow.Kept.refl e s,
        fun s member failed => Or.inl ⟨s, member, rfl, failed⟩⟩
  | @absorbed s newFull rows found completed maintained =>
      obtain ⟨member, here, active⟩ := activeShadow_some found
      subst here
      refine ⟨plannedViews_kept pf faults e position s.relid rel change st,
        updateShadow_kept keyed member active (ShadowRow.kept_rows e active rows), ?_⟩
      intro t within failed
      rcases mem_updateShadow keyed member within with rfl | ⟨before, _⟩
      · exact Or.inl ⟨s, member, rfl, failed⟩
      · exact Or.inl ⟨t, before, rfl, failed⟩
  | @lost s newFull message found completed failed =>
      obtain ⟨member, here, active⟩ := activeShadow_some found
      subst here
      refine ⟨?_, updateShadow_kept keyed member active (ShadowRow.kept_failure e active message), ?_⟩
      · exact forall₂_trans (fun _ _ _ first second => first.trans second)
          (plannedViews_kept pf faults e position s.relid rel change st)
          (forall₂_map_right _ fun v _ => shadowLost_kept e s.relid rel message v)
      · intro t within failed
        rcases mem_updateShadow keyed member within with rfl | ⟨before, _⟩
        · right
          rintro v inViews join reads alive
          obtain ⟨v', _, rfl⟩ := List.mem_map.mp inViews
          have kept := shadowLost_kept e s.relid rel message v'
          exact shadowLost_lost (kept.row ▸ join) (kept.row ▸ reads) (kept.dead ▸ alive)
        · exact Or.inl ⟨t, before, rfl, failed⟩

/-- A relation of a change brings the state to the tables after it, provided that the
views planned it and the shadow absorbs it. -/
theorem Tracking.Inside.step {rel : Relation} {st' : RoundState} (inside : K.Inside e good footprint db st)
    (step : RelidStep pf faults e position relid rel change st st') {good' : Nat → Prop} {db' : Database}
    (shrinks : ∀ r, good' r → good r)
    (elsewhere : ∀ r, r ≠ relid → db' r = db r)
    (plans : ∀ v ∈ plannedViews pf faults e position relid rel change st, v.Owes e →
      K.View e good footprint db' st.shadows v ∧ ∀ b ∈ v.row.spec.relations, good b.oid → good' b.oid)
    (absorbs : ∀ s newFull rows, activeShadow st.shadows relid e = some s → good' relid →
      completeNewRow rel ((readOldRow pf faults e position s rel change).toOption.getD none) change = .ok newFull →
      maintainShadow pf faults e position s rel change (readOldRow pf faults e position s rel change) newFull =
        .ok rows → K.Follows { s with rows := rows } (db' relid)) :
    K.Inside e good' footprint db' st' := by
  have keyed := inside.shadows.keyed
  have kept := step.kept keyed
  have follows : ∀ t ∈ st.shadows, t.relid ≠ relid → t.Active e → good' t.relid → K.Follows t (db' t.relid) := by
    intro t member other active isGood
    rw [elsewhere _ other]
    exact inside.shadows.follows t member active (shrinks _ isGood)
  have fits : ∀ t ∈ st'.shadows, t.Fits S := by
    intro t member
    obtain ⟨s, before, same⟩ := mem_of_forall₂_right kept.shadows member
    exact same.fits (inside.shadows.fits s before)
  have keyed' : Keyed ShadowRow.relid st'.shadows := ShadowRow.Kept.keyed kept.shadows keyed
  cases step with
  | unread missing =>
      refine ⟨⟨keyed', fits, ?_⟩, ?_⟩
      · intro t member active isGood
        by_cases here : t.relid = relid
        · exact absurd active (activeShadow_none keyed missing member here)
        · exact follows t member here active isGood
      · intro v member owes
        obtain ⟨view, remain⟩ := plans v member owes
        exact ⟨view.fits, fun b within => remain b within (view.intact b within), view.reads, view.pending⟩
  | @absorbed s newFull rows found completed maintained =>
      obtain ⟨member, here, active⟩ := activeShadow_some found
      subst here
      refine ⟨⟨keyed', fits, ?_⟩, ?_⟩
      · intro t within active isGood
        rcases mem_updateShadow keyed member within with rfl | ⟨before, other⟩
        · exact absorbs s newFull rows found isGood completed maintained
        · exact follows t before other active isGood
      · intro v inViews owes
        obtain ⟨view, remain⟩ := plans v inViews owes
        refine ⟨view.fits, fun b within => remain b within (view.intact b within),
          view.reads.imp (fun placed => placed.kept kept.shadows ?_) fun behind => behind.kept kept.shadows,
          view.pending⟩
        intro b _ t' inShadows' _ t inShadows same wasActive
        rcases mem_updateShadow keyed member inShadows' with rfl | ⟨before, _⟩
        · exact active
        · obtain rfl := keyed.eq_of_mem before inShadows same.relid
          exact wasActive
  | @lost s newFull message found completed failed =>
      obtain ⟨member, here, active⟩ := activeShadow_some found
      subst here
      refine ⟨⟨keyed', fits, ?_⟩, ?_⟩
      · intro t within active isGood
        rcases mem_updateShadow keyed member within with rfl | ⟨before, other⟩
        · exact absurd active.1 (by simp only [recordShadowFailure, Bool.true_eq_false, not_false_eq_true])
        · exact follows t before other active isGood
      · intro v inViews owes
        obtain ⟨v', inPlanned, rfl⟩ := List.mem_map.mp inViews
        have lostKept := shadowLost_kept e s.relid rel message v'
        obtain ⟨view, remain⟩ := plans v' inPlanned (lostKept.owes owes)
        have unused : v'.row.spec.relationIndex s.relid = none := by
          by_contra used
          have reads := Option.isSome_iff_ne_none.mpr used
          exact shadowLost_lost (lostKept.row ▸ owes.join) reads (lostKept.dead ▸ owes.alive) owes.fresh
        rw [shadowLost_other unused]
        refine ⟨view.fits, fun b within => remain b within (view.intact b within),
          view.reads.imp (fun placed => placed.kept kept.shadows ?_) fun behind => behind.kept kept.shadows,
          view.pending⟩
        intro b within t' inShadows' oid t inShadows same wasActive
        rcases mem_updateShadow keyed member inShadows' with rfl | ⟨before, _⟩
        · exact absurd oid.symm (ViewSpec.relationIndex_none unused within)
        · obtain rfl := keyed.eq_of_mem before inShadows same.relid
          exact wasActive

/-- Shadows that follow the table either absorb the change or are lost. -/
theorem Tracking.Shadows.absorbs {shadows : List ShadowRow} (tracked : K.Shadows e good db shadows)
    (ok : S.DatabaseOk db) {rc : RowChange} (valid : S.Valid db rc) (here : relid ∈ rc.relids)
    (kind : ∀ relids, rc ≠ .truncate relids) (encodes : Encodes S rc change) {s : ShadowRow}
    (found : activeShadow shadows relid e = some s) (isGood : good relid) (permits : K.Permits relid s.frontier rc change)
    {newFull : Option Tuple} {rows : List BaseRow}
    (completed : completeNewRow (S.relation relid)
      ((readOldRow pf faults e position s (S.relation relid) change).toOption.getD none) change = .ok newFull)
    (maintained : maintainShadow pf faults e position s (S.relation relid) change
      (readOldRow pf faults e position s (S.relation relid) change) newFull = .ok rows) :
    K.Follows { s with rows := rows } (S.step db rc relid) := by
  obtain ⟨member, same, active⟩ := activeShadow_some found
  subst same
  obtain ⟨mirrors, extra⟩ := tracked.follows s member active isGood
  have fits := tracked.fits s member
  have absorbs := fits.maintained ok mirrors valid here (encodes.tells ok valid) faults e position completed
  rw [maintained] at absorbs
  exact ⟨(absorbs.mirrors fits valid kind mirrors).congr rfl rfl,
    K.absorbs (s := s) fits ok mirrors valid kind encodes permits absorbs extra⟩

theorem Tracking.Shadows.read {shadows : List ShadowRow} (tracked : K.Shadows e good db shadows)
    (ok : S.DatabaseOk db) {rc : RowChange} (valid : S.Valid db rc) (here : relid ∈ rc.relids)
    (encodes : Encodes S rc change) :
    K.Read e good shadows relid rc (oldRowRead pf faults e position relid (S.relation relid) change shadows) where
  active := by
    intro s found isGood
    obtain ⟨member, same, active⟩ := activeShadow_some found
    subst same
    obtain ⟨mirrors, _⟩ := tracked.follows s member active isGood
    simp only [oldRowRead, found]
    exact ((tracked.fits s member).readOldRow ok mirrors valid here (encodes.tells ok valid) faults e position).imp
      (fun ⟨message, _, unread⟩ => ⟨message, unread⟩) id
  inactive := by
    intro missing
    simp only [oldRowRead, missing]

/-- What a change adds to the rows planned for a view: its join delta over the tables `db`. -/
def LiveView.Adds (e : Nat) (db : Database) (rc : RowChange) (v v' : LiveView) : Prop :=
  v'.Owes e → ∃ ops, v'.ops = v.ops ++ ops ∧ JoinDelta v.row.spec db rc ops

def LiveView.Skips (e relid : Nat) (v v' : LiveView) : Prop :=
  v'.Owes e → v'.ops = v.ops ∧ v.row.spec.relationIndex relid = none

/-- What planning a relation of a change does to each view is left of it by the whole step. -/
theorem RelidStep.views {rel : Relation} {st' : RoundState} (step : RelidStep pf faults e position relid rel change st st')
    {P : LiveView → List Op → Prop}
    (plans : ∀ v ∈ st.views, (planView pf faults e position relid (shadowTable st.shadows) rel change
      (oldRowRead pf faults e position relid rel change st.shadows) v).Owes e →
      P v (planView pf faults e position relid (shadowTable st.shadows) rel change
        (oldRowRead pf faults e position relid rel change st.shadows) v).ops) :
    List.Forall₂ (fun v v' => v'.Owes e → P v v'.ops) st.views st'.views := by
  cases step with
  | unread | absorbed => exact forall₂_map_right _ plans
  | lost =>
      rw [plannedViews, List.map_map]
      refine forall₂_map_right _ fun v member owes => ?_
      rw [Function.comp_apply, shadowLost_ops]
      exact plans v member ((shadowLost_kept e _ _ _ _).owes owes)

theorem Tracking.Inside.rowChange (inside : K.Inside e good footprint db st) (faults : Faults) (position : Nat)
    (ok : S.DatabaseOk db) {rc : RowChange} (valid : S.Valid db rc) (relids : rc.relids = [relid]) (kind : ∀ relids, rc ≠ .truncate relids)
    (inserted : ∀ new, rc = .insert relid new → footprint.inserts relid) (touched : footprint.touches relid)
    (encodes : Encodes S rc change) (permits : ∀ s ∈ st.shadows, s.relid = relid → s.Active e → K.Permits relid s.frontier rc change)
    (carried : ∀ v ∈ st.views, v.Owes e → v.row.spec.Carried db ∧ v.row.spec.Carried (S.step db rc))
    (described : rels.lookup relid = some (S.relation relid)) :
    ∃ st', applyRelid pf faults rels e position change relid st = .ok st' ∧
      RelidStep pf faults e position relid (S.relation relid) change st st' ∧
      List.Forall₂ (LiveView.Adds e db rc) st.views st'.views ∧
      K.Inside e good footprint (S.step db rc) st' := by
  have here : relid ∈ rc.relids := relids ▸ List.mem_singleton_self relid
  have total : ∀ oldFull, ∃ newFull, completeNewRow (S.relation relid) oldFull change = .ok newFull := by
    intro oldFull
    exact completeNewRow_total (encodes.tells ok valid) relids oldFull
  obtain ⟨st', applied, step⟩ := applyRelid_step described total
  refine ⟨st', applied, step, step.views (P := fun v planned => ∃ ops, planned = v.ops ++ ops ∧ JoinDelta v.row.spec db rc ops)
    fun v member owes => ?_, inside.step step (fun _ isGood => isGood)
    (fun r other => S.step_other db relids kind other) ?_ ?_⟩
  · have before := (planView_kept pf faults e position relid _ _ change _ v).owes owes
    obtain ⟨ops, eq, delta⟩ := (inside.views v member before).planned inside.shadows valid relids kind inserted touched
      encodes (inside.shadows.read ok valid here encodes) before owes
    exact ⟨ops, congrArg LiveView.ops eq, delta⟩
  · intro v' inPlanned owes
    obtain ⟨v, member, rfl⟩ := List.mem_map.mp inPlanned
    have before := (planView_kept pf faults e position relid _ _ change _ v).owes owes
    obtain ⟨carriedBefore, carriedAfter⟩ := carried v member before
    exact ⟨(inside.views v member before).next inside.shadows ok valid relids kind inserted touched encodes
      carriedBefore carriedAfter (inside.shadows.read ok valid here encodes) before owes, fun b _ isGood => isGood⟩
  · intro s newFull rows found isGood completed maintained
    obtain ⟨member, same, active⟩ := activeShadow_some found
    exact inside.shadows.absorbs ok valid here kind encodes found isGood (permits s member same active) completed
      maintained

/-- One relation of a TRUNCATE: the views that read it go stale, and its shadow, which
keeps its rows, no longer follows the table. -/
theorem Tracking.Inside.truncateRelid (inside : K.Inside e good footprint db st) (faults : Faults) (position : Nat)
    (relids : List Nat)
    (described : rels.lookup relid = some (S.relation relid)) :
    ∃ st', applyRelid pf faults rels e position (.truncate relids) relid st = .ok st' ∧ st.Kept e st' ∧
      List.Forall₂ (LiveView.Skips e relid) st.views st'.views ∧
      K.Inside e (fun r => good r ∧ r ≠ relid) footprint (db.set relid []) st' := by
  obtain ⟨st', applied, step⟩ := @applyRelid_step pf faults rels e position relid st (.truncate relids) _ described
    fun _ => ⟨none, rfl⟩
  refine ⟨st', applied, step.kept inside.shadows.keyed,
    step.views (P := fun v planned => planned = v.ops ∧ v.row.spec.relationIndex relid = none) fun v _ owes => ?_,
    inside.step step (fun _ isGood => isGood.1) (fun r other => Database.set_other db _ other) ?_ ?_⟩
  · have before := (planView_kept pf faults e position relid _ _ _ _ v).owes owes
    have unused := planView_truncate before owes
    rw [planView_other before unused]
    exact ⟨rfl, unused⟩
  · intro v' inPlanned owes
    obtain ⟨v, member, rfl⟩ := List.mem_map.mp inPlanned
    have before := (planView_kept pf faults e position relid _ _ _ _ v).owes owes
    have unused := planView_truncate before owes
    have view := inside.views v member before
    rw [planView_other before unused]
    refine ⟨⟨view.fits, view.intact, view.reads.imp_left fun placed => placed.congr fun b within _ => ?_,
      view.pending.other unused fun r other => Database.set_other db _ other⟩,
      fun b within isGood => ⟨isGood, ViewSpec.relationIndex_none unused within⟩⟩
    exact Database.set_other db _ (ViewSpec.relationIndex_none unused within)
  · intro s newFull rows found isGood _ _
    exact absurd rfl isGood.2

end Relid

/-- The tables that are still followed after the changes: a shadow ignores a TRUNCATE. -/
def goodAfter (good : Nat → Prop) (changes : List RowChange) : Nat → Prop :=
  fun r => good r ∧ ∀ relids, .truncate relids ∈ changes → r ∉ relids

structure Footprint.Covers (footprint : Footprint) (rc : RowChange) : Prop where
  touches : ∀ r ∈ rc.relids, footprint.touches r
  inserts : ∀ relid new, rc = .insert relid new → footprint.inserts relid

/-- The footprint of a source transaction. -/
def BaseTransaction.footprint (t : BaseTransaction) : Footprint where
  touches := fun r => ∃ rc ∈ t.changes, r ∈ rc.relids
  inserts := fun r => ∃ new, .insert r new ∈ t.changes

theorem BaseTransaction.footprint_covers (t : BaseTransaction) : ∀ rc ∈ t.changes, t.footprint.Covers rc := by
  intro rc member
  refine ⟨fun r within => ⟨rc, member, within⟩, ?_⟩
  rintro relid new rfl
  exact ⟨new, member⟩

/-- The query holds what `jsonb` carries before and after every change of a list. -/
def ViewSpec.CarriedRun (S : Schema pf) (spec : ViewSpec) : Database → List RowChange → Prop
  | db, [] => spec.Carried db
  | db, rc :: changes => spec.Carried db ∧ spec.CarriedRun S (S.step db rc) changes

theorem ViewSpec.CarriedRun.head {spec : ViewSpec} {db : Database} {changes : List RowChange}
    (run : spec.CarriedRun S db changes) : spec.Carried db := by
  cases changes with
  | nil => exact run
  | cons rc changes => exact run.1

theorem ViewSpec.CarriedRun.last {spec : ViewSpec} {db : Database} {changes : List RowChange}
    (run : spec.CarriedRun S db changes) : spec.Carried (S.run db changes) := by
  induction changes generalizing db with
  | nil => exact run
  | cons rc changes ih => exact ih run.2

section Smooth

variable {K : Tracking S} {rels : List (Nat × Relation)} {e : Nat} {footprint : Footprint} {db : Database}
  {st : RoundState}

/-- Every shadow is maintained, and every join view that has yet to absorb the
transaction absorbs it with its shadows. -/
structure Tracking.Ready (K : Tracking S) (e : Nat) (st : RoundState) : Prop where
  views : ∀ v ∈ st.views, v.row.spec.isJoin = true → v.dead = false → v.stale = none ∧
    (v.frontier < e → v.Owes e ∧ v.Fresh K e st.shadows)
  shadows : ∀ s ∈ st.shadows, s.failed = false

/-- The environment raises no error, and no table is truncated. -/
def Smooth (faults : Faults) (changes : List RowChange) : Prop :=
  faults = Faults.none ∧ ∀ rc ∈ changes, ∀ relids, rc ≠ .truncate relids

theorem Tracking.Ready.rowChange (ready : K.Ready e st) (inside : K.Inside e (fun _ => True) footprint db st)
    (position : Nat) (ok : S.DatabaseOk db) {rc : RowChange} (valid : S.Valid db rc) {relid : Nat}
    (relids : rc.relids = [relid]) (kind : ∀ relids, rc ≠ .truncate relids) (touched : footprint.touches relid)
    {change : Change} (encodes : Encodes S rc change) {st' : RoundState}
    (step : RelidStep pf Faults.none e position relid (S.relation relid) change st st') : K.Ready e st' := by
  have keyed := inside.shadows.keyed
  have here : relid ∈ rc.relids := relids ▸ List.mem_singleton_self relid
  have kept := step.kept keyed
  have read : ∀ s, activeShadow st.shadows relid e = some s → ∃ old,
      readOldRow pf Faults.none e position s (S.relation relid) change = .ok old ∧
      OldRead S s (K.cols relid s.frontier) rc old := by
    intro s found
    obtain ⟨member, same, active⟩ := activeShadow_some found
    subst same
    have follows := inside.shadows.follows s member active trivial
    rcases (inside.shadows.fits s member).readOldRow ok follows.mirrors valid here (encodes.tells ok valid) Faults.none e position with
      ⟨_, fault, _⟩ | oldRead
    · exact absurd fault (Option.some_ne_none _).symm
    · exact oldRead
  have planned : ∀ v ∈ plannedViews pf Faults.none e position relid (S.relation relid) change st,
      v.row.spec.isJoin = true → v.dead = false → v.stale = none ∧
        (v.frontier < e → v.Owes e ∧ v.Fresh K e st.shadows) := by
    intro v' member
    obtain ⟨v, before, rfl⟩ := List.mem_map.mp member
    have same := planView_kept pf Faults.none e position relid (shadowTable st.shadows) (S.relation relid) change
      (oldRowRead pf Faults.none e position relid (S.relation relid) change st.shadows) v
    rw [same.row, same.dead, same.frontier]
    intro join alive
    obtain ⟨notStale, owed⟩ := ready.views v before join alive
    by_cases behind : v.frontier < e
    case neg =>
      rw [planView_ahead (Nat.not_lt.mp behind)]
      exact ⟨notStale, fun behind' => absurd behind' behind⟩
    obtain ⟨owes, fresh⟩ := owed behind
    cases index : v.row.spec.relationIndex relid with
    | none =>
        rw [planView_other owes index]
        exact ⟨notStale, fun _ => ⟨owes, fresh⟩⟩
    | some i =>
        obtain ⟨s, found⟩ := fresh.found keyed index
        obtain ⟨old, isRead, oldRead⟩ := read s found
        obtain ⟨ops, added, _⟩ := (inside.views v before owes).planRead inside.shadows fresh.placed valid kind encodes
          index touched found oldRead
        have eq : planView pf Faults.none e position relid (shadowTable st.shadows) (S.relation relid) change
            (oldRowRead pf Faults.none e position relid (S.relation relid) change st.shadows) v =
            { v with ops := v.ops ++ ops } := by
          simp only [oldRowRead, found]
          rw [isRead, planView_read owes index]
          simp only [Faults.none, inSubtransaction, added]
        rw [eq]
        exact ⟨notStale, fun _ => ⟨⟨owes.join, owes.alive, owes.fresh, owes.sound, owes.behind⟩, fresh⟩⟩
  cases step with
  | unread missing => exact ⟨planned, ready.shadows⟩
  | @absorbed s newFull rows found completed maintained =>
      obtain ⟨member, same, active⟩ := activeShadow_some found
      subst same
      constructor
      · intro v inViews join alive
        obtain ⟨notStale, owed⟩ := planned v inViews join alive
        refine ⟨notStale, fun behind => ⟨(owed behind).1, (owed behind).2.kept kept.shadows ?_⟩⟩
        intro b _ t' inShadows' _ t inShadows same wasActive
        rcases mem_updateShadow keyed member inShadows' with rfl | ⟨before, _⟩
        · exact active
        · obtain rfl := keyed.eq_of_mem before inShadows same.relid
          exact wasActive
      · intro t within
        rcases mem_updateShadow keyed member within with rfl | ⟨before, _⟩
        · exact ready.shadows s member
        · exact ready.shadows t before
  | @lost s newFull message found completed failed =>
      obtain ⟨member, same, active⟩ := activeShadow_some found
      subst same
      have follows := inside.shadows.follows s member active trivial
      have spared := (inside.shadows.fits s member).maintained ok follows.mirrors valid here (encodes.tells ok valid) Faults.none e
        position completed
      rw [failed] at spared
      exact absurd rfl spared

end Smooth

section Phase1

variable {K : Tracking S} {rels : List (Nat × Relation)} {e : Nat} {good : Nat → Prop}
  {footprint : Footprint} {db : Database} {st : RoundState}

theorem Tracking.Inside.truncateRelids (inside : K.Inside e good footprint db st) (faults : Faults) (position : Nat)
    (relids : List Nat) {todo : List Nat}
    (described : ∀ r ∈ todo, rels.lookup r = some (S.relation r)) :
    ∃ st', applyRelids pf faults rels e position (.truncate relids) todo st = .ok st' ∧ st.Kept e st' ∧
      List.Forall₂ (fun v v' => v'.Owes e → v'.ops = v.ops ∧ ∀ r ∈ todo, v.row.spec.relationIndex r = none) st.views st'.views ∧
      K.Inside e (fun r => good r ∧ r ∉ todo) footprint (fun r => if r ∈ todo then [] else db r) st' := by
  induction todo generalizing good db st with
  | nil =>
      refine ⟨st, rfl, RoundState.Kept.refl e st, List.forall₂_same.mpr fun _ _ _ => ⟨rfl, fun _ none => absurd none List.not_mem_nil⟩, ?_⟩
      simpa only [List.not_mem_nil, not_false_eq_true, and_true, if_false] using inside
  | cons relid todo ih =>
      obtain ⟨st', applied, kept, skips, inside'⟩ := inside.truncateRelid faults position relids
        (described relid List.mem_cons_self)
      obtain ⟨st'', applied', kept', skips', inside''⟩ := ih inside' fun r member => described r (List.mem_cons_of_mem _ member)
      refine ⟨st'', ?_, kept.trans kept', forall₂_trans (fun v v' v'' first second owes => ?_)
        (forall₂_both skips kept.views) (forall₂_both skips' kept'.views), ?_⟩
      · simp only [applyRelids, applied, applied']
      · obtain ⟨ops', unused'⟩ := second.1 owes
        obtain ⟨ops, unused⟩ := first.1 (second.2.owes owes)
        rw [first.2.row] at unused'
        exact ⟨ops'.trans ops, List.forall_mem_cons.mpr ⟨unused, unused'⟩⟩
      · have db_eq : (fun r => if r ∈ todo then [] else db.set relid [] r) =
            fun r => if r ∈ relid :: todo then [] else db r := by
          funext r
          by_cases later : r ∈ todo
          · rw [if_pos later, if_pos (List.mem_cons_of_mem _ later)]
          · by_cases here : r = relid
            · subst here
              rw [if_neg later, if_pos List.mem_cons_self, Database.set_same]
            · rw [if_neg later, Database.set_other db _ here,
                if_neg fun member => (List.mem_cons.mp member).elim here later]
        have good_eq : (fun r => (good r ∧ r ≠ relid) ∧ r ∉ todo) = fun r => good r ∧ r ∉ relid :: todo := by
          funext r
          rw [List.mem_cons, not_or, and_assoc]
        rwa [db_eq, good_eq] at inside''

/-- One change of the stream, whichever it is. -/
theorem Tracking.Inside.applyRelids (inside : K.Inside e good footprint db st) (faults : Faults) (position : Nat)
    (ok : S.DatabaseOk db) {rc : RowChange} (valid : S.Valid db rc) (covers : footprint.Covers rc) {change : Change}
    (encodes : Encodes S rc change)
    (permits : ∀ s ∈ st.shadows, s.relid ∈ rc.relids → s.Active e → K.Permits s.relid s.frontier rc change)
    (carried : ∀ v ∈ st.views, v.Owes e → v.row.spec.Carried db ∧ v.row.spec.Carried (S.step db rc))
    (described : ∀ r ∈ change.relids, rels.lookup r = some (S.relation r)) :
    ∃ st', applyRelids pf faults rels e position change change.relids st = .ok st' ∧ st.Kept e st' ∧
      List.Forall₂ (LiveView.Adds e db rc) st.views st'.views ∧
      K.Inside e (goodAfter good [rc]) footprint (S.step db rc) st' ∧
      (Smooth faults [rc] → (∀ r, good r) → K.Ready e st → K.Ready e st') := by
  by_cases kind : ∃ relids, rc = .truncate relids
  · obtain ⟨relids, rfl⟩ := kind
    cases encodes
    obtain ⟨st', applied, kept, skips, inside'⟩ := inside.truncateRelids faults position relids described
    refine ⟨st', applied, kept, skips.imp fun v v' skipped owes => ?_, ?_, fun smooth => absurd rfl (smooth.2 _ (List.mem_singleton_self _) relids)⟩
    · obtain ⟨ops, unused⟩ := skipped owes
      exact ⟨[], by rw [ops, List.append_nil], .elsewhere unused⟩
    have good_eq : goodAfter good [.truncate relids] = fun r => good r ∧ r ∉ relids := by
      funext r
      simp only [goodAfter, List.mem_singleton, RowChange.truncate.injEq, forall_eq]
    rw [good_eq]
    exact inside'
  · have kind' : ∀ relids, rc ≠ .truncate relids := fun relids eq => kind ⟨relids, eq⟩
    obtain ⟨relid, single⟩ : ∃ relid, rc.relids = [relid] := by
      cases rc with
      | insert relid new | delete relid old | update relid old new => exact ⟨relid, rfl⟩
      | truncate relids => exact absurd rfl (kind' relids)
    have single' : change.relids = [relid] := encodes.relids.trans single
    have member : relid ∈ rc.relids := single ▸ List.mem_singleton_self relid
    obtain ⟨st', applied, step, plans, inside'⟩ := inside.rowChange faults position ok valid single kind'
      (fun new eq => covers.inserts relid new eq) (covers.touches relid member) encodes
      (fun s inShadows here active => here ▸ permits s inShadows (here ▸ member) active) carried
      (described relid (single' ▸ List.mem_singleton_self relid))
    refine ⟨st', ?_, step.kept inside.shadows.keyed, plans, ?_, ?_⟩
    · rw [single']
      simp only [Nabla.applyRelids, applied]
    · have good_eq : goodAfter good [rc] = good := by
        funext r
        simp only [goodAfter, List.mem_singleton, eq_iff_iff, and_iff_left_iff_imp]
        exact fun _ relids eq => absurd eq.symm (kind' relids)
      rw [good_eq]
      exact inside'
    · rintro ⟨rfl, _⟩ all ready
      obtain rfl : good = fun _ => True := funext fun r => propext (iff_true_intro (all r))
      exact ready.rowChange inside position ok valid single kind' (covers.touches relid member) encodes step

/-- The join deltas of a run of changes, each over the tables as they are at its change. -/
inductive ViewSpec.Evaluated (S : Schema pf) (spec : ViewSpec) : Database → List RowChange → List Op → Prop where
  | nil {db : Database} : spec.Evaluated S db [] []
  | cons {db : Database} {rc : RowChange} {rcs : List RowChange} {ops more : List Op} (delta : JoinDelta spec db rc ops)
      (rest : spec.Evaluated S (S.step db rc) rcs more) : spec.Evaluated S db (rc :: rcs) (ops ++ more)

theorem goodAfter_cons (good : Nat → Prop) (rc : RowChange) (changes : List RowChange) :
    goodAfter (goodAfter good [rc]) changes = goodAfter good (rc :: changes) := by
  funext r
  simp only [goodAfter, List.mem_cons, List.not_mem_nil, or_false, eq_iff_iff]
  constructor
  · rintro ⟨⟨isGood, first⟩, later⟩
    exact ⟨isGood, fun relids member => member.elim (first relids) (later relids)⟩
  · rintro ⟨isGood, all⟩
    exact ⟨⟨isGood, fun relids eq => all relids (Or.inl eq)⟩, fun relids member => all relids (Or.inr member)⟩

/-- All changes of a source transaction. -/
theorem Tracking.Inside.applyChanges (inside : K.Inside e good footprint db st) (faults : Faults) (position : Nat)
    (ok : S.DatabaseOk db) {rcs : List RowChange} (valid : S.ValidRun db rcs)
    (covers : ∀ rc ∈ rcs, footprint.Covers rc) {changes : List Change}
    (encodes : List.Forall₂ (Encodes S) rcs changes)
    (permits : ∀ s ∈ st.shadows, s.Active e → ∀ p ∈ rcs.zip changes, s.relid ∈ p.1.relids →
      K.Permits s.relid s.frontier p.1 p.2)
    (carried : ∀ v ∈ st.views, v.Owes e → v.row.spec.CarriedRun S db rcs)
    (described : ∀ change ∈ changes, ∀ r ∈ change.relids, rels.lookup r = some (S.relation r)) :
    ∃ st', applyChanges pf faults rels e position changes st = .ok st' ∧ st.Kept e st' ∧
      List.Forall₂ (fun v v' => v'.Owes e → ∃ ops, v'.ops = v.ops ++ ops ∧ v.row.spec.Evaluated S db rcs ops) st.views st'.views ∧
      K.Inside e (goodAfter good rcs) footprint (S.run db rcs) st' ∧
      (Smooth faults rcs → (∀ r, good r) → K.Ready e st → K.Ready e st') := by
  induction encodes generalizing good db st position with
  | nil =>
      refine ⟨st, rfl, RoundState.Kept.refl e st, List.forall₂_same.mpr fun v _ _ => ⟨[], (List.append_nil _).symm, .nil⟩, ?_,
        fun _ _ ready => ready⟩
      have good_eq : goodAfter good [] = good := by
        funext r
        simp only [goodAfter, List.not_mem_nil, IsEmpty.forall_iff, implies_true, and_true]
      rw [good_eq]
      exact inside
  | @cons rc change rcs changes encodes _ ih =>
      obtain ⟨st', applied, kept, plans, inside', ready⟩ := inside.applyRelids faults position ok valid.1
        (covers rc List.mem_cons_self) encodes
        (fun s member here active => permits s member active (rc, change) List.mem_cons_self here)
        (fun v member owes => ⟨(carried v member owes).1, (carried v member owes).2.head⟩)
        (described change List.mem_cons_self)
      obtain ⟨st'', applied', kept', plans', inside'', ready'⟩ := ih inside' (position + 1) (S.step_ok ok valid.1) valid.2
        (fun rc member => covers rc (List.mem_cons_of_mem _ member))
        (by
          intro s' member active p within here
          obtain ⟨s, before, same⟩ := mem_of_forall₂_right kept.shadows member
          rw [same.relid, same.frontier]
          exact permits s before (same.active active) p (List.mem_cons_of_mem _ within) (same.relid ▸ here))
        (by
          intro v' member owes
          obtain ⟨v, before, same⟩ := mem_of_forall₂_right kept.views member
          rw [same.row]
          exact (carried v before (same.owes owes)).2)
        fun change member => described change (List.mem_cons_of_mem _ member)
      refine ⟨st'', ?_, kept.trans kept', forall₂_trans (fun v v' v'' first second owes => ?_)
        (forall₂_both plans kept.views) (forall₂_both plans' kept'.views), ?_, ?_⟩
      · simp only [Nabla.applyChanges, applied, applied']
      · obtain ⟨more, ops', rest⟩ := second.1 owes
        obtain ⟨ops, ops_eq, delta⟩ := first.1 (second.2.owes owes)
        rw [first.2.row] at rest
        exact ⟨ops ++ more, by rw [ops', ops_eq, List.append_assoc], .cons delta rest⟩
      · rwa [goodAfter_cons] at inside''
      · intro smooth all before
        refine ready' ⟨smooth.1, fun rc member => smooth.2 rc (List.mem_cons_of_mem _ member)⟩ ?_ (ready
          ⟨smooth.1, fun c member => smooth.2 c (List.mem_singleton.mp member ▸ List.mem_cons_self)⟩ all before)
        intro r
        refine ⟨all r, fun relids member => ?_⟩
        exact absurd (List.mem_singleton.mp member).symm (smooth.2 rc List.mem_cons_self relids)

end Phase1

end Nabla
