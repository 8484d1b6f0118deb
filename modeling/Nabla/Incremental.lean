import Nabla.Round

/-! Incremental join maintenance against recomputation: a round takes a catalog whose
views and shadows are at one position of the base tables to the end of its peek. -/
namespace Nabla
open Bags

variable {pf : Platform} {S : Schema pf}

def Tracking.steady (S : Schema pf) (cols : Nat → List String) : Tracking S where
  cols := fun relid _ => cols relid
  Extra := fun _ _ _ _ => True
  Permits := fun _ _ _ _ => True
  absorbs := fun _ _ _ _ _ _ _ _ _ => trivial

theorem Tracking.steady_advances (cols : Nat → List String) (h : History S) : (Tracking.steady S cols).Advances h :=
  fun _ _ _ follows => ⟨follows.mirrors.congr rfl rfl, trivial⟩

def Catalog.activeColumns (c : Catalog) (relid : Nat) : List String :=
  ((c.shadow relid).map ShadowRow.columns).getD []

theorem Catalog.activeColumns_eq {c : Catalog} (keyed : Keyed ShadowRow.relid c.shadows) {s : ShadowRow}
    (member : s ∈ c.shadows) : c.activeColumns s.relid = s.columns := by
  rw [Catalog.activeColumns, Catalog.shadow, find_relid keyed member, Option.map_some, Option.getD_some]

def ViewSpec.Served (spec : ViewSpec) (shadows : List ShadowRow) : Prop :=
  ∀ b ∈ spec.relations, ∃ s ∈ shadows, s.relid = b.oid ∧ b.usedColumns ⊆ s.columns

/-- The catalog is at the position `p`, where the base tables are `db`: every live join
view holds its query and every shadow its table on the active columns. -/
structure Catalog.InStep (S : Schema pf) (db : Database) (p : Nat) (c : Catalog) : Prop where
  ids : Keyed ViewRow.id c.views
  keyed : Keyed ShadowRow.relid c.shadows
  fits : ∀ s ∈ c.shadows, s.Fits S
  sound : ∀ s ∈ c.shadows, s.failed = false ∧ s.frontier = p
  mirrors : ∀ s ∈ c.shadows, Mirrors S s.columns s s.rows (db s.relid)
  analyzed : ∀ row ∈ c.views, row.status = .live → row.spec.isJoin = true →
    row.spec.Fits S ∧ row.spec.Served c.shadows
  holds : ∀ row ∈ c.views, row.status = .live → row.spec.isJoin = true → row.frontier = p ∧ row.Holds db

theorem ViewSpec.CarriedRun.append {spec : ViewSpec} {db : Database} {xs ys : List RowChange}
    (run : spec.CarriedRun S db (xs ++ ys)) : spec.CarriedRun S db xs ∧ spec.CarriedRun S (S.run db xs) ys := by
  induction xs generalizing db with
  | nil => exact ⟨run.head, run⟩
  | cons x xs ih =>
      obtain ⟨here, later⟩ := run
      obtain ⟨left, right⟩ := ih later
      exact ⟨⟨here, left⟩, right⟩

/-- The stretch of a run that one of its transactions covers. -/
theorem ViewSpec.CarriedRun.transaction {spec : ViewSpec} {db : Database} {done todo : List BaseTransaction}
    {t : BaseTransaction} (run : spec.CarriedRun S db ((done ++ t :: todo).flatMap BaseTransaction.changes)) :
    spec.CarriedRun S (S.through db done) t.changes := by
  rw [List.flatMap_append, List.flatMap_cons] at run
  exact run.append.2.append.1

section Round

variable {db : Database} {p : Nat} {c : Catalog} {ts : List BaseTransaction}

theorem History.asOf_start (h : History S) (later : ∀ t ∈ h.commits, p < t.endLsn) : h.asOf p = h.start := by
  have none : h.commits.filter (·.endLsn ≤ p) = [] := by
    rw [List.filter_eq_nil_iff]
    intro t member
    rw [decide_eq_true_eq, Nat.not_le]
    exact later t member
  rw [History.asOf, none]
  rfl

theorem untruncated_of_kinds (kinds : ∀ t ∈ ts, ∀ rc ∈ t.changes, ∀ relids, rc ≠ .truncate relids)
    (relid origin : Nat) : Untruncated relid origin ts :=
  fun t member _ relids within => absurd rfl (kinds t member _ within relids)

theorem Catalog.InStep.synced (inStep : c.InStep S db p) (h : History S) (start : h.start = db)
    (later : ∀ t ∈ h.commits, p < t.endLsn) :
    (Tracking.steady S c.activeColumns).Synced h (fun _ => p) c where
  ids := inStep.ids
  keyed := inStep.keyed
  fits := inStep.fits
  since := fun s member => (inStep.sound s member).2.ge
  follows := by
    intro s member _ _
    refine ⟨?_, trivial⟩
    change Mirrors S (c.activeColumns s.relid) s s.rows _
    rw [Catalog.activeColumns_eq inStep.keyed member, (inStep.sound s member).2, h.asOf_start later, start]
    exact inStep.mirrors s member
  views := by
    intro row member live join
    obtain ⟨frontier, holds⟩ := inStep.holds row member live join
    refine ⟨(inStep.analyzed row member live join).1, ?_, fun b _ t within _ => ?_⟩
    · rw [frontier, h.asOf_start later, start]
      exact holds
    · obtain ⟨inHistory, low⟩ := List.mem_filter.mp within
      exact absurd (frontier ▸ of_decide_eq_true low) (later t inHistory).not_ge

/-- A view whose shadows were all there to absorb what comes next still finds them so. -/
theorem ViewSpec.Served.fresh {start st : RoundState} {done : List BaseTransaction} (since : start.Since done st)
    (keyed : Keyed ShadowRow.relid start.shadows) {t : BaseTransaction} (passed : ∀ u ∈ done, u.endLsn < t.endLsn)
    {v : LiveView} (member : v ∈ st.views) (owes : v.Owes t.endLsn) (served : v.row.spec.Served start.shadows)
    (active : ∀ s ∈ start.shadows, s.Active t.endLsn) {cols : Nat → List String}
    (columns : ∀ s ∈ start.shadows, cols s.relid = s.columns) :
    v.Fresh (Tracking.steady S cols) t.endLsn st.shadows := by
  intro b reads
  obtain ⟨s₀, inStart, here, used⟩ := served b reads
  obtain ⟨s, inState, after, isActive⟩ := since.active keyed passed member owes reads inStart here (active s₀ inStart)
  refine ⟨s, inState, after.relid.trans here, isActive, ?_⟩
  change b.usedColumns ⊆ cols b.oid
  rwa [← here, columns s₀ inStart]

theorem History.asOf_last (h : History S) (later : ∀ t ∈ h.commits, p < t.endLsn) :
    h.asOf ((h.commits.getLast?.map BaseTransaction.endLsn).getD p) = S.through h.start h.commits := by
  rcases List.eq_nil_or_concat' h.commits with none | ⟨before, t, split⟩
  · rw [none]
    exact h.asOf_start later
  · rw [split, List.getLast?_concat, Option.map_some, Option.getD_some, @History.asOf_through _ _ h before [] t split,
      Schema.through, Schema.through, List.flatMap_append, S.run_append, List.flatMap_singleton]

section Start

variable {start : RoundState} (inStep : c.InStep S db p) (starts : c.Starts start)
include inStep starts

theorem Catalog.InStep.columns : ∀ s ∈ start.shadows, c.activeColumns s.relid = s.columns :=
  fun _ member => Catalog.activeColumns_eq inStep.keyed (starts.shadows ▸ member)

theorem Catalog.InStep.whole : start.Whole := by
  refine ⟨?_, ?_, ?_⟩
  · intro v member join
    obtain ⟨row, _, _, rfl⟩ := starts.join member join
    rfl
  · intro v member join
    obtain ⟨row, _, _, rfl⟩ := starts.join member join
    rfl
  · rw [starts.shadows]
    exact fun s member => (inStep.sound s member).1

/-- Between two transactions every view finds the shadows it reads ready for the next. -/
theorem Catalog.InStep.fresh (ordered : ts.Pairwise fun t u => t.endLsn < u.endLsn) (later : ∀ t ∈ ts, p < t.endLsn)
    {done todo : List BaseTransaction} {t : BaseTransaction} {st : RoundState} (split : ts = done ++ t :: todo) (since : start.Since done st)
    {v : LiveView} (member : v ∈ st.views) (owes : v.Owes t.endLsn) :
    v.Fresh (Tracking.steady S c.activeColumns) t.endLsn st.shadows := by
  have inTs : t ∈ ts := split ▸ List.mem_append_right _ List.mem_cons_self
  obtain ⟨v₀, inStart, same, _⟩ := mem_of_forall₂_right since.views member
  have join : v₀.row.spec.isJoin = true := same.spec ▸ owes.join
  obtain ⟨row, inCatalog, live, rfl⟩ := starts.join inStart join
  have served := (inStep.analyzed row inCatalog live join).2
  have spec : v.row.spec = row.spec := same.spec
  rw [← spec, ← starts.shadows] at served
  refine served.fresh since (starts.shadows ▸ inStep.keyed) ?_ member owes ?_ (inStep.columns starts)
  · intro u within
    exact (List.pairwise_append.mp (split ▸ ordered)).2.2 u within t List.mem_cons_self
  · intro s within
    rw [starts.shadows] at within
    obtain ⟨sound, frontier⟩ := inStep.sound s within
    exact ⟨sound, frontier ▸ later t inTs⟩

theorem Catalog.InStep.served {done : List BaseTransaction} {st : RoundState} (since : start.Since done st)
    {v : LiveView} (member : v ∈ st.views) (join : v.row.spec.isJoin = true) : v.row.spec.Served st.shadows := by
  obtain ⟨v₀, inStart, same, _⟩ := mem_of_forall₂_right since.views member
  obtain ⟨row, inCatalog, live, rfl⟩ := starts.join inStart (same.spec ▸ join)
  have served := (inStep.analyzed row inCatalog live (same.spec ▸ join)).2
  intro b reads
  rw [same.spec] at reads
  obtain ⟨s₀, inStart, here, used⟩ := served b reads
  rw [← starts.shadows] at inStart
  obtain ⟨s, inState, after⟩ := mem_of_forall₂ since.shadows inStart
  exact ⟨s, inState, after.relid.trans here, after.columns ▸ used⟩

end Start

/-- A round without failures keeps every live join view equal to its query, and every
shadow equal to its table, as of the last transaction it processed: for every peek of
inserts, deletes and updates that takes no row into a view which `jsonb` does not carry. -/
theorem Catalog.InStep.applyRound (inStep : c.InStep S db p) (ok : S.DatabaseOk db)
    (ordered : ts.Pairwise fun t u => t.endLsn < u.endLsn) (later : ∀ t ∈ ts, p < t.endLsn)
    (valid : S.ValidRun db (ts.flatMap BaseTransaction.changes))
    (kinds : ∀ t ∈ ts, ∀ rc ∈ t.changes, ∀ relids, rc ≠ .truncate relids) {txs : List SourceTransaction}
    (encodes : List.Forall₂ (TransactionEncodes S) ts txs) {cache : Nat → Option Relation}
    (described : ∀ r ∈ changedRelids txs, Described S cache r)
    (carried : ∀ row ∈ c.views, row.status = .live → row.spec.isJoin = true →
      row.spec.CarriedRun S db (ts.flatMap BaseTransaction.changes))
    {settings : Settings} {result : RoundResult}
    (applied : applyRound pf settings Faults.none cache c txs = .ok result) :
    result.catalog.InStep S (S.through db ts) ((ts.getLast?.map BaseTransaction.endLsn).getD p) ∧
      ∀ row ∈ c.views, row.status = .live → row.spec.isJoin = true →
        ∃ row' ∈ result.catalog.views, row'.id = row.id ∧ row'.spec = row.spec ∧ row'.status = .live := by
  let h : History S := ⟨db, ts, ok, ordered, valid⟩
  have synced := inStep.synced h rfl later
  have passed : c.Passed [] := ⟨fun _ _ _ _ t member => absurd member List.not_mem_nil,
    fun _ _ _ t member => absurd member List.not_mem_nil⟩
  have split : h.commits = [] ++ ts ++ [] := by rw [List.nil_append, List.append_nil]
  obtain ⟨synced', _, start, st, written, starts, since, between, finished, catalog, whole⟩ :=
    synced.round passed split (Tracking.steady_advances _ h) encodes described
      (by
        rintro start done t tx st starts _ ⟨todo, todo_eq⟩ since _
        refine ⟨fun _ _ _ _ _ _ => trivial, ?_, fun v member owes =>
          Or.inl (inStep.fresh starts ordered later todo_eq since member owes).placed⟩
        intro v member owes
        obtain ⟨v₀, inStart, same, _⟩ := mem_of_forall₂_right since.views member
        have join : v₀.row.spec.isJoin = true := same.spec ▸ owes.join
        obtain ⟨row, inCatalog, live, rfl⟩ := starts.join inStart join
        have run := carried row inCatalog live join
        rw [todo_eq] at run
        have spec : v.row.spec = row.spec := same.spec
        rw [spec, List.nil_append]
        exact run.transaction)
      applied
  have wholeSt : st.Whole := by
    refine whole rfl kinds (fun r u member => absurd member List.not_mem_nil) ?_ (inStep.whole starts)
    rintro done t st ⟨todo, todo_eq⟩ since _ _ v member owes
    exact inStep.fresh starts ordered later todo_eq since member owes
  have last : h.asOf ((ts.getLast?.map BaseTransaction.endLsn).getD p) = S.through db ts := h.asOf_last later
  have shadows : result.catalog.shadows = st.shadows := by rw [catalog, Catalog.writeBack]
  have atEnd : ∀ s ∈ st.shadows, s.failed = false ∧ s.frontier = (ts.getLast?.map BaseTransaction.endLsn).getD p := by
    intro s member
    have sound := wholeSt.sound s member
    obtain ⟨s₀, inStart, after⟩ := mem_of_forall₂_right since.shadows member
    rw [starts.shadows] at inStart
    refine ⟨sound, Advanced.last ordered later ?_ (between.passed s member sound)⟩
    rw [← (inStep.sound s₀ inStart).2]
    exact after.frontier
  have viewAtEnd : ∀ v ∈ st.views, v.row.spec.isJoin = true → v.frontier = (ts.getLast?.map BaseTransaction.endLsn).getD p := by
    intro v member join
    obtain ⟨v₀, inStart, same, advanced⟩ := mem_of_forall₂_right since.views member
    obtain ⟨row, inCatalog, live, rfl⟩ := starts.join inStart (same.spec ▸ join)
    refine Advanced.last ordered later ?_ ((between.views v member join).passed (wholeSt.alive v member join))
    rw [← (inStep.holds row inCatalog live (same.spec ▸ join)).1]
    exact advanced
  constructor
  · refine ⟨synced'.ids, synced'.keyed, synced'.fits, shadows ▸ atEnd, ?_, ?_, ?_⟩
    · intro s member
      rw [shadows] at member
      obtain ⟨sound, frontier⟩ := atEnd s member
      have follows := synced'.follows s (shadows ▸ member) sound
        (untruncated_of_kinds (fun t within => kinds t (List.mem_of_mem_filter within)) _ _)
      obtain ⟨s₀, inStart, after⟩ := mem_of_forall₂_right since.shadows member
      have mirrors : Mirrors S (c.activeColumns s.relid) s s.rows (h.asOf s.frontier s.relid) := follows.mirrors
      rwa [after.relid, inStep.columns starts s₀ inStart, ← after.columns, ← after.relid, frontier, last] at mirrors
    · intro row member live join
      rw [catalog] at member
      obtain ⟨v, inRound, done⟩ := Catalog.written_live (starts.loaded since) finished member live
      have served := inStep.served starts since inRound (done.spec ▸ join)
      exact ⟨(synced'.views row (catalog ▸ member) live join).fits, by rw [shadows, done.spec]; exact served⟩
    · intro row member live join
      have settled := synced'.views row member live join
      rw [catalog] at member
      obtain ⟨v, inRound, done⟩ := Catalog.written_live (starts.loaded since) finished member live
      have join' : v.row.spec.isJoin = true := done.spec ▸ join
      have frontier : row.frontier = (ts.getLast?.map BaseTransaction.endLsn).getD p :=
        (done.frontier.trans (between.views v inRound join').ledger.symm).trans (viewAtEnd v inRound join')
      refine ⟨frontier, ?_⟩
      have holds := settled.holds
      rwa [frontier, last] at holds
  · intro row member live join
    obtain ⟨v, inRound, same, _, row', inCatalog, done⟩ :=
      starts.rewritten since finished inStep.ids st.shadows member live join
    have join' : v.row.spec.isJoin = true := same.spec ▸ join
    refine ⟨row', catalog ▸ inCatalog, done.id.trans same.id, done.spec.trans same.spec, ?_⟩
    rw [done.status]
    exact (between.views v inRound join').live (wholeSt.alive v inRound join')

end Round

def shopRelation (relid : Nat) : Relation where
  id := relid
  nspname := "public"
  name := "t"
  replident := 100
  columns := [⟨"id", true, 25, -1, some "text"⟩, ⟨"ref", false, 25, -1, some "text"⟩,
    ⟨"doc", false, 3802, -1, some "jsonb"⟩]

def shop : Schema .basic where
  relation := shopRelation
  primaryKey := fun _ => ["id"]
  relation_id := fun _ => rfl
  resolved := fun _ c member => by
    simp only [shopRelation, List.mem_cons, List.not_mem_nil, or_false] at member
    rcases member with rfl | rfl | rfl <;> rfl
  distinct := fun relid => show ["id", "ref", "doc"].Nodup by decide
  key_nonempty := fun _ => List.cons_ne_nil _ _
  key_columns := fun relid => show ["id"] ⊆ ["id", "ref", "doc"] by decide

/-- `o.ref = c.id`. -/
def shopMatch : SqlExpr where
  kind := .bool
  vars := [(0, "ref", .text), (1, "id", .text)]
  eval := fun ρ => .bool (sqlEq (ρ 0 "ref") (ρ 1 "id"))
  eval_congr := by
    intro ρ σ same
    rw [same (0, "ref", .text) (by decide), same (1, "id", .text) (by decide)]
  eval_typed := fun _ => rfl

def shopSpec : ViewSpec where
  shape := .projection
  predicate := some shopMatch
  columns := []
  pkColumns := ["id", "id"]
  pkViewColumns := ["id", "customer"]
  countAlias := none
  counts := []
  sums := []
  relations := [⟨1, 1, "public.orders", ["id"], ["id", "ref", "doc"], ["text", "text", "jsonb"], ["ref"]⟩,
    ⟨2, 2, "public.customers", ["id"], ["id"], ["text"], ["id"]⟩]
  selectList := [⟨.column 0 "id" .text, "id"⟩, ⟨.column 1 "id" .text, "customer"⟩, ⟨.column 0 "doc" .jsonb, "doc"⟩]
  hiddenColumns := []

def shopRow (id ref : Datum) (doc : Datum) : BaseRow :=
  fun name => if name = "id" then id else if name = "ref" then ref else if name = "doc" then doc else .null

def shopView (frontier : Nat) (storage : List Record) : ViewRow where
  id := 7
  name := "shop"
  definition := "select"
  spec := shopSpec
  frontier := frontier
  epoch := 0
  status := .live
  lastSeq := 0
  applyFailures := 0
  lastError := none
  staleReason := none
  populated := true
  storage := storage
  deltas := []

def shopShadow (relid frontier : Nat) (columns types : List String) (rows : List BaseRow) : ShadowRow where
  relid := relid
  frontier := frontier
  refcount := 1
  columns := columns
  columnTypes := types
  pkColumns := ["id"]
  joinKeys := []
  failed := false
  staleReason := none
  physical := []
  rows := rows

def shopCatalog : Catalog where
  views := [shopView 0 []]
  viewRelations := [(7, 1), (7, 2)]
  shadows := [shopShadow 1 0 ["id", "ref", "doc"] ["text", "text", "jsonb"] [], shopShadow 2 0 ["id"] ["text"] []]

def shopTransaction (doc : Datum) : BaseTransaction where
  endLsn := 10
  changes := [.insert 2 (shopRow (.text "c") .null .null), .insert 1 (shopRow (.text "o") (.text "c") doc)]

def shopDecoded (doc : Datum) : SourceTransaction where
  xid := 1
  commitLsn := 9
  endLsn := 10
  changes := [.insert 2 (encodeRow .basic (shopRelation 2) (shopRow (.text "c") .null .null)),
    .insert 1 (encodeRow .basic (shopRelation 1) (shopRow (.text "o") (.text "c") doc))]

def shopSettings : Settings := ⟨10, 100000, 1000000⟩

theorem shopSpec_fits : shopSpec.Fits shop where
  tabled := ⟨by decide, fun shape => Shape.noConfusion shape⟩
  oids := by decide
  used := by decide
  provided := by
    intro b member
    simp only [shopSpec, List.mem_cons, List.not_mem_nil, or_false] at member
    rcases member with rfl | rfl
    · exact show ∀ p ∈ [("id", "text"), ("ref", "text"), ("doc", "jsonb")], (shopRelation 1).provides p.1 p.2 by decide
    · exact show ∀ p ∈ [("id", "text")], (shopRelation 2).provides p.1 p.2 by decide
  key := by
    intro b member
    simp only [shopSpec, List.mem_cons, List.not_mem_nil, or_false] at member
    rcases member with rfl | rfl
    · exact show ["id"] ⊆ ["id", "ref", "doc"] by decide
    · exact show ["id"] ⊆ ["id"] by decide
  vars := by
    intro e member v within
    simp only [ViewSpec.exprs, shopSpec, shopMatch, SqlExpr.column, Option.toList, List.map_cons, List.map_nil, List.append_nil, List.cons_append, List.nil_append,
      List.mem_cons, List.not_mem_nil, or_false] at member
    rcases member with rfl | rfl | rfl | rfl
    · simp only [List.mem_cons, List.not_mem_nil, or_false] at within
      rcases within with rfl | rfl
      · exact ⟨_, rfl, "text", by decide, rfl⟩
      · exact ⟨_, rfl, "text", by decide, rfl⟩
    · obtain rfl := List.mem_singleton.mp within
      exact ⟨_, rfl, "text", by decide, rfl⟩
    · obtain rfl := List.mem_singleton.mp within
      exact ⟨_, rfl, "text", by decide, rfl⟩
    · obtain rfl := List.mem_singleton.mp within
      exact ⟨_, rfl, "jsonb", by decide, rfl⟩
  keyColumn := by
    intro _ c member
    simp only [shopSpec, List.mem_cons, List.not_mem_nil, or_false] at member
    rcases member with rfl | rfl
    · exact ⟨0, _, "id", .text, rfl, List.mem_cons_self, List.mem_cons_self⟩
    · exact ⟨1, _, "id", .text, rfl, List.mem_cons_self, List.mem_cons_of_mem _ List.mem_cons_self⟩
  keyCover := by
    intro _ i b at_i name inKey
    obtain rfl := List.mem_singleton.mp inKey
    rcases i with _ | _ | n
    · exact ⟨"id", List.mem_cons_self, .text, List.mem_cons_self⟩
    · exact ⟨"customer", List.mem_cons_of_mem _ List.mem_cons_self, .text,
        List.mem_cons_of_mem _ List.mem_cons_self⟩
    · cases at_i

theorem shopShadow_fits {relid frontier : Nat} {columns types : List String} {rows : List BaseRow}
    (active : columns ⊆ ["id", "ref", "doc"]) (key : "id" ∈ columns)
    (provided : ∀ p ∈ columns.zip types, (shopRelation relid).provides p.1 p.2) :
    (shopShadow relid frontier columns types rows).Fits shop where
  pk := rfl
  active := active
  key := fun _ member => List.mem_singleton.mp member ▸ key
  provided := provided

theorem shopShadow_mirrors_nil {relid frontier : Nat} {columns types : List String} (key : "id" ∈ columns) :
    Mirrors shop columns (shopShadow relid frontier columns types []) [] [] where
  key := fun _ member => List.mem_singleton.mp member ▸ key
  active := List.Subset.refl _
  typed := fun _ member => absurd member List.not_mem_nil
  rows := List.Perm.refl _

theorem shopCatalog_inStep : shopCatalog.InStep shop (fun _ => []) 0 where
  ids := show [7].Nodup by decide
  keyed := show [1, 2].Nodup by decide
  fits := by
    intro s member
    simp only [shopCatalog, List.mem_cons, List.not_mem_nil, or_false] at member
    rcases member with rfl | rfl
    · exact shopShadow_fits (by decide) (by decide) (show ∀ p ∈ [("id", "text"), ("ref", "text"), ("doc", "jsonb")],
        (shopRelation 1).provides p.1 p.2 by decide)
    · exact shopShadow_fits (by decide) (by decide) (show ∀ p ∈ [("id", "text")],
        (shopRelation 2).provides p.1 p.2 by decide)
  sound := by
    intro s member
    simp only [shopCatalog, List.mem_cons, List.not_mem_nil, or_false] at member
    rcases member with rfl | rfl <;> exact ⟨rfl, rfl⟩
  mirrors := by
    intro s member
    simp only [shopCatalog, List.mem_cons, List.not_mem_nil, or_false] at member
    rcases member with rfl | rfl
    · exact shopShadow_mirrors_nil (by decide)
    · exact shopShadow_mirrors_nil (by decide)
  analyzed := by
    intro row member _ _
    obtain rfl := List.mem_singleton.mp member
    refine ⟨shopSpec_fits, ?_⟩
    intro b inSpec
    simp only [shopView, shopSpec, List.mem_cons, List.not_mem_nil, or_false] at inSpec
    rcases inSpec with rfl | rfl
    · exact ⟨_, List.mem_cons_self, rfl, List.Subset.refl _⟩
    · exact ⟨_, List.mem_cons_of_mem _ List.mem_cons_self, rfl, List.Subset.refl _⟩
  holds := by
    intro row member _ _
    obtain rfl := List.mem_singleton.mp member
    exact ⟨rfl, List.Perm.refl _⟩

theorem shop_described (relid : Nat) : Described shop (some ∘ shopRelation) relid := Described.of_relation rfl

theorem shopRow_ok {id ref doc : Datum} (relid : Nat) (named : ∃ s, id = .text s)
    (typed : Platform.basic.Holds "text" ref) (typed' : Platform.basic.Holds "jsonb" doc) :
    shop.RowOk relid (shopRow id ref doc) where
  typed := by
    obtain ⟨s, rfl⟩ := named
    intro c member ty resolved
    change c ∈ (shopRelation relid).columns at member
    simp only [shopRelation, List.mem_cons, List.not_mem_nil, or_false] at member
    rcases member with rfl | rfl | rfl
    · exact Or.inr (Option.some.inj resolved).symm
    · exact Option.some.inj resolved ▸ typed
    · exact Option.some.inj resolved ▸ typed'
  key := by
    obtain ⟨s, rfl⟩ := named
    intro c member
    obtain rfl := List.mem_singleton.mp member
    exact Datum.noConfusion

theorem shopTransaction_valid {doc : Datum} (typed : Platform.basic.Holds "jsonb" doc) :
    shop.ValidRun (fun _ => []) (shopTransaction doc).changes :=
  ⟨⟨shopRow_ok 2 ⟨"c", rfl⟩ (Or.inl rfl) (Or.inl rfl), List.not_mem_nil⟩,
    ⟨shopRow_ok 1 ⟨"o", rfl⟩ (Or.inr rfl) typed, List.not_mem_nil⟩, trivial⟩

theorem shopTransaction_kinds (doc : Datum) :
    ∀ rc ∈ (shopTransaction doc).changes, ∀ relids, rc ≠ .truncate relids := by
  intro rc member relids same
  subst same
  simp only [shopTransaction, List.mem_cons, reduceCtorEq, List.not_mem_nil, or_false] at member

theorem shopTransaction_encodes (doc : Datum) : TransactionEncodes shop (shopTransaction doc) (shopDecoded doc) :=
  ⟨rfl, .cons .insert (.cons .insert .nil)⟩

theorem shop_ok : shop.DatabaseOk fun _ => [] :=
  ⟨fun _ => Keyed.nil _, fun _ _ member => absurd member List.not_mem_nil⟩

/-- A document that is the JSON null reaches the view as SQL NULL. -/
theorem shop_jsonNull : ¬ ∀ {db : Database} {p : Nat} {c : Catalog} {ts : List BaseTransaction}, c.InStep shop db p →
    shop.DatabaseOk db → (ts.Pairwise fun t u => t.endLsn < u.endLsn) → (∀ t ∈ ts, p < t.endLsn) →
    shop.ValidRun db (ts.flatMap BaseTransaction.changes) →
    (∀ t ∈ ts, ∀ rc ∈ t.changes, ∀ relids, rc ≠ .truncate relids) → ∀ {txs : List SourceTransaction},
    List.Forall₂ (TransactionEncodes shop) ts txs → ∀ {cache : Nat → Option Relation},
    (∀ r ∈ changedRelids txs, Described shop cache r) → ∀ {settings : Settings} {result : RoundResult},
    applyRound .basic settings Faults.none cache c txs = .ok result →
    result.catalog.InStep shop (shop.through db ts) ((ts.getLast?.map BaseTransaction.endLsn).getD p) := by
  intro claim
  have run : ((applyRound .basic shopSettings Faults.none (some ∘ shopRelation) shopCatalog
      [shopDecoded .jsonNull]).toOption.map fun r => r.catalog.views.map fun row => (row.status, row.spec, row.storage)) =
      some [(.live, shopSpec, [[("id", .text "o"), ("customer", .text "c"), ("doc", .null)]])] := rfl
  cases applied : applyRound .basic shopSettings Faults.none (some ∘ shopRelation) shopCatalog
      [shopDecoded .jsonNull] with
  | error message =>
      rw [applied] at run
      exact absurd run.symm (Option.some_ne_none _)
  | ok result =>
      rw [applied] at run
      rw [Except.toOption, Option.map_some, Option.some.injEq] at run
      obtain ⟨row, views, read⟩ := List.map_eq_singleton_iff.mp run
      rw [Prod.mk.injEq, Prod.mk.injEq] at read
      have typed : Platform.basic.Holds "jsonb" .jsonNull := Or.inr ⟨rfl, rfl⟩
      have after := claim shopCatalog_inStep shop_ok (List.pairwise_singleton _ _)
        (fun t member => by rw [List.mem_singleton.mp member]; decide)
        (by rw [List.flatMap_singleton]; exact shopTransaction_valid typed)
        (fun t member => by rw [List.mem_singleton.mp member]; exact shopTransaction_kinds _)
        (.cons (shopTransaction_encodes _) .nil) (fun r _ => shop_described r) applied
      have member : row ∈ result.catalog.views := by rw [views]; exact List.mem_singleton_self row
      have holds := (after.holds row member read.1 (by rw [read.2.1]; rfl)).2
      rw [ViewRow.Holds, read.2.1, read.2.2] at holds
      have query : shopSpec.output (shopSpec.contents (shopSpec.tablesOf
          (shop.through (fun _ => []) [shopTransaction .jsonNull]))) =
          [[("id", .text "o"), ("customer", .text "c"), ("doc", .jsonNull)]] := rfl
      rw [query, List.perm_singleton] at holds
      exact absurd holds (by decide)

/-- An order and its customer arrive in one transaction. -/
theorem shop_applyRound : ∃ result, applyRound .basic shopSettings Faults.none (some ∘ shopRelation) shopCatalog
      [shopDecoded .null] = .ok result ∧
    result.catalog.InStep shop (shop.through (fun _ => []) [shopTransaction .null]) 10 ∧
      ∀ row ∈ shopCatalog.views, row.status = .live → row.spec.isJoin = true →
        ∃ row' ∈ result.catalog.views, row'.id = row.id ∧ row'.spec = row.spec ∧ row'.status = .live := by
  have carried : ∀ row ∈ shopCatalog.views, row.status = .live → row.spec.isJoin = true →
      row.spec.CarriedRun shop (fun _ => []) ([shopTransaction .null].flatMap BaseTransaction.changes) := by
    intro row member _ _
    obtain rfl := List.mem_singleton.mp member
    refine ⟨fun ρ member => absurd member List.not_mem_nil, fun ρ member => absurd member List.not_mem_nil, ?_⟩
    intro ρ member
    obtain rfl : ρ = envOf [narrowRow ["id", "ref", "doc"] (shopRow (.text "o") (.text "c") .null),
        narrowRow ["id"] (shopRow (.text "c") .null .null)] := List.mem_singleton.mp member
    refine ⟨?_, fun su member => absurd member List.not_mem_nil⟩
    intro o inList
    simp only [shopView, shopSpec, List.mem_cons, List.not_mem_nil, or_false] at inList
    rcases inList with rfl | rfl | rfl
    · exact Datum.noConfusion
    · exact Datum.noConfusion
    · exact Datum.noConfusion
  obtain ⟨result, applied⟩ : ∃ result, applyRound .basic shopSettings Faults.none (some ∘ shopRelation) shopCatalog
      [shopDecoded .null] = .ok result := ⟨_, rfl⟩
  have typed : Platform.basic.Holds "jsonb" .null := Or.inl rfl
  exact ⟨result, applied, shopCatalog_inStep.applyRound shop_ok (List.pairwise_singleton _ _)
    (fun t member => by rw [List.mem_singleton.mp member]; decide)
    (by rw [List.flatMap_singleton]; exact shopTransaction_valid typed)
    (fun t member => by rw [List.mem_singleton.mp member]; exact shopTransaction_kinds _)
    (.cons (shopTransaction_encodes _) .nil) (fun r _ => shop_described r) carried applied⟩

end Nabla
