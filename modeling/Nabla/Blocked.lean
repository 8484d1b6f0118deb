import Nabla.Extension
import Nabla.Incremental

/-! Views that are blocked at a transaction and retry it: rounds with any failures, and
where the shadows may stand when a join view comes back to a transaction. -/
namespace Nabla
open Bags

variable {pf : Platform} {S : Schema pf} {settings : Settings} {faults : Faults} {h : History S}
  {stream : List SourceTransaction} {cols : Nat → List String} {origin : Nat → Nat}

theorem History.filter_congr (h : History S) {p q : Nat} (le : p ≤ q) (none : ∀ t ∈ h.commits, t.endLsn ≤ q → t.endLsn ≤ p) :
    h.commits.filter (·.endLsn ≤ p) = h.commits.filter (·.endLsn ≤ q) := by
  apply List.filter_congr
  intro t member
  rw [decide_eq_decide]
  exact ⟨fun low => low.trans le, none t member⟩

theorem History.intact_congr (h : History S) {p q : Nat} (le : p ≤ q) (none : ∀ t ∈ h.commits, t.endLsn ≤ q → t.endLsn ≤ p)
    (relid since : Nat) : h.Intact relid since p ↔ h.Intact relid since q := by
  rw [History.Intact, History.Intact, h.filter_congr le none]

/-- The idle advance goes over no transaction, so everything stays as it was. -/
theorem Tracking.Synced.idleAdvance {c : Catalog} (synced : (Tracking.steady S cols).Synced h origin c) {f : Nat}
    (passed : c.Passed (h.commits.filter (·.endLsn ≤ f))) : (Tracking.steady S cols).Synced h origin (c.idleAdvance f) where
  ids := by
    rw [Keyed, c.idleAdvance_ids]
    exact synced.ids
  keyed := by
    rw [Keyed, Catalog.idleAdvance, List.map_map, show ShadowRow.relid ∘ advanceShadow f = ShadowRow.relid from funext (advanceShadow_relid f)]
    exact synced.keyed
  fits := by
    intro s' member
    obtain ⟨s, inShadows, rfl⟩ := List.mem_map.mp member
    exact (synced.fits s inShadows).advance f
  since := by
    intro s' member
    obtain ⟨s, inShadows, rfl⟩ := List.mem_map.mp member
    rw [advanceShadow_relid]
    by_cases active : s.Active f
    · rw [advanceShadow_active active]
      exact (synced.since s inShadows).trans active.2.le
    · rw [advanceShadow_idle active]
      exact synced.since s inShadows
  follows := by
    intro s' member sound intact
    obtain ⟨s, inShadows, rfl⟩ := List.mem_map.mp member
    by_cases active : s.Active f
    · rw [advanceShadow_active active] at intact ⊢
      have none : ∀ t ∈ h.commits, t.endLsn ≤ f → t.endLsn ≤ s.frontier := fun t inHistory low =>
        passed.shadows s inShadows active.1 t (List.mem_filter.mpr ⟨inHistory, decide_eq_true low⟩)
      have before := (h.intact_congr active.2.le none s.relid (origin s.relid)).mpr intact
      rw [← h.asOf_congr active.2.le none]
      exact ⟨(synced.follows s inShadows active.1 before).mirrors.congr rfl rfl, trivial⟩
    · rw [advanceShadow_idle active] at intact sound ⊢
      exact synced.follows s inShadows sound intact
  views := by
    intro row' member live join
    obtain ⟨row, inViews, ⟨rfl, _⟩ | ⟨rfl, wasLive, low⟩⟩ := Catalog.idleAdvance_row member
    · exact synced.views row' inViews live join
    · have settled := synced.views row inViews wasLive join
      have none : ∀ t ∈ h.commits, t.endLsn ≤ f → t.endLsn ≤ row.frontier := fun t inHistory below =>
        passed.views row inViews wasLive join t (List.mem_filter.mpr ⟨inHistory, decide_eq_true below⟩)
      refine ⟨settled.fits, ?_, fun b reads => ?_⟩
      · change ViewRow.Holds _ (h.asOf f)
        rw [← h.asOf_congr low.le none]
        exact settled.holds
      · exact (h.intact_congr low.le none b.oid (origin b.oid)).mp (settled.intact b reads)

theorem Catalog.Passed.idleAdvance {c : Catalog} {f : Nat} {ts : List BaseTransaction} (passed : c.Passed ts) :
    (c.idleAdvance f).Passed ts where
  views := by
    intro row' member live join t within
    obtain ⟨row, inViews, ⟨rfl, _⟩ | ⟨rfl, wasLive, low⟩⟩ := Catalog.idleAdvance_row member
    · exact passed.views row' inViews live join t within
    · exact (passed.views row inViews wasLive join t within).trans low.le
  shadows := by
    intro s' member sound t within
    obtain ⟨s, inShadows, rfl⟩ := List.mem_map.mp member
    rw [advanceShadow_failed] at sound
    have before := passed.shadows s inShadows sound t within
    by_cases active : s.Active f
    · rw [advanceShadow_active active]
      exact before.trans active.2.le
    · rwa [advanceShadow_idle active]

/-- Every live join view can take what the peek has for it: for a transaction past its
frontier the shadows show its tables as the transaction's rows are joined with them, or the
transaction inserts nothing into its tables and its other rows have been absorbed; and
`jsonb` carries the rows of its query before and after every change. -/
structure Catalog.Admits (h : History S) (cols : Nat → List String) (c : Catalog) (txs : List SourceTransaction) : Prop where
  reads : ∀ t ∈ h.commits, t.endLsn ∈ txs.map SourceTransaction.endLsn → ∀ row ∈ c.views, row.status = .live →
    row.spec.isJoin = true → row.frontier < t.endLsn →
    (LiveView.load row).Placed (Tracking.steady S cols) t.endLsn t.footprint (h.asOf (t.endLsn - 1)) c.shadows ∨
      (LiveView.load row).Behind t.endLsn t.footprint c.shadows
  carried : ∀ t ∈ h.commits, t.endLsn ∈ txs.map SourceTransaction.endLsn → ∀ row ∈ c.views, row.status = .live →
    row.spec.isJoin = true → row.frontier < t.endLsn → row.spec.CarriedRun S (h.asOf (t.endLsn - 1)) t.changes

section Since

variable {start st : RoundState} {done : List BaseTransaction} (since : start.Since done st)
  (keyed : Keyed ShadowRow.relid start.shadows) {t : BaseTransaction} (passed : ∀ u ∈ done, u.endLsn < t.endLsn)
include since passed

theorem RoundState.Since.rests {s : ShadowRow} (inStart : s ∈ start.shadows) (idle : ¬ s.Active t.endLsn) : s ∈ st.shadows := by
  obtain ⟨s', inState, after⟩ := mem_of_forall₂ since.shadows inStart
  have same := after.idle fun u member active => idle ⟨active.1, active.2.trans (passed u member)⟩
  rwa [same] at inState

include keyed in
/-- The shadows a view reads show its tables when the round comes to the transaction as they
did when it started. -/
theorem LiveView.Placed.still {v₀ v : LiveView} {footprint : Footprint} {db : Database} (same : v.row.spec = v₀.row.spec)
    (placed : v₀.Placed (Tracking.steady S cols) t.endLsn footprint db start.shadows) (member : v ∈ st.views) (owes : v.Owes t.endLsn) :
    v.Placed (Tracking.steady S cols) t.endLsn footprint db st.shadows := by
  intro b reads
  rcases placed b (same ▸ reads) with ⟨s, inStart, here, ⟨active, used⟩ | ⟨idle, untouched, rows⟩⟩ | alone
  · obtain ⟨s', inState, after, active'⟩ := since.active keyed passed member owes reads inStart here active
    exact Or.inl ⟨s', inState, after.relid.trans here, Or.inl ⟨active', used⟩⟩
  · exact Or.inl ⟨s, since.rests passed inStart idle, here, Or.inr ⟨idle, untouched, rows⟩⟩
  · exact Or.inr ⟨since.idle alone.1, same ▸ alone.2⟩

omit passed in
theorem LiveView.Behind.still {v₀ v : LiveView} {e : Nat} {footprint : Footprint} (same : v.row.spec = v₀.row.spec)
    (behind : v₀.Behind e footprint start.shadows) : v.Behind e footprint st.shadows := by
  intro b reads
  obtain ⟨noInsert, idle⟩ := behind b (same ▸ reads)
  exact ⟨noInsert, fun touched => since.idle (idle touched)⟩

end Since

/-- What the peek asks of the catalog is what the round finds when it comes to a transaction. -/
theorem Catalog.Admits.within {c : Catalog} {txs : List SourceTransaction} (admits : c.Admits h cols txs)
    (keyed : Keyed ShadowRow.relid c.shadows) {start st : RoundState} (starts : c.Starts start)
    {pre done rest : List BaseTransaction} {t : BaseTransaction} (split : h.commits = pre ++ done ++ t :: rest)
    (read : t.endLsn ∈ txs.map SourceTransaction.endLsn) (tx : SourceTransaction) (since : start.Since done st) :
    (Tracking.steady S cols).Admits (S.through h.start (pre ++ done)) t tx st := by
  have inHistory : t ∈ h.commits := split ▸ List.mem_append_right _ List.mem_cons_self
  have before : ∀ u ∈ pre ++ done, u.endLsn < t.endLsn := fun u member => h.before split member
  have loadedRow : ∀ v ∈ st.views, v.Owes t.endLsn → ∃ row ∈ c.views, row.status = .live ∧ row.spec.isJoin = true ∧
      row.frontier < t.endLsn ∧ v.row.spec = row.spec ∧ h.asOf (t.endLsn - 1) = S.through h.start (pre ++ done) := by
    intro v member owes
    obtain ⟨v₀, inStart, same, advanced⟩ := mem_of_forall₂_right since.views member
    obtain ⟨row, inCatalog, live, rfl⟩ := starts.join inStart (same.spec ▸ owes.join)
    have behind : row.frontier < t.endLsn := advanced.le.trans_lt owes.behind
    refine ⟨row, inCatalog, live, same.spec ▸ owes.join, behind, same.spec, h.asOf_before split (fun u within => ?_) (by omega)⟩
    have := before u within
    omega
  refine ⟨fun _ _ _ _ _ _ => trivial, fun v member owes => ?_, fun v member owes => ?_⟩
  · obtain ⟨row, inCatalog, live, join, behind, spec, asOf⟩ := loadedRow v member owes
    rw [spec, ← asOf]
    exact admits.carried t inHistory read row inCatalog live join behind
  · obtain ⟨row, inCatalog, live, join, behind, spec, asOf⟩ := loadedRow v member owes
    rw [← asOf]
    have reads := admits.reads t inHistory read row inCatalog live join behind
    rw [← starts.shadows] at reads keyed
    exact reads.imp
      (fun placed => LiveView.Placed.still since keyed (fun u member => before u (List.mem_append_right _ member)) spec placed member owes)
      fun late => LiveView.Behind.still since spec late

/-- What the worker has committed: the live join views hold their query as of their own
frontier, the maintained shadows their table on the columns `cols`, and neither misses a
transaction that the slot has let go. -/
structure Durable.Settled (h : History S) (cols : Nat → List String) (origin : Nat → Nat) (d : Durable) : Prop where
  synced : (Tracking.steady S cols).Synced h origin d.catalog
  views : ∀ confirmed, d.slot = some confirmed → ∀ row ∈ d.catalog.views, row.status = .live →
    ∀ t ∈ h.commits, t.endLsn ≤ confirmed → t.endLsn ≤ row.frontier
  shadows : ∀ confirmed, d.slot = some confirmed → ∀ s ∈ d.catalog.shadows, s.failed = false →
    ∀ t ∈ h.commits, t.endLsn ≤ confirmed → t.endLsn ≤ s.frontier

theorem Durable.Settled.passed {d : Durable} (settled : d.Settled h cols origin) {confirmed : Nat}
    (slot : d.slot = some confirmed) {pre : List BaseTransaction} (before : ∀ u ∈ pre, u ∈ h.commits ∧ u.endLsn ≤ confirmed) :
    d.catalog.Passed pre :=
  ⟨fun row member live _ u within => settled.views confirmed slot row member live u (before u within).1 (before u within).2,
    fun s member sound u within => settled.shadows confirmed slot s member sound u (before u within).1 (before u within).2⟩

theorem encodes_ends (sends : List.Forall₂ (TransactionEncodes S) h.commits stream) :
    List.Forall₂ (fun (t : BaseTransaction) tx => tx.endLsn = t.endLsn) h.commits stream := sends.imp fun _ _ sent => sent.1

theorem Peek.Reads.encoded (sends : List.Forall₂ (TransactionEncodes S) h.commits stream) {peek : Peek} {confirmed : Nat}
    (reads : peek.Reads stream confirmed) : ∃ pre ts rest, h.commits = pre ++ ts ++ rest ∧
      List.Forall₂ (TransactionEncodes S) ts peek.transactions ∧ (∀ u ∈ pre, u ∈ h.commits ∧ u.endLsn ≤ confirmed) ∧
      ∃ cut, (∀ tx ∈ peek.transactions, tx.endLsn ≤ cut) ∧ (peek.drained = true → peek.target ≤ cut) ∧
        ∀ t ∈ h.commits, t.endLsn ≤ max confirmed cut → t ∈ pre ++ ts := by
  obtain ⟨pre, batch, rest, cut, split, peeked, before, low, covered, drained⟩ := reads.pairs (encodes_ends sends)
  have firsts : h.commits = (pre ++ batch ++ rest).map Prod.fst := by
    rw [← split, List.map_fst_zip sends.length_eq.le]
  have within : ∀ u ∈ pre ++ batch, u ∈ h.commits.zip stream := fun u member => split ▸ List.mem_append_left _ member
  refine ⟨pre.map Prod.fst, batch.map Prod.fst, rest.map Prod.fst, ?_, ?_, ?_, cut, ?_, drained, ?_⟩
  · rw [firsts, List.map_append, List.map_append]
  · rw [peeked, List.forall₂_map_left_iff, List.forall₂_map_right_iff]
    exact List.forall₂_same.mpr fun u member =>
      (List.forall₂_iff_zip.mp sends).2 (within u (List.mem_append_right _ member))
  · intro t member
    obtain ⟨u, inPre, rfl⟩ := List.mem_map.mp member
    exact ⟨(List.of_mem_zip (within u (List.mem_append_left _ inPre))).1, before u inPre⟩
  · intro tx member
    rw [peeked] at member
    obtain ⟨u, inBatch, rfl⟩ := List.mem_map.mp member
    exact low u inBatch
  · intro t inHistory reached
    rw [← List.map_append]
    exact covered t inHistory reached

/-- In the round over `txs` the view is `v` when the changes of `tx` have been planned, and
it absorbs `tx`. -/
inductive TakesIn (pf : Platform) (settings : Settings) (faults : Faults) (cache : Nat → Option Relation) (c : Catalog)
    (txs : List SourceTransaction) (tx : SourceTransaction) (v : LiveView) : Prop where
  | intro {cache' : Nat → Option Relation} {rels : List (Nat × Relation)} {before after : List SourceTransaction}
      {st planned : RoundState} {blockedAt : Option Nat}
      (described : collectRelations pf (changedRelids txs) cache [] = .ok (cache', rels))
      (split : txs = before ++ tx :: after)
      (reached : applyTransactions pf settings faults rels 0 before
        (rels.foldl (driftRelation ((txs.getLast?.map SourceTransaction.endLsn).getD 0)) ⟨c.liveViews, c.shadows⟩) =
          .ok (st, blockedAt))
      (planning : applyChanges pf faults rels tx.endLsn 0 tx.changes st = .ok planned) (member : v ∈ planned.views)
      (behind : v.frontier < tx.endLsn) (absorbed : (executeView pf settings faults tx v).frontier = tx.endLsn) :
      TakesIn pf settings faults cache c txs tx v

section Round

variable (sends : List.Forall₂ (TransactionEncodes S) h.commits stream) {c : Catalog} {confirmed : Nat} {peek : Peek}
  {cache : Nat → Option Relation}
include sends

theorem encodes_ordered : stream.Pairwise fun t u => t.endLsn < u.endLsn := by
  have ordered := List.pairwise_map.mpr h.increasing
  rw [← map_eq_of_forall₂ sends fun _ _ sent => sent.1] at ordered
  exact List.pairwise_map.mp ordered

theorem safe_iff {row : ViewRow} {reach : Nat} :
    (∀ x ∈ stream.map SourceTransaction.endLsn, x ≤ reach → x ≤ row.frontier) ↔
      ∀ t ∈ h.commits, t.endLsn ≤ reach → t.endLsn ≤ row.frontier := by
  rw [map_eq_of_forall₂ sends fun _ _ sent => sent.1, List.forall_mem_map]

/-- Before a round every live view has absorbed what the slot has let go. -/
theorem Durable.Settled.once (settled : Durable.Settled h cols origin ⟨c, some confirmed⟩) :
    ∃ ledger : Nat → Absorption, Durable.ExactlyOnce (stream.map SourceTransaction.endLsn) ledger confirmed ⟨c, some confirmed⟩ := by
  refine ⟨fun id => ⟨((c.views.find? (·.id = id)).map ViewRow.frontier).getD 0, []⟩, rfl, settled.synced.ids, ?_⟩
  intro row member live
  have found : c.views.find? (·.id = row.id) = some row := settled.synced.ids.find_of_mem member
  have start : ((c.views.find? (·.id = row.id)).map ViewRow.frontier).getD 0 = row.frontier := by
    rw [found, Option.map_some, Option.getD_some]
  refine ⟨start.le, ?_, (safe_iff sends).mpr (settled.views confirmed rfl row member live)⟩
  show [] = window _ _ row.frontier
  rw [start, window_self]

/-- The states in which a drained round moves the slot, and then the frontiers. -/
theorem Durable.Settled.idle {slot lastEnd : Nat} {d' : Durable} (synced : (Tracking.steady S cols).Synced h origin c)
    (caught : ∀ s ∈ c.shadows, s.failed = false → ∀ t ∈ h.commits, peek.drained = true → t.endLsn ≤ max (max peek.target lastEnd) slot →
      t.endLsn ≤ s.frontier)
    (once : ∀ d'' ∈ Durable.idle ⟨c, some slot⟩ peek lastEnd, ∃ ledger moved,
      d''.ExactlyOnce (stream.map SourceTransaction.endLsn) ledger moved)
    (state : d' ∈ Durable.idle ⟨c, some slot⟩ peek lastEnd) : d'.Settled h cols origin := by
  have safe : ∀ d'' ∈ Durable.idle ⟨c, some slot⟩ peek lastEnd, ∀ moved, d''.slot = some moved →
      ∀ row ∈ d''.catalog.views, row.status = .live → ∀ t ∈ h.commits, t.endLsn ≤ moved → t.endLsn ≤ row.frontier := by
    intro d'' member moved at_ row inViews live
    obtain ⟨ledger, moved', once'⟩ := once d'' member
    obtain rfl := Option.some.inj (once'.slot.symm.trans at_)
    exact (safe_iff sends).mp (once'.views row inViews live).safe
  unfold Durable.idle at state safe
  by_cases drained : peek.drained = true
  · simp only [if_pos drained, List.mem_cons, List.not_mem_nil, or_false, forall_eq_or_imp, forall_eq] at state safe
    obtain ⟨safeFirst, safeSecond⟩ := safe
    have first : Durable.Settled h cols origin (Durable.advanceSlot ⟨c, some slot⟩ (max peek.target lastEnd)) := by
      refine ⟨synced, safeFirst, ?_⟩
      rintro moved at_ s member sound t inHistory low
      obtain rfl := Option.some.inj at_
      exact caught s member sound t inHistory drained low
    rcases state with rfl | rfl
    · exact first
    · have passed : c.Passed (h.commits.filter (·.endLsn ≤ max peek.target lastEnd)) := by
        refine first.passed rfl fun u member => ?_
        rw [List.mem_filter, decide_eq_true_eq] at member
        exact ⟨member.1, member.2.trans (le_max_left _ _)⟩
      refine ⟨synced.idleAdvance passed, safeSecond, ?_⟩
      intro moved at_ s member sound t inHistory low
      have all : (c.idleAdvance (max peek.target lastEnd)).Passed (h.commits.filter (·.endLsn ≤ moved)) := by
        refine Catalog.Passed.idleAdvance (first.passed at_ fun u within => ?_)
        rwa [List.mem_filter, decide_eq_true_eq] at within
      exact all.shadows s member sound t (List.mem_filter.mpr ⟨inHistory, decide_eq_true low⟩)
  · rw [if_neg drained] at state
    exact absurd state List.not_mem_nil

/-- What a round leaves of a shadow: all of its columns, and it goes no further than the
transactions of the peek. -/
structure ShadowRow.Goes (h : History S) (ends : List Nat) (s s' : ShadowRow) : Prop where
  relid : s'.relid = s.relid
  columns : s'.columns = s.columns
  types : s'.columnTypes = s.columnTypes
  alive : s'.failed = false → s.failed = false
  reach : ∀ t ∈ h.commits, t.endLsn ≤ s'.frontier → t.endLsn ≤ s.frontier ∨ t.endLsn ∈ ends

omit sends in
theorem ShadowRow.Goes.refl (h : History S) (ends : List Nat) (s : ShadowRow) : s.Goes h ends s :=
  ⟨rfl, rfl, rfl, id, fun _ _ => Or.inl⟩

omit sends in
/-- A shadow that absorbed transactions up to `cut` went over none that it or the peek misses. -/
theorem ShadowRow.Since.goes {ts : List BaseTransaction} {ends : List Nat} {cut : Nat} {s s' : ShadowRow} (since : s.Since ts s')
    (low : ∀ u ∈ ts, u.endLsn ≤ cut)
    (reach : s.failed = false → ∀ t ∈ h.commits, t.endLsn ≤ cut → t.endLsn ≤ s.frontier ∨ t.endLsn ∈ ends) : s.Goes h ends s' := by
  by_cases failed : s.failed = true
  · rw [since.failed failed]
    exact .refl h ends s
  rw [Bool.not_eq_true] at failed
  refine ⟨since.relid, since.columns, since.types, fun _ => failed, fun t inHistory below => ?_⟩
  rcases since.frontier with same | ⟨_, u, within, atEnd⟩
  · exact Or.inl (same ▸ below)
  · exact reach failed t inHistory (below.trans (atEnd ▸ low u within))

omit sends in
theorem Durable.idle_shadows {slot : Option Nat} {lastEnd : Nat} {d' : Durable} (state : d' ∈ Durable.idle ⟨c, slot⟩ peek lastEnd) :
    ∀ s' ∈ d'.catalog.shadows, s' ∈ c.shadows ∨ (peek.drained = true ∧
      ∃ s ∈ c.shadows, s.Active (max peek.target lastEnd) ∧ s' = { s with frontier := max peek.target lastEnd }) := by
  unfold Durable.idle at state
  by_cases drained : peek.drained = true
  · simp only [if_pos drained, List.mem_cons, List.not_mem_nil, or_false] at state
    rcases state with rfl | rfl
    · exact fun s' member => Or.inl member
    · intro s' member
      obtain ⟨s, inShadows, rfl⟩ := List.mem_map.mp member
      by_cases active : s.Active (max peek.target lastEnd)
      · exact Or.inr ⟨drained, s, inShadows, active, advanceShadow_active active⟩
      · rw [advanceShadow_idle active]
        exact Or.inl inShadows
  · rw [if_neg drained] at state
    exact absurd state List.not_mem_nil

omit sends in
/-- A slot that is dropped for its lag leaves no position to settle. -/
theorem Durable.Settled.lagged {d' : Durable} (settled : Durable.Settled h cols origin ⟨c, some confirmed⟩)
    (exceeded : settings.maxSlotLagBytes < peek.lag) (state : d' ∈ runRound pf settings faults cache peek ⟨c, some confirmed⟩) (ends : List Nat) :
    d'.Settled h cols origin ∧ ∀ s' ∈ d'.catalog.shadows, ∃ s ∈ c.shadows, s.Goes h ends s' := by
  simp only [runRound, if_pos exceeded, List.mem_cons, List.not_mem_nil, or_false] at state
  rcases state with rfl | rfl
  · exact ⟨⟨settled.synced, by rintro _ ⟨⟩, by rintro _ ⟨⟩⟩, fun s member => ⟨s, member, .refl h _ s⟩⟩
  · refine ⟨⟨⟨?_, settled.synced.keyed, settled.synced.fits, settled.synced.since, settled.synced.follows, ?_⟩,
      by rintro _ ⟨⟩, by rintro _ ⟨⟩⟩, fun s member => ⟨s, member, .refl h _ s⟩⟩
    · rw [Keyed, map_eq_of_forall₂ c.markLagged_views fun _ _ row => row.1]
      exact settled.synced.ids
    · exact fun row' member live => absurd live (c.markLagged_noneLive row' member)

/-- A round that reads no complete transaction moves the slot and the frontiers alone. -/
theorem Durable.Settled.quiet {d' : Durable} (settled : Durable.Settled h cols origin ⟨c, some confirmed⟩) (reads : peek.Reads stream confirmed)
    (empty : peek.transactions = []) (state : d' ∈ Durable.idle ⟨c, some confirmed⟩ peek confirmed) (ends : List Nat) :
    d'.Settled h cols origin ∧ ∀ s' ∈ d'.catalog.shadows, ∃ s ∈ c.shadows, s.Goes h ends s' := by
  obtain ⟨pre, ts, rest, split, encodes, before, cut, _, drained, covered⟩ := reads.encoded sends
  have passed := settled.passed rfl before
  obtain ⟨ledger, once⟩ := settled.once sends
  obtain rfl : ts = [] := by
    rw [empty] at encodes
    exact List.forall₂_nil_right_iff.mp encodes
  have listed : peek.drained = true → ∀ t ∈ h.commits, t.endLsn ≤ max peek.target confirmed → t ∈ pre := by
    intro isDrained t inHistory reached
    have listed := covered t inHistory (reached.trans (max_le ((drained isDrained).trans (le_max_right _ _)) (le_max_left _ _)))
    rwa [List.append_nil] at listed
  refine ⟨.idle sends settled.synced ?_ (fun d'' member => ⟨ledger, once.quiet reads empty member⟩) state, fun s' member => ?_⟩
  · intro s member sound t inHistory isDrained reached
    refine passed.shadows s member sound t (listed isDrained t inHistory (reached.trans ?_))
    exact max_le (max_le (le_max_left _ _) (le_max_right _ _)) (le_max_right _ _)
  · rcases Durable.idle_shadows state s' member with same | ⟨isDrained, s, inShadows, active, rfl⟩
    · exact ⟨s', same, .refl h _ s'⟩
    · exact ⟨s, inShadows, rfl, rfl, rfl, fun _ => active.1, fun t inHistory below =>
        Or.inl (passed.shadows s inShadows active.1 t (listed isDrained t inHistory below))⟩

/-- What an applied round leaves of the catalog when the peek has everything up to `cut`: the
sound shadows are there, and none went over a transaction that it or the peek misses. -/
structure Catalog.CaughtUp (h : History S) (cols : Nat → List String) (origin : Nat → Nat) (ends : List Nat) (cut : Nat) (c c' : Catalog) : Prop where
  synced : (Tracking.steady S cols).Synced h origin c'
  caught : ∀ s ∈ c'.shadows, s.failed = false → ∀ t ∈ h.commits, t.endLsn ≤ cut → t.endLsn ≤ s.frontier
  goes : ∀ s' ∈ c'.shadows, ∃ s ∈ c.shadows, s.Goes h ends s'
  reach : ∀ s ∈ c.shadows, s.failed = false → ∀ t ∈ h.commits, t.endLsn ≤ cut → t.endLsn ≤ s.frontier ∨ t.endLsn ∈ ends

theorem Durable.Settled.applied (settled : Durable.Settled h cols origin ⟨c, some confirmed⟩) (reads : peek.Reads stream confirmed)
    (described : ∀ r ∈ changedRelids peek.transactions, Described S cache r) (admits : c.Admits h cols peek.transactions) {result : RoundResult}
    (applied : applyRound pf settings faults cache c peek.transactions = .ok result) :
    ∃ cut, (∀ tx ∈ peek.transactions, tx.endLsn ≤ cut) ∧ (peek.drained = true → peek.target ≤ cut) ∧
      c.CaughtUp h cols origin (peek.transactions.map SourceTransaction.endLsn) (max confirmed cut) result.catalog := by
  obtain ⟨pre, ts, rest, split, encodes, before, cut, low, drained, covered⟩ := reads.encoded sends
  have passed := settled.passed rfl before
  have ends : ∀ t ∈ ts, t.endLsn ∈ peek.transactions.map SourceTransaction.endLsn := by
    intro t member
    obtain ⟨tx, within, sent⟩ := mem_of_forall₂ encodes member
    exact sent.1 ▸ List.mem_map_of_mem within
  have reach : ∀ s ∈ c.shadows, s.failed = false → ∀ t ∈ h.commits, t.endLsn ≤ max confirmed cut →
      t.endLsn ≤ s.frontier ∨ t.endLsn ∈ peek.transactions.map SourceTransaction.endLsn := by
    intro s member sound t inHistory reached
    rcases List.mem_append.mp (covered t inHistory reached) with inPre | inPeek
    · exact Or.inl (passed.shadows s member sound t inPre)
    · exact Or.inr (ends t inPeek)
  have admitted : ∀ start done t tx st, c.Starts start → (t, tx) ∈ ts.zip peek.transactions → (∃ todo, ts = done ++ t :: todo) →
      start.Since done st → (Tracking.steady S cols).Between h origin (pre ++ done) st →
      (Tracking.steady S cols).Admits (S.through h.start (pre ++ done)) t tx st := by
    rintro start done t tx st starts paired ⟨todo, rfl⟩ since _
    have splitT : h.commits = pre ++ done ++ t :: (todo ++ rest) := by
      rw [split]
      simp only [List.append_assoc, List.cons_append]
    refine admits.within settled.synced.keyed starts splitT ?_ tx since
    rw [← (List.forall₂_iff_zip.mp encodes).2 paired |>.1]
    exact List.mem_map_of_mem (List.of_mem_zip paired).2
  obtain ⟨synced, _, start, st, written, starts, since, between, _, catalog, _⟩ :=
    settled.synced.round passed split (Tracking.steady_advances cols h) encodes described admitted applied
  have shadows : result.catalog.shadows = st.shadows := by rw [catalog, Catalog.writeBack]
  refine ⟨cut, low, drained, synced, ?_, ?_, reach⟩
  · intro s member sound t inHistory reached
    rw [shadows] at member
    exact between.passed s member sound t (covered t inHistory reached)
  · intro s' member
    rw [shadows] at member
    obtain ⟨s, inStart, after⟩ := mem_of_forall₂_right since.shadows member
    rw [starts.shadows] at inStart
    refine ⟨s, inStart, after.goes (fun u inPeek => ?_) fun sound t inHistory low => reach s inStart sound t inHistory
      (low.trans (le_max_right _ _))⟩
    obtain ⟨tx, within, sent⟩ := mem_of_forall₂ encodes inPeek
    exact sent.1 ▸ low tx within

/-- Every state that an applied round goes through is settled. -/
theorem Catalog.CaughtUp.settled {d' : Durable} {last : SourceTransaction} {result : RoundResult} {cut : Nat}
    (caughtUp : c.CaughtUp h cols origin (peek.transactions.map SourceTransaction.endLsn) (max confirmed cut) result.catalog)
    (low : ∀ tx ∈ peek.transactions, tx.endLsn ≤ cut) (drained : peek.drained = true → peek.target ≤ cut)
    (final : peek.transactions.getLast? = some last)
    (moves : ∀ d'', RoundStates result peek confirmed last d'' → ∃ ledger moved, d''.ExactlyOnce (stream.map SourceTransaction.endLsn) ledger moved)
    (states : RoundStates result peek confirmed last d') :
    d'.Settled h cols origin ∧
      ∀ s' ∈ d'.catalog.shadows, ∃ s ∈ c.shadows, s.Goes h (peek.transactions.map SourceTransaction.endLsn) s' := by
  have here : ∀ moved, d'.slot = some moved →
      ∀ row ∈ d'.catalog.views, row.status = .live → ∀ t ∈ h.commits, t.endLsn ≤ moved → t.endLsn ≤ row.frontier := by
    intro moved at_ row inViews live
    obtain ⟨ledger', moved', once'⟩ := moves d' states
    obtain rfl := Option.some.inj (once'.slot.symm.trans at_)
    exact (safe_iff sends).mp (once'.views row inViews live).safe
  have lastLow := (low last (List.mem_of_getLast? final)).trans (le_max_right confirmed cut)
  have reached : ∀ {moved}, moved ≤ max confirmed cut → ∀ confirmed', some moved = some confirmed' →
      ∀ s ∈ result.catalog.shadows, s.failed = false → ∀ t ∈ h.commits, t.endLsn ≤ confirmed' → t.endLsn ≤ s.frontier := by
    rintro moved le confirmed' same s member sound t inHistory below
    obtain rfl := Option.some.inj same
    exact caughtUp.caught s member sound t inHistory (below.trans le)
  cases states with
  | committed => exact ⟨⟨caughtUp.synced, here, reached (le_max_left _ _)⟩, caughtUp.goes⟩
  | @held k tx blocked earlier =>
      have txLow := (low tx (List.mem_of_getElem? earlier)).trans (le_max_right confirmed cut)
      exact ⟨⟨caughtUp.synced, here, reached (max_le txLow (le_max_left _ _))⟩, caughtUp.goes⟩
  | advanced free => exact ⟨⟨caughtUp.synced, here, reached (max_le (max_le (le_max_left _ _) lastLow) (le_max_left _ _))⟩, caughtUp.goes⟩
  | idle free inIdle =>
      have lastBelow : max confirmed last.endLsn ≤ max confirmed cut := max_le (le_max_left _ _) lastLow
      have idleLow : peek.drained = true → max peek.target (max confirmed last.endLsn) ≤ max confirmed cut := fun isDrained =>
        max_le ((drained isDrained).trans (le_max_right _ _)) lastBelow
      refine ⟨.idle sends caughtUp.synced ?_ (fun d'' member => moves d'' (.idle free member)) inIdle, fun s' member => ?_⟩
      · intro s member sound t inHistory isDrained below
        exact caughtUp.caught s member sound t inHistory (below.trans (max_le (idleLow isDrained) (max_le lastBelow (le_max_left _ _))))
      · rcases Durable.idle_shadows inIdle s' member with same | ⟨isDrained, s₁, inResult, active, rfl⟩
        · exact caughtUp.goes s' same
        · obtain ⟨s, inShadows, went⟩ := caughtUp.goes s₁ inResult
          exact ⟨s, inShadows, went.relid, went.columns, went.types, fun _ => went.alive active.1, fun t inHistory below =>
            caughtUp.reach s inShadows (went.alive active.1) t inHistory (below.trans (idleLow isDrained))⟩

/-- Whatever fails in a round, each of the states it goes through is settled. -/
theorem Durable.Settled.round {d d' : Durable} (settled : d.Settled h cols origin) (slot : d.slot = some confirmed)
    (reads : peek.Reads stream confirmed) (described : ∀ r ∈ changedRelids peek.transactions, Described S cache r)
    (admits : d.catalog.Admits h cols peek.transactions) (state : d' ∈ runRound pf settings faults cache peek d) :
    d'.Settled h cols origin ∧
      ∀ s' ∈ d'.catalog.shadows, ∃ s ∈ d.catalog.shadows, s.Goes h (peek.transactions.map SourceTransaction.endLsn) s' := by
  obtain ⟨c, _⟩ := d
  obtain rfl : _ = some confirmed := slot
  by_cases lag : peek.lag ≤ settings.maxSlotLagBytes
  case neg => exact settled.lagged (not_le.mp lag) state _
  rcases mem_runRound lag state with ⟨empty, state⟩ | ⟨last, result, final, applied, states⟩
  · exact settled.quiet sends reads empty state _
  · obtain ⟨cut, low, drained, caughtUp⟩ := settled.applied sends reads described admits applied
    obtain ⟨ledger, once⟩ := settled.once sends
    have ordered := encodes_ordered sends
    exact caughtUp.settled sends low drained final (fun d'' states => ⟨_, once.committed ordered reads final applied states⟩) states

/-- A join view that absorbs a transaction in the round: its planned rows are the join deltas
over the tables as they were at each change, and it holds its query after them. -/
theorem Durable.Settled.absorbs (settled : Durable.Settled h cols origin ⟨c, some confirmed⟩)
    (reads : peek.Reads stream confirmed) (described : ∀ r ∈ changedRelids peek.transactions, Described S cache r)
    (admits : c.Admits h cols peek.transactions) {tx : SourceTransaction} {v : LiveView}
    (absorbs : TakesIn pf settings faults cache c peek.transactions tx v) (join : v.row.spec.isJoin = true) :
    ∃ t ∈ h.commits, tx.endLsn = t.endLsn ∧ v.row.spec.Evaluated S (h.asOf (t.endLsn - 1)) t.changes v.ops ∧
      (executeView pf settings faults tx v).row.Holds (h.asOf t.endLsn) := by
  obtain ⟨pre, ts, rest, split, encodes, before, _⟩ := reads.encoded sends
  have passed := settled.passed rfl before
  obtain ⟨cache', rels, collected, known, _, starts, between⟩ := settled.synced.begins passed described
  obtain ⟨described', cut, reached, planning, inPlanned, behind, absorbed⟩ := absorbs
  obtain ⟨rfl, rfl⟩ := Prod.mk.inj (Except.ok.inj (collected.symm.trans described'))
  generalize rels.foldl (driftRelation ((peek.transactions.getLast?.map SourceTransaction.endLsn).getD 0))
    ⟨c.liveViews, c.shadows⟩ = start at starts between reached
  rw [cut] at encodes
  obtain ⟨done, t, todo, rfl, earlier, encodesT, later⟩ := forall₂_split encodes
  have endLsn := encodesT.1
  have splitT : h.commits = pre ++ done ++ t :: (todo ++ rest) := by
    rw [split]
    simp only [List.append_assoc, List.cons_append]
  have asked : ∀ {u ux}, (u, ux) ∈ (done ++ t :: todo).zip peek.transactions → u.endLsn ∈ peek.transactions.map SourceTransaction.endLsn := by
    intro u ux paired
    rw [cut] at paired ⊢
    rw [← ((List.forall₂_iff_zip.mp encodes).2 paired).1]
    exact List.mem_map_of_mem (List.of_mem_zip paired).2
  have admitted : ∀ done' u ux st', (u, ux) ∈ (done ++ t :: todo).zip peek.transactions →
      (∃ todo', done ++ t :: todo = done' ++ u :: todo') → start.Since done' st' →
      (Tracking.steady S cols).Admits (S.through h.start (pre ++ done')) u ux st' := by
    rintro done' u ux st' paired ⟨todo', eq⟩ since
    have splitU : h.commits = pre ++ done' ++ u :: (todo' ++ rest) := by
      rw [split, eq]
      simp only [List.append_assoc, List.cons_append]
    exact admits.within settled.synced.keyed starts splitU (asked paired) ux since
  rw [← List.append_nil pre] at between
  obtain ⟨st', blockedAt', ran, between', since, _⟩ := between.applyTransactions (RoundState.Since.refl start)
    (show h.commits = pre ++ [] ++ done ++ (t :: (todo ++ rest)) by rwa [List.append_nil])
    (Tracking.steady_advances cols h) earlier settings faults 0
    (fun ux member => known ux (cut ▸ List.mem_append_left _ member))
    (by
      rintro done' u ux st' paired ⟨todo', eq⟩ since between'
      refine admitted done' u ux st' ?_ ⟨todo' ++ t :: todo, ?_⟩ since
      · rw [cut, List.zip_append earlier.length_eq]
        exact List.mem_append_left _ paired
      · rw [List.nil_append] at eq
        rw [eq, List.append_assoc, List.cons_append])
  obtain ⟨rfl, -⟩ := Prod.mk.inj (Except.ok.inj (ran.symm.trans reached))
  rw [List.append_nil] at between'
  rw [List.nil_append] at since
  have here := admitted done t tx st' (by
    rw [cut, List.zip_append earlier.length_eq, List.zip_cons_cons]
    exact List.mem_append_right _ List.mem_cons_self) ⟨todo, rfl⟩ since
  obtain ⟨ok, valid⟩ := h.valid_at splitT
  obtain ⟨planned', planning', kept, plans, inside, _⟩ := (between'.inside splitT here.reads).applyChanges faults 0 ok valid
    t.footprint_covers encodesT.2 here.permits here.carried (known tx (cut ▸ List.mem_append_right _ List.mem_cons_self))
  rw [endLsn] at planning behind absorbed
  obtain rfl := Except.ok.inj (planning'.symm.trans planning)
  have owes : v.Owes t.endLsn := executeView_owes join behind absorbed
  obtain ⟨v₀, inState, plannedOps, same⟩ := mem_of_forall₂_right (forall₂_both plans kept.views) inPlanned
  obtain ⟨ops, eq, evaluated⟩ := plannedOps owes
  have fresh : v₀.ops = [] := (between'.views v₀ inState (same.row ▸ join)).ops (same.owes owes).alive
  rw [fresh, List.nil_append] at eq
  have asOf : h.asOf (t.endLsn - 1) = S.through h.start (pre ++ done) := by
    refine h.asOf_before splitT (fun u within => ?_) (by omega)
    have := h.before splitT within
    omega
  refine ⟨t, splitT ▸ List.mem_append_right _ List.mem_cons_self, endLsn, ?_, ?_⟩
  · rw [asOf, eq, same.row]
    exact evaluated
  · rw [h.asOf_through splitT]
    exact inside.executeView_holds settings faults endLsn inPlanned join behind absorbed

end Round

/-- A run of worker rounds over the stream, with any settings, any failures and a crash after
any statement in each; every round meets the condition on the catalog and its peek. -/
inductive Retrying (S : Schema pf) (stream : List SourceTransaction) (meets : Catalog → List SourceTransaction → Prop)
    (d₀ : Durable) : Durable → Prop where
  | start : Retrying S stream meets d₀ d₀
  | round {settings : Settings} {faults : Faults} {cache : Nat → Option Relation} {peek : Peek} {confirmed : Nat} {d d' : Durable}
      (run : Retrying S stream meets d₀ d) (slot : d.slot = some confirmed) (reads : peek.Reads stream confirmed)
      (described : ∀ r ∈ changedRelids peek.transactions, Described S cache r) (met : meets d.catalog peek.transactions)
      (state : d' ∈ runRound pf settings faults cache peek d) : Retrying S stream meets d₀ d'

theorem Retrying.settled {d₀ d : Durable} (sends : List.Forall₂ (TransactionEncodes S) h.commits stream)
    (starts : d₀.Settled h cols origin) (run : Retrying S stream (Catalog.Admits h cols) d₀ d) : d.Settled h cols origin := by
  induction run with
  | start => exact starts
  | round _ slot reads described met state before => exact (before.round sends slot reads described met state).1

/-- However often planning and executing fail, every live join view holds its query as of its
own position, and a transaction that it absorbs in the next round is evaluated as of the
transaction's, as long as every round finds the shadows where its transactions need them. -/
theorem Retrying.evaluated {d₀ d : Durable} (sends : List.Forall₂ (TransactionEncodes S) h.commits stream)
    (starts : d₀.Settled h cols origin) (run : Retrying S stream (Catalog.Admits h cols) d₀ d) :
    (∀ row ∈ d.catalog.views, row.status = .live → row.spec.isJoin = true → row.Holds (h.asOf row.frontier)) ∧
      ∀ {settings : Settings} {faults : Faults} {cache : Nat → Option Relation} {peek : Peek} {confirmed : Nat}
        {tx : SourceTransaction} {v : LiveView}, d.slot = some confirmed → peek.Reads stream confirmed →
        (∀ r ∈ changedRelids peek.transactions, Described S cache r) → d.catalog.Admits h cols peek.transactions →
        TakesIn pf settings faults cache d.catalog peek.transactions tx v → v.row.spec.isJoin = true →
        ∃ t ∈ h.commits, tx.endLsn = t.endLsn ∧ v.row.spec.Evaluated S (h.asOf (t.endLsn - 1)) t.changes v.ops ∧
          (executeView pf settings faults tx v).row.Holds (h.asOf t.endLsn) := by
  have settled := run.settled sends starts
  refine ⟨fun row member live join => (settled.synced.views row member live join).holds, ?_⟩
  intro settings faults cache peek confirmed tx v slot reads described admits takes join
  obtain ⟨c, _⟩ := d
  obtain rfl : _ = some confirmed := slot
  exact settled.absorbs sends reads described admits takes join

/-- A catalog in step with the base tables, where the slot has let go nothing beyond them. -/
theorem Catalog.InStep.settled {db : Database} {p confirmed : Nat} {c : Catalog} (inStep : c.InStep S db p) (h : History S)
    (start : h.start = db) (later : ∀ t ∈ h.commits, p < t.endLsn) (held : confirmed ≤ p) :
    Durable.Settled h c.activeColumns (fun _ => p) ⟨c, some confirmed⟩ := by
  have beyond : ∀ t ∈ h.commits, ∀ confirmed', some confirmed = some confirmed' → ¬ t.endLsn ≤ confirmed' := by
    rintro t member _ ⟨⟩ low
    have := later t member
    omega
  exact ⟨inStep.synced h start later, fun _ at_ _ _ _ t member low => absurd low (beyond t member _ at_),
    fun _ at_ _ _ _ t member low => absurd low (beyond t member _ at_)⟩

def waitingOrder : BaseRow := shopRow (.text "o") (.text "c") .null
def waitingCustomer : BaseRow := shopRow (.text "c") .null .null

def waitingStream : List SourceTransaction :=
  [⟨1, 9, 10, [.insert 1 (encodeRow .basic (shopRelation 1) waitingOrder)]⟩,
    ⟨2, 19, 20, [.insert 2 (encodeRow .basic (shopRelation 2) waitingCustomer)]⟩]

def waitingHistory : History shop where
  start := fun _ => []
  commits := [⟨10, [.insert 1 waitingOrder]⟩, ⟨20, [.insert 2 waitingCustomer]⟩]
  ok := shop_ok
  increasing := by decide
  valid := ⟨⟨shopRow_ok 1 ⟨"o", rfl⟩ (Or.inr rfl) (Or.inl rfl), List.not_mem_nil⟩,
    ⟨shopRow_ok 2 ⟨"c", rfl⟩ (Or.inl rfl) (Or.inl rfl), List.not_mem_nil⟩, trivial⟩

theorem waiting_sends : List.Forall₂ (TransactionEncodes shop) waitingHistory.commits waitingStream :=
  .cons ⟨rfl, .cons .insert .nil⟩ (.cons ⟨rfl, .cons .insert .nil⟩ .nil)

theorem waiting_settled : Durable.Settled waitingHistory shopCatalog.activeColumns (fun _ => 0) ⟨shopCatalog, some 0⟩ := by
  refine shopCatalog_inStep.settled waitingHistory rfl ?_ (Nat.le_refl 0)
  intro t member
  simp only [waitingHistory, List.mem_cons, List.not_mem_nil, or_false] at member
  rcases member with rfl | rfl <;> decide

def waitingFaults : Faults := { Faults.none with plan := fun view endLsn _ _ => if view = 7 ∧ endLsn = 10 then some "lock timeout" else none }

/-- The shop after a round that blocked the view at the order, its shadows at `frontier`. -/
def waitingCatalog (frontier : Nat) (orders customers : List BaseRow) : Catalog :=
  { shopCatalog with
    views := [{ shopView 0 [] with lastError := some "lock timeout", applyFailures := 1 }]
    shadows := [shopShadow 1 frontier ["id", "ref", "doc"] ["text", "text", "jsonb"] orders,
      shopShadow 2 frontier ["id"] ["text"] customers] }

/-- A view that waits at the order while its shadows take the customer in joins the two at
the order's position, where there is no customer yet. -/
theorem waiting_ahead : ¬ ∀ {h : History shop} {stream : List SourceTransaction} {cols : Nat → List String} {origin : Nat → Nat}
    {d₀ d : Durable}, List.Forall₂ (TransactionEncodes shop) h.commits stream → d₀.Settled h cols origin →
    Retrying shop stream (fun _ _ => True) d₀ d →
    ∀ row ∈ d.catalog.views, row.status = .live → row.spec.isJoin = true → row.Holds (h.asOf row.frontier) := by
  intro claim
  obtain ⟨d₁, d₂, row, failed, slot, retried, views, live, spec, frontier, storage⟩ : ∃ d₁ d₂ row,
      d₁ ∈ runRound .basic shopSettings waitingFaults (some ∘ shopRelation) ⟨0, 22, waitingStream, true, false⟩ ⟨shopCatalog, some 0⟩ ∧
      d₁.slot = some 0 ∧
      d₂ ∈ runRound .basic shopSettings Faults.none (some ∘ shopRelation) ⟨0, 22, waitingStream, true, false⟩ d₁ ∧
      d₂.catalog.views = [row] ∧ row.status = .live ∧ row.spec = shopSpec ∧ row.frontier = 10 ∧
      row.storage = [[("id", .text "o"), ("customer", .text "c"), ("doc", .null)]] :=
    ⟨_, _, _, List.mem_of_getElem? (i := 0) rfl, rfl, List.mem_of_getElem? (i := 0) rfl, rfl, rfl, rfl, rfl, rfl⟩
  have peeked : Peek.Reads waitingStream 0 ⟨0, 22, waitingStream, true, false⟩ := ⟨22, rfl, fun _ => le_refl 22⟩
  have described : ∀ r ∈ changedRelids waitingStream, Described shop (some ∘ shopRelation) r := fun r _ => shop_described r
  have run : Retrying shop waitingStream (fun _ _ => True) ⟨shopCatalog, some 0⟩ d₂ :=
    .round (.round .start rfl peeked described trivial failed) slot peeked described trivial retried
  have holds := claim waiting_sends waiting_settled run row (views ▸ List.mem_singleton_self row) live (by rw [spec]; rfl)
  rw [ViewRow.Holds, spec, frontier, storage] at holds
  have query : shopSpec.output (shopSpec.contents (shopSpec.tablesOf (waitingHistory.asOf 10))) = [] := rfl
  rw [query] at holds
  exact List.cons_ne_nil _ _ holds.eq_nil

theorem waiting_fresh {frontier e : Nat} {orders customers : List BaseRow} {v : LiveView} (low : frontier < e) (spec : v.row.spec = shopSpec) :
    v.Fresh (Tracking.steady shop shopCatalog.activeColumns) e (waitingCatalog frontier orders customers).shadows := by
  intro b reads
  rw [spec] at reads
  simp only [shopSpec, List.mem_cons, List.not_mem_nil, or_false] at reads
  rcases reads with rfl | rfl
  · exact ⟨_, List.mem_cons_self, rfl, ⟨rfl, low⟩, List.Subset.refl _⟩
  · exact ⟨_, List.mem_cons_of_mem _ List.mem_cons_self, rfl, ⟨rfl, low⟩, List.Subset.refl _⟩

/-- After the order has gone into its shadow the order alone can still be joined with the
customers, which it does not touch. -/
theorem waiting_placed {orders : List BaseRow} {v : LiveView} (spec : v.row.spec = shopSpec) :
    v.Placed (Tracking.steady shop shopCatalog.activeColumns) 10 (BaseTransaction.footprint ⟨10, [.insert 1 waitingOrder]⟩)
      (waitingHistory.asOf 9) (waitingCatalog 10 orders []).shadows := by
  have idle : ∀ s ∈ (waitingCatalog 10 orders []).shadows, ¬ s.Active 10 := by
    intro s member active
    simp only [waitingCatalog, List.mem_cons, List.not_mem_nil, or_false] at member
    rcases member with rfl | rfl <;> exact absurd active.2 (lt_irrefl 10)
  have onlyOrders : ∀ relid, (BaseTransaction.footprint ⟨10, [.insert 1 waitingOrder]⟩).touches relid → relid = 1 := by
    rintro relid ⟨rc, member, within⟩
    obtain rfl := List.mem_singleton.mp member
    exact List.mem_singleton.mp within
  intro b reads
  rw [spec] at reads
  simp only [shopSpec, List.mem_cons, List.not_mem_nil, or_false] at reads
  rcases reads with rfl | rfl
  · exact Or.inr ⟨fun s member _ => idle s member, fun b _ touched => onlyOrders b.oid touched⟩
  · refine Or.inl ⟨_, List.mem_cons_of_mem _ List.mem_cons_self, rfl, Or.inr ⟨?_, ?_, List.Perm.refl _⟩⟩
    · exact idle _ (List.mem_cons_of_mem _ List.mem_cons_self)
    · exact fun touched => absurd (onlyOrders 2 touched) (by decide)

theorem waiting_carried {t : BaseTransaction} (member : t ∈ waitingHistory.commits) :
    shopSpec.CarriedRun shop (waitingHistory.asOf (t.endLsn - 1)) t.changes := by
  simp only [waitingHistory, List.mem_cons, List.not_mem_nil, or_false] at member
  rcases member with rfl | rfl
  · exact ⟨fun ρ member => absurd member List.not_mem_nil, fun ρ member => absurd member List.not_mem_nil⟩
  · refine ⟨fun ρ member => absurd member List.not_mem_nil, ?_⟩
    intro ρ member
    obtain rfl : ρ = envOf [narrowRow ["id", "ref", "doc"] waitingOrder, narrowRow ["id"] waitingCustomer] := List.mem_singleton.mp member
    refine ⟨?_, fun su member => absurd member List.not_mem_nil⟩
    intro o inList
    simp only [shopSpec, List.mem_cons, List.not_mem_nil, or_false] at inList
    rcases inList with rfl | rfl | rfl
    · exact Datum.noConfusion
    · exact Datum.noConfusion
    · exact Datum.noConfusion

theorem waiting_admits {c : Catalog} {frontier : Nat} {orders : List BaseRow} (txs : List SourceTransaction)
    (views : ∀ row ∈ c.views, row.spec = shopSpec) (shadows : c.shadows = (waitingCatalog frontier orders []).shadows)
    (position : frontier = 0 ∨ frontier = 10) : c.Admits waitingHistory shopCatalog.activeColumns txs where
  carried := fun t inHistory _ row member _ _ _ => views row member ▸ waiting_carried inHistory
  reads := by
    intro t inHistory _ row member _ _ _
    have spec : (LiveView.load row).row.spec = shopSpec := views row member
    rw [shadows]
    simp only [waitingHistory, List.mem_cons, List.not_mem_nil, or_false] at inHistory
    rcases position with rfl | rfl
    · rcases inHistory with rfl | rfl
      · exact Or.inl (waiting_fresh (by decide) spec).placed
      · exact Or.inl (waiting_fresh (by decide) spec).placed
    · rcases inHistory with rfl | rfl
      · exact Or.inl (waiting_placed spec)
      · exact Or.inl (waiting_fresh (by decide) spec).placed

/-- The view that waits while only the order has come gets both rows right. -/
theorem waiting_evaluated : ∃ d row, Retrying shop waitingStream (Catalog.Admits waitingHistory shopCatalog.activeColumns) ⟨shopCatalog, some 0⟩ d ∧
    d.catalog.views = [row] ∧ row.status = .live ∧ row.frontier = 20 ∧ row.Holds (waitingHistory.asOf 20) := by
  obtain ⟨d₁, orders, d₂, row, failed, catalog, slot, retried, views, live, spec, frontier⟩ : ∃ d₁ orders d₂ row,
      d₁ ∈ runRound .basic shopSettings waitingFaults (some ∘ shopRelation) ⟨0, 10, waitingStream.take 1, false, false⟩ ⟨shopCatalog, some 0⟩ ∧
      d₁.catalog = waitingCatalog 10 orders [] ∧ d₁.slot = some 0 ∧
      d₂ ∈ runRound .basic shopSettings Faults.none (some ∘ shopRelation) ⟨0, 20, waitingStream, true, false⟩ d₁ ∧
      d₂.catalog.views = [row] ∧ row.status = .live ∧ row.spec = shopSpec ∧ row.frontier = 20 :=
    ⟨_, _, _, _, List.mem_of_getElem? (i := 0) rfl, rfl, rfl, List.mem_of_getElem? (i := 0) rfl, rfl, rfl, rfl, rfl⟩
  have described : ∀ r, Described shop (some ∘ shopRelation) r := shop_described
  have run : Retrying shop waitingStream (Catalog.Admits waitingHistory shopCatalog.activeColumns) ⟨shopCatalog, some 0⟩ d₂ := by
    refine .round (.round .start rfl ⟨10, rfl, fun _ => le_refl 10⟩ (fun r _ => described r) ?_ failed) slot
      ⟨20, rfl, fun _ => le_refl 20⟩ (fun r _ => described r) ?_ retried
    · exact waiting_admits _ (fun row member => by rw [List.mem_singleton.mp member]; rfl) rfl (Or.inl rfl)
    · rw [catalog]
      exact waiting_admits _ (fun row member => by rw [List.mem_singleton.mp member]; rfl) rfl (Or.inr rfl)
  refine ⟨d₂, row, run, views, live, frontier, ?_⟩
  rw [← frontier]
  exact (run.evaluated waiting_sends waiting_settled).1 row (views ▸ List.mem_singleton_self row) live (by rw [spec]; rfl)

end Nabla
