import Mathlib.Data.List.Induction
import Mathlib.Data.List.Sort
import Mathlib.Data.String.Basic
import Nabla.HiddenKeys
import Nabla.Shadow

/-! The indexes of a shadow on its join keys: the names they are given and the keys that end
up with one of their own. -/
namespace Nabla
open SqlNames

/-- `name.pop()` while the text is longer than 63 bytes; the text from its end. -/
def popLong : List Char → List Char
  | [] => []
  | c :: cs => if 63 < byteSize (c :: cs) then popLong cs else c :: cs

/-- `t<oid>_<key>_idx`, at most 63 bytes. -/
def indexName (oid : Nat) (key : String) : String := String.ofList (popLong s!"t{oid}_{key}_idx".toList.reverse).reverse

/-- An index of a shadow table: its name and its columns. -/
structure KeyIndex where
  name : String
  columns : List String

def BaseRelation.wants (rel : BaseRelation) (active : List String) (key : String) : Bool :=
  active.contains key && !decide (rel.pkColumns = [key])

/-- `CREATE INDEX IF NOT EXISTS`: a name that is taken in the schema is left alone. -/
def createIndex (taken : List String) (oid : Nat) (key : String) (indexes : List KeyIndex) : List KeyIndex :=
  if (taken ++ indexes.map KeyIndex.name).contains (indexName oid key) then indexes else indexes ++ [⟨indexName oid key, [key]⟩]

structure IndexedShadow where
  row : ShadowRow
  indexes : List KeyIndex

/-- A `BTreeSet` of names. -/
def keySet (keys : List String) : List String := keys.dedup.mergeSort (· ≤ ·)

/-- What a build asks of the shadow of a relation, and what the schema of shadows holds. -/
structure ShadowBuild where
  rel : BaseRelation
  frontier : Nat
  needed : List String
  keys : List String
  base : BaseTable
  /-- The names of all relations of the schema but the indexes of this shadow. -/
  taken : List String
  /-- The name PostgreSQL chooses for the unique index of a new shadow. -/
  chosen : String

/-- `index_join_keys` over the union of the keys. -/
def IndexedShadow.indexJoinKeys (s : IndexedShadow) (b : ShadowBuild) : IndexedShadow where
  row := s.row
  indexes := (keySet s.row.joinKeys).foldl
    (fun indexes key => if b.rel.wants s.row.columns key then createIndex b.taken b.rel.oid key indexes else indexes) s.indexes

/-- `create`, `extend` or `rebuild` as far as `index_join_keys`. -/
def ShadowBuild.prepare (b : ShadowBuild) (rebuild : Bool) : Option IndexedShadow → IndexedShadow
  | none => ⟨createShadow b.rel b.frontier b.needed b.keys b.base, [⟨b.chosen, b.rel.pkColumns⟩]⟩
  | some s =>
    if rebuild then ⟨refillShadow b.rel b.frontier b.needed b.keys b.base s.row, s.indexes⟩
    else ⟨extendShadow b.rel b.needed b.keys b.base s.row, s.indexes⟩

/-- The builds of one shadow, the latest first. In between the worker writes its rows, its
frontier and its flags, and prunes its columns. -/
inductive IndexedShadow.Run (relid : Nat) : List ShadowBuild → Option IndexedShadow → Prop where
  | start : Run relid [] none
  | built {bs : List ShadowBuild} {s : Option IndexedShadow} (run : Run relid bs s) (b : ShadowBuild) (own : b.rel.oid = relid) (rebuild : Bool) :
      Run relid (b :: bs) (some ((b.prepare rebuild s).indexJoinKeys b))
  | maintained {bs : List ShadowBuild} {s : IndexedShadow} (run : Run relid bs (some s)) (row : ShadowRow)
      (kept : row.joinKeys = s.row.joinKeys) : Run relid bs (some { s with row := row })

def Owned (indexes : List KeyIndex) (key : String) : Prop := ∃ ix ∈ indexes, ix.columns = [key]

/-- Each join key that is an active column and not the single primary-key column has an
index of its own. -/
def IndexedShadow.Indexed (s : IndexedShadow) (rel : BaseRelation) : Prop :=
  ∀ key ∈ s.row.joinKeys, rel.wants s.row.columns key = true → Owned s.indexes key

/-- Each key that has to get an index finds its name free: not a name of the schema, of an
index of the table, or of a key before it. -/
def IndexedShadow.Free (s : IndexedShadow) (b : ShadowBuild) : Prop :=
  ∀ key ∈ s.row.joinKeys, b.rel.wants s.row.columns key = true → ¬ Owned s.indexes key →
    indexName b.rel.oid key ∉ b.taken ∧ indexName b.rel.oid key ∉ s.indexes.map KeyIndex.name ∧
    ∀ k ∈ s.row.joinKeys, b.rel.wants s.row.columns k = true → k < key → indexName b.rel.oid k ≠ indexName b.rel.oid key

theorem mem_keySet {keys : List String} {key : String} : key ∈ keySet keys ↔ key ∈ keys := by
  rw [keySet, List.mem_mergeSort, List.mem_dedup]

theorem keySet_sorted (keys : List String) : (keySet keys).Pairwise (· < ·) := by
  have sorted : (keySet keys).Pairwise (· ≤ ·) := List.pairwise_mergeSort' (· ≤ ·) _
  have distinct : (keySet keys).Nodup := (List.mergeSort_perm _ _).nodup_iff.mpr (List.nodup_dedup _)
  exact (sorted.and distinct).imp fun both => lt_of_le_of_ne both.1 both.2

theorem owned_append {indexes : List KeyIndex} {ix : KeyIndex} {key : String} :
    Owned (indexes ++ [ix]) key ↔ Owned indexes key ∨ ix.columns = [key] := by
  simp only [Owned, List.mem_append, List.mem_singleton, or_and_right, exists_or, exists_eq_left]

theorem owned_createIndex {taken : List String} {oid : Nat} {first : String} {indexes : List KeyIndex} {key : String} :
    Owned (createIndex taken oid first indexes) key ↔
      Owned indexes key ∨ (key = first ∧ indexName oid key ∉ taken ∧ indexName oid key ∉ indexes.map KeyIndex.name) := by
  rw [createIndex]
  by_cases present : indexName oid first ∈ taken ++ indexes.map KeyIndex.name
  · rw [if_pos (List.contains_iff_mem.mpr present)]
    constructor
    · exact .inl
    · rintro (own | ⟨rfl, free, free'⟩)
      · exact own
      · exact absurd present fun member => (List.mem_append.mp member).elim free free'
  · rw [if_neg (fun found => present (List.contains_iff_mem.mp found)), owned_append]
    rw [List.mem_append, not_or] at present
    apply or_congr_right
    constructor
    · intro same
      obtain rfl : first = key := List.singleton_inj.mp same
      exact ⟨rfl, present⟩
    · rintro ⟨rfl, -⟩
      rfl

theorem mem_names_createIndex {taken : List String} {oid : Nat} {first : String} {indexes : List KeyIndex} {name : String} (free : name ∉ taken) :
    name ∈ (createIndex taken oid first indexes).map KeyIndex.name ↔ name ∈ indexes.map KeyIndex.name ∨ name = indexName oid first := by
  rw [createIndex]
  by_cases present : indexName oid first ∈ taken ++ indexes.map KeyIndex.name
  · rw [if_pos (List.contains_iff_mem.mpr present)]
    constructor
    · exact .inl
    · rintro (before | rfl)
      · exact before
      · exact (List.mem_append.mp present).resolve_left free
  · rw [if_neg (fun found => present (List.contains_iff_mem.mp found)), List.map_append, List.mem_append, List.map_singleton, List.mem_singleton]

theorem owned_foldl_iff {taken : List String} {oid : Nat} {wants : String → Bool} {keys : List String} (sorted : keys.Pairwise (· < ·))
    (indexes : List KeyIndex) (key : String) :
    Owned (keys.foldl (fun indexes key => if wants key then createIndex taken oid key indexes else indexes) indexes) key ↔
      Owned indexes key ∨ (key ∈ keys ∧ wants key = true ∧ indexName oid key ∉ taken ∧ indexName oid key ∉ indexes.map KeyIndex.name ∧
        ∀ k ∈ keys, wants k = true → k < key → indexName oid k ≠ indexName oid key) := by
  induction keys generalizing indexes with
  | nil => simp
  | cons first keys ih =>
      obtain ⟨before, sorted'⟩ := List.pairwise_cons.mp sorted
      have last : ∀ k ∈ first :: keys, ¬ k < first := by
        intro k member
        rcases List.mem_cons.mp member with rfl | later
        · exact lt_irrefl _
        · exact not_lt_of_gt (before k later)
      rw [List.foldl_cons, ih sorted']
      by_cases wanted : wants first = true
      · rw [if_pos wanted, owned_createIndex, or_assoc]
        apply or_congr_right
        constructor
        · rintro (⟨rfl, free, free'⟩ | ⟨later, wants_, free, free', earlier⟩)
          · exact ⟨List.mem_cons_self, wanted, free, free', fun k member _ less => absurd less (last k member)⟩
          · rw [mem_names_createIndex free, not_or] at free'
            refine ⟨List.mem_cons_of_mem _ later, wants_, free, free'.1, ?_⟩
            intro k member
            rcases List.mem_cons.mp member with rfl | inside
            · exact fun _ _ same => free'.2 same.symm
            · exact earlier k inside
        · rintro ⟨member, wants_, free, free', earlier⟩
          rcases List.mem_cons.mp member with rfl | later
          · exact .inl ⟨rfl, free, free'⟩
          · refine .inr ⟨later, wants_, free, ?_, fun k inside => earlier k (List.mem_cons_of_mem _ inside)⟩
            rw [mem_names_createIndex free, not_or]
            exact ⟨free', fun same => earlier first List.mem_cons_self wanted (before key later) same.symm⟩
      · rw [if_neg wanted]
        apply or_congr_right
        constructor
        · rintro ⟨later, wants_, free, free', earlier⟩
          refine ⟨List.mem_cons_of_mem _ later, wants_, free, free', ?_⟩
          intro k member wants_k
          rcases List.mem_cons.mp member with rfl | inside
          · exact absurd wants_k wanted
          · exact earlier k inside wants_k
        · rintro ⟨member, wants_, free, free', earlier⟩
          rcases List.mem_cons.mp member with rfl | later
          · exact absurd wants_ wanted
          · exact ⟨later, wants_, free, free', fun k inside => earlier k (List.mem_cons_of_mem _ inside)⟩

theorem mem_unionKeys {previous keys : List String} {key : String} : key ∈ unionKeys previous keys ↔ key ∈ previous ∨ key ∈ keys := by
  rw [unionKeys, List.mem_append, List.mem_filter, Bool.not_eq_true', ← Bool.not_eq_true, List.contains_iff_mem]
  by_cases known : key ∈ previous
  · exact ⟨fun _ => .inl known, fun _ => .inl known⟩
  · exact ⟨fun either => either.imp_right And.left, fun either => either.imp_right fun inside => ⟨inside, known⟩⟩

theorem ShadowBuild.prepare_joinKeys (b : ShadowBuild) (rebuild : Bool) (s : Option IndexedShadow) (key : String) :
    key ∈ (b.prepare rebuild s).row.joinKeys ↔ (∃ t, s = some t ∧ key ∈ t.row.joinKeys) ∨ key ∈ b.keys := by
  cases s with
  | none => simp [ShadowBuild.prepare, createShadow]
  | some s =>
      have stored : (b.prepare rebuild (some s)).row.joinKeys = unionKeys s.row.joinKeys b.keys := by
        cases rebuild <;> rfl
      rw [stored, mem_unionKeys]
      simp

/-- The join keys of a shadow are those of its builds. -/
theorem IndexedShadow.Run.joinKeys {relid : Nat} {bs : List ShadowBuild} {s : Option IndexedShadow} (run : IndexedShadow.Run relid bs s) (key : String) :
    (∃ t, s = some t ∧ key ∈ t.row.joinKeys) ↔ ∃ b ∈ bs, key ∈ b.keys := by
  induction run with
  | start => simp
  | @built bs s _ b _ rebuild ih =>
      rw [List.exists_mem_cons_iff, ← ih]
      have prepared := b.prepare_joinKeys rebuild s key
      constructor
      · rintro ⟨t, same, inside⟩
        obtain rfl := Option.some.inj same
        exact (prepared.mp inside).symm
      · intro either
        exact ⟨_, rfl, prepared.mpr either.symm⟩
  | maintained _ row kept ih =>
      rw [← ih]
      simp only [Option.some.injEq, exists_eq_left', kept]

/-- The loop leaves each key that needs an index with one exactly when each without one
found its name free. -/
theorem IndexedShadow.indexed_iff_free (p : IndexedShadow) (b : ShadowBuild) : (p.indexJoinKeys b).Indexed b.rel ↔ p.Free b := by
  apply forall₃_congr
  intro key inside wanted
  have created := @owned_foldl_iff b.taken b.rel.oid (b.rel.wants p.row.columns) _ (keySet_sorted p.row.joinKeys) p.indexes key
  refine created.trans ?_
  simp only [mem_keySet]
  constructor
  · rintro (has | ⟨-, -, free⟩) lacks
    · exact absurd has lacks
    · exact free
  · intro free
    by_cases has : Owned p.indexes key
    · exact .inl has
    · exact .inr ⟨inside, wanted, free has⟩

theorem IndexedShadow.Run.requested {relid : Nat} {bs : List ShadowBuild} {s : Option IndexedShadow} (run : IndexedShadow.Run relid bs s)
    {b : ShadowBuild} (own : b.rel.oid = relid) (rebuild : Bool) (key : String) :
    key ∈ (b.prepare rebuild s).row.joinKeys ↔ ∃ b' ∈ b :: bs, key ∈ b'.keys := by
  have all := (IndexedShadow.Run.built run b own rebuild).joinKeys key
  simp only [Option.some.injEq, exists_eq_left'] at all
  exact all

/-- After every build of every run the join keys are the union of all that were asked for,
and each that needs an index has one exactly when each without one found its name free. -/
theorem IndexedShadow.Run.join_keys_indexed {relid : Nat} {bs : List ShadowBuild} {s : Option IndexedShadow} (run : IndexedShadow.Run relid bs s)
    {b : ShadowBuild} (own : b.rel.oid = relid) (rebuild : Bool) :
    (∀ key, key ∈ ((b.prepare rebuild s).indexJoinKeys b).row.joinKeys ↔ ∃ b' ∈ b :: bs, key ∈ b'.keys) ∧
      (((b.prepare rebuild s).indexJoinKeys b).Indexed b.rel ↔ (b.prepare rebuild s).Free b) :=
  ⟨run.requested own rebuild, IndexedShadow.indexed_iff_free _ b⟩

theorem popLong_reverse (cs : List Char) : (popLong cs.reverse).reverse = clip 63 cs := by
  induction cs using List.reverseRecOn with
  | nil => rfl
  | append_singleton cs c ih =>
      have size : byteSize (c :: cs.reverse) = byteSize (cs ++ [c]) := by
        rw [byteSize_cons, byteSize_append, byteSize, byteSize, List.map_reverse, List.sum_reverse, Nat.add_comm]
        rfl
      rw [List.reverse_append, List.reverse_singleton, List.singleton_append, popLong, size]
      by_cases long : 63 < byteSize (cs ++ [c])
      · rw [if_pos long, ih, clip_concat long]
      · rw [if_neg long, clip_of_le (by omega), List.reverse_cons, List.reverse_reverse]

def indexText (oid : Nat) (key : String) : List Char := 't' :: (Nat.toDigits 10 oid ++ '_' :: (key.toList ++ "_idx".toList))

theorem indexName_toList (oid : Nat) (key : String) : (indexName oid key).toList = clip 63 (indexText oid key) := by
  have text : s!"t{oid}_{key}_idx".toList = indexText oid key := by
    show ("t" ++ Nat.repr oid ++ "_" ++ key ++ "_idx").toList = _
    simp only [String.toList_append, Nat.toList_repr, List.append_assoc]
    rfl
  rw [indexName, String.toList_ofList, popLong_reverse, text]

theorem indexName_injective {oid : Nat} {key key' : String} (short : byteSize (indexText oid key) ≤ 63) (short' : byteSize (indexText oid key') ≤ 63)
    (same : indexName oid key = indexName oid key') : key = key' := by
  have texts := congrArg String.toList same
  rw [indexName_toList, indexName_toList, clip_of_le short, clip_of_le short', indexText, indexText] at texts
  have tails := List.append_cancel_left (List.cons.inj texts).2
  exact String.toList_inj.mp (List.append_cancel_right (List.cons.inj tails).2)

theorem mem_foldl_createIndex {taken : List String} {oid : Nat} {wants : String → Bool} {keys : List String} {indexes : List KeyIndex} {ix : KeyIndex}
    (member : ix ∈ keys.foldl (fun indexes key => if wants key then createIndex taken oid key indexes else indexes) indexes) :
    ix ∈ indexes ∨ ∃ key ∈ keys, ix = ⟨indexName oid key, [key]⟩ := by
  induction keys generalizing indexes with
  | nil => exact .inl member
  | cons first keys ih =>
      rw [List.foldl_cons] at member
      rcases ih member with before | ⟨key, inside, same⟩
      · by_cases wanted : wants first = true
        · rw [if_pos wanted, createIndex] at before
          split at before
          · exact .inl before
          · rcases List.mem_append.mp before with earlier | new
            · exact .inl earlier
            · exact .inr ⟨first, List.mem_cons_self, List.mem_singleton.mp new⟩
        · rw [if_neg wanted] at before
          exact .inl before
      · exact .inr ⟨key, List.mem_cons_of_mem _ inside, same⟩

/-- An index of a shadow: the unique one it was made with, or that of a key asked for. -/
def ShadowBuild.Explains (relid : Nat) (bs : List ShadowBuild) (ix : KeyIndex) : Prop :=
  ∃ b ∈ bs, ix = ⟨b.chosen, b.rel.pkColumns⟩ ∨ ∃ key ∈ b.keys, ix = ⟨indexName relid key, [key]⟩

theorem ShadowBuild.Explains.later {relid : Nat} {bs : List ShadowBuild} {ix : KeyIndex} (explained : ShadowBuild.Explains relid bs ix) (b : ShadowBuild) :
    ShadowBuild.Explains relid (b :: bs) ix := by
  obtain ⟨b', inside, why⟩ := explained
  exact ⟨b', List.mem_cons_of_mem _ inside, why⟩

theorem ShadowBuild.prepare_indexes {relid : Nat} {bs : List ShadowBuild} {s : Option IndexedShadow} (b : ShadowBuild) (rebuild : Bool)
    (explained : ∀ t, s = some t → ∀ ix ∈ t.indexes, ShadowBuild.Explains relid bs ix) :
    ∀ ix ∈ (b.prepare rebuild s).indexes, ShadowBuild.Explains relid (b :: bs) ix := by
  intro ix member
  cases s with
  | none =>
      obtain rfl := List.mem_singleton.mp member
      exact ⟨b, List.mem_cons_self, .inl rfl⟩
  | some s =>
      have earlier : ix ∈ s.indexes := by
        cases rebuild
        · exact member
        · exact member
      exact (explained s rfl ix earlier).later b

theorem IndexedShadow.Run.explained {relid : Nat} {bs : List ShadowBuild} {s : Option IndexedShadow} (run : IndexedShadow.Run relid bs s) :
    ∀ t, s = some t → ∀ ix ∈ t.indexes, ShadowBuild.Explains relid bs ix := by
  induction run with
  | start => exact fun t same => by cases same
  | @built bs s run b own rebuild ih =>
      rintro t same ix member
      obtain rfl := Option.some.inj same
      rcases mem_foldl_createIndex member with before | ⟨key, inside, rfl⟩
      · exact b.prepare_indexes rebuild ih ix before
      · obtain ⟨b', among, asked⟩ := (run.requested own rebuild key).mp (mem_keySet.mp inside)
        exact ⟨b', among, .inr ⟨key, asked, by rw [own]⟩⟩
  | maintained _ row _ ih =>
      rintro t same ix member
      obtain rfl := Option.some.inj same
      exact ih _ rfl ix member

/-- When no name is cut, none is taken outside the shadow and no unique index has the name of
another key, every build leaves every join key indexed. -/
theorem IndexedShadow.Run.indexed_of_short {relid : Nat} {bs : List ShadowBuild} {s : Option IndexedShadow} (run : IndexedShadow.Run relid bs s)
    {b : ShadowBuild} (own : b.rel.oid = relid) (rebuild : Bool) (short : ∀ b' ∈ b :: bs, ∀ key ∈ b'.keys, byteSize (indexText relid key) ≤ 63)
    (free : ∀ b' ∈ b :: bs, ∀ key ∈ b'.keys, indexName relid key ∉ b.taken)
    (apart : ∀ b' ∈ b :: bs, ∀ key, b'.chosen = indexName relid key → b'.rel.pkColumns = [key]) :
    ((b.prepare rebuild s).indexJoinKeys b).Indexed b.rel := by
  rw [IndexedShadow.indexed_iff_free]
  intro key inside _ lacks
  obtain ⟨b', among, asked⟩ := (run.requested own rebuild key).mp inside
  have fits := short b' among key asked
  rw [own]
  refine ⟨free b' among key asked, ?_, ?_⟩
  · intro named
    obtain ⟨ix, member, same⟩ := List.mem_map.mp named
    obtain ⟨b'', among', unique | ⟨other, asked', derived⟩⟩ := b.prepare_indexes rebuild run.explained ix member
    · have covers := apart b'' among' key (by rw [← same, unique])
      exact lacks ⟨ix, member, by rw [unique, covers]⟩
    · have one := indexName_injective (short b'' among' other asked') fits (by rw [← same, derived])
      exact lacks ⟨ix, member, by rw [derived, one]⟩
  · intro k inside' _ less same
    obtain ⟨b'', among', asked'⟩ := (run.requested own rebuild k).mp inside'
    exact absurd (indexName_injective (short b'' among' k asked') fits same) (ne_of_lt less)

def firstKey : String := "cccccccccccccccccccccccccccccccccccccccccccccccccccccccccccA"

def secondKey : String := "cccccccccccccccccccccccccccccccccccccccccccccccccccccccccccB"

def twinBuild (keys : List String) : ShadowBuild where
  rel := ⟨16384, 1, "public.orders", ["id"], ["id", firstKey, secondKey], ["text", "text", "text"], keys⟩
  frontier := 10
  needed := ["id", firstKey, secondKey]
  keys := keys
  base := ⟨[("id", "text"), (firstKey, "text"), (secondKey, "text")], []⟩
  taken := ["t16384"]
  chosen := "t16384_id_idx"

theorem twinBuild_names : indexName 16384 firstKey = indexName 16384 secondKey := by
  have cut : clip 63 (indexText 16384 firstKey) = clip 63 (indexText 16384 secondKey) := by decide +kernel
  exact String.toList_inj.mp (by rw [indexName_toList, indexName_toList, cut])

/-- The second key of a shadow over both is left without an index. -/
theorem twinBuild_unindexed : ¬ ∀ {relid : Nat} {bs : List ShadowBuild} {s : Option IndexedShadow}, IndexedShadow.Run relid bs s →
    ∀ {b : ShadowBuild}, b.rel.oid = relid → ∀ rebuild : Bool, ((b.prepare rebuild s).indexJoinKeys b).Indexed b.rel := by
  intro always
  have indexed := always (IndexedShadow.Run.start : IndexedShadow.Run 16384 [] none) (show (twinBuild [firstKey, secondKey]).rel.oid = 16384 from rfl) false
  rw [IndexedShadow.indexed_iff_free] at indexed
  have free := indexed secondKey (by decide) (by decide) (by
    rintro ⟨ix, member, columns⟩
    obtain rfl := List.mem_singleton.mp member
    exact absurd columns (by decide))
  exact free.2.2 firstKey (by decide) (by decide) (by decide) twinBuild_names

/-- A shadow with one of them only. -/
theorem twinBuild_indexed :
    (((twinBuild [firstKey]).prepare false none).indexJoinKeys (twinBuild [firstKey])).Indexed (twinBuild [firstKey]).rel := by
  have iff := ((IndexedShadow.Run.start : IndexedShadow.Run 16384 [] none).join_keys_indexed (show (twinBuild [firstKey]).rel.oid = 16384 from rfl) false).2
  refine iff.mpr ?_
  intro key inside wanted lacks
  obtain rfl := List.mem_singleton.mp inside
  refine ⟨by decide, by decide, ?_⟩
  intro k inside' _ less
  obtain rfl := List.mem_singleton.mp inside'
  exact absurd less (lt_irrefl _)

end Nabla
