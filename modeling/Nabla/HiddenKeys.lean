import Nabla.Changes
import Nabla.Quoting
import Nabla.Serde
import Std.Data.String.ToNat

/-! The hidden key columns of a projection over a join: the names `validate` gives them, the
names PostgreSQL makes of these, and the rows found by them. -/
namespace Nabla
open SqlNames

/-- What PostgreSQL makes of an identifier: its first 63 bytes. -/
def sqlIdentifier (name : String) : String := String.ofList (clip 63 name.toList)

/-- `HIDDEN_PK_PREFIX`, the position of the relation and the column. -/
def hiddenKey (rti : Nat) (col : String) : String := s!"_nabla_pk{rti}_{col}"

theorem sqlIdentifier_short (name : String) : (sqlIdentifier name).utf8ByteSize ≤ 63 := by
  rw [sqlIdentifier, byteSize_ofList]
  exact byteSize_clip 63 _

theorem sqlIdentifier_of_short {name : String} (short : name.utf8ByteSize ≤ 63) : sqlIdentifier name = name := by
  rw [← String.ofList_toList (s := name), byteSize_ofList] at short
  rw [sqlIdentifier, clip_of_le short, String.ofList_toList]

theorem hiddenKey_toList (rti : Nat) (col : String) :
    (hiddenKey rti col).toList = "_nabla_pk".toList ++ (Nat.toDigits 10 rti ++ '_' :: col.toList) := by
  show ("_nabla_pk" ++ Nat.repr rti ++ "_" ++ col).toList = _
  simp only [String.toList_append, Nat.toList_repr, List.append_assoc]
  rfl

theorem hiddenKey_size (rti : Nat) (col : String) :
    (hiddenKey rti col).utf8ByteSize = 10 + (Nat.repr rti).utf8ByteSize + col.utf8ByteSize := by
  show ("_nabla_pk" ++ Nat.repr rti ++ "_" ++ col).utf8ByteSize = _
  simp only [String.utf8ByteSize_append]
  have front : "_nabla_pk".utf8ByteSize = 9 := rfl
  have middle : "_".utf8ByteSize = 1 := rfl
  omega

theorem underscore_not_digit (n : Nat) : '_' ∉ Nat.toDigits 10 n := fun member =>
  absurd (Nat.isDigit_of_mem_toDigits (by decide) (by decide) member) (by decide)

theorem hiddenKey_injective {rti rti' : Nat} {col col' : String} (same : hiddenKey rti col = hiddenKey rti' col') :
    rti = rti' ∧ col = col' := by
  have texts := congrArg String.toList same
  rw [hiddenKey_toList, hiddenKey_toList, List.append_cancel_left_eq] at texts
  obtain ⟨digits, rest⟩ := split_unique (underscore_not_digit rti) (underscore_not_digit rti') texts
  have reprs : Nat.repr rti = Nat.repr rti' := String.toList_inj.mp (by rw [Nat.toList_repr, Nat.toList_repr, digits])
  exact ⟨Nat.repr_injective reprs, String.toList_inj.mp rest⟩

/-- A projection over a join as `validate` accepts it. -/
structure JoinProjection where
  relations : List BaseRelation
  visible : List OutputColumn
  predicate : Option SqlExpr
  keyKind : Nat → String → Kind
  join : 1 < relations.length
  /-- `rti` is the position in the FROM list, from 1. -/
  positions : relations.map BaseRelation.rti = (List.range relations.length).map (· + 1)
  keyed : ∀ rel ∈ relations, rel.pkColumns ≠ [] ∧ rel.pkColumns.Nodup
  /-- Names of columns and of output columns are identifiers of PostgreSQL. -/
  keysShort : ∀ rel ∈ relations, ∀ col ∈ rel.pkColumns, col.utf8ByteSize ≤ 63
  aliasesShort : ∀ o ∈ visible, o.aliasName.utf8ByteSize ≤ 63
  aliases : (visible.map OutputColumn.aliasName).Nodup
  /-- Names that start with `_nabla_` are reserved. -/
  unreserved : ∀ o ∈ visible, ¬ "_nabla_".toList <+: o.aliasName.toList

variable (view : JoinProjection)

/-- Every key column of every relation, with the position of the relation in the FROM list. -/
def JoinProjection.keys : List (Nat × String) :=
  view.relations.zipIdx.flatMap fun r => r.1.pkColumns.map fun col => (r.2, col)

def JoinProjection.hidden : List OutputColumn :=
  view.relations.zipIdx.flatMap fun r => r.1.pkColumns.map fun col => ⟨.column r.2 col (view.keyKind r.2 col), hiddenKey r.1.rti col⟩

/-- What `validate` returns. -/
def JoinProjection.spec : ViewSpec where
  shape := .projection
  predicate := view.predicate
  columns := view.visible
  pkColumns := []
  pkViewColumns := view.hidden.map OutputColumn.aliasName
  countAlias := none
  counts := []
  sums := []
  relations := view.relations
  selectList := view.visible ++ view.hidden
  hiddenColumns := view.hidden.map OutputColumn.aliasName

def JoinProjection.storageColumns : List String := view.spec.selectList.map fun o => sqlIdentifier o.aliasName

/-- `to_jsonb` of the storage row of a combination of base rows. -/
def JoinProjection.rowJson (ρ : Env) : Json :=
  Record.toJsonb (view.spec.selectList.map fun o => (sqlIdentifier o.aliasName, o.expr.eval ρ))

/-- The rows have the same primary key in every base table. -/
def JoinProjection.SameKeys (ρ σ : Env) : Prop := ∀ k ∈ view.keys, ρ k.1 k.2 = σ k.1 k.2

/-- The key `net` computes of the members of an object. -/
def ViewSpec.identityMembers {Value : Type} (null : Value) (spec : ViewSpec) (members : List (String × Value)) : List Value :=
  (identityColumns spec).map fun c => (members.lookup c).getD null

theorem ViewSpec.identityOf_obj (spec : ViewSpec) (fields : List (String × Json)) :
    spec.identityOf (.obj fields) = spec.identityMembers .null fields := rfl

/-- The members that are left of an object without these. -/
def membersWithout {Value : Type} (hidden : List String) (members : List (String × Value)) : List (String × Value) :=
  members.filter fun f => !hidden.contains f.1

theorem Json.without_obj (hidden : List String) (fields : List (String × Json)) :
    (Json.obj fields).without hidden = .obj (membersWithout hidden fields) := rfl

/-- The members of a list, unless one is not read. -/
def readMembers {α Value : Type} (read : α → Option Value) : List (String × α) → Option (List (String × Value))
  | [] => some []
  | (name, a) :: fields =>
    match read a, readMembers read fields with
    | some value, some members => some ((name, value) :: members)
    | _, _ => none

/-- A stored row as `serde_json` reads its text: `read` of each column, under the name the
column has in the storage. -/
def JoinProjection.rowRead {Row Value : Type} (read : Row → OutputColumn → Option Value) (r : Row) : Option (List (String × Value)) :=
  readMembers (read r) (view.spec.selectList.map fun o => (sqlIdentifier o.aliasName, o))

/-- Hidden columns identify the rows: their names are distinct members of each stored row,
`net` finds two rows that it reads under one key exactly when all their base keys agree, and
`changes` leaves the visible columns. A row has values, which SQL compares, and a text, of
which `read` is what `serde_json` makes. -/
structure JoinProjection.Identifies {Row Value : Type} (null : Value) (values : Row → Env) (read : Row → OutputColumn → Option Value) : Prop where
  distinct : (view.spec.hiddenColumns.map sqlIdentifier).Nodup ∧ (view.spec.pkViewColumns.map sqlIdentifier).Nodup
  members : ∀ name ∈ view.spec.hiddenColumns ++ view.spec.pkViewColumns, name ∈ view.storageColumns
  identity : ∀ r r' row row', view.rowRead read r = some row → view.rowRead read r' = some row' →
    (view.spec.identityMembers null row = view.spec.identityMembers null row' ↔ view.SameKeys (values r) (values r'))
  stripped : ∀ r row, view.rowRead read r = some row →
    (membersWithout view.spec.hiddenColumns row).map Prod.fst = view.visible.map OutputColumn.aliasName

/-- No name of a hidden column is cut. -/
def JoinProjection.ShortKeys : Prop := ∀ rel ∈ view.relations, ∀ col ∈ rel.pkColumns, (Nat.repr rel.rti).utf8ByteSize + col.utf8ByteSize ≤ 53

/-- The output column of a base key. -/
def JoinProjection.keyColumn (k : Nat × String) : OutputColumn := ⟨.column k.1 k.2 (view.keyKind k.1 k.2), hiddenKey (k.1 + 1) k.2⟩

/-- Of rows that are read, the key columns are read alike exactly when the base keys agree. -/
def JoinProjection.ReadsKeys {Row Value : Type} (values : Row → Env) (read : Row → OutputColumn → Option Value) : Prop :=
  ∀ r r', (∀ o ∈ view.spec.selectList, (read r o).isSome) → (∀ o ∈ view.spec.selectList, (read r' o).isSome) →
    ((∀ k ∈ view.keys, read r (view.keyColumn k) = read r' (view.keyColumn k)) ↔ view.SameKeys (values r) (values r'))

variable {view}

theorem mem_zipIdx_rti {rel : BaseRelation} {i : Nat} (member : (rel, i) ∈ view.relations.zipIdx) :
    view.relations[i]? = some rel ∧ rel.rti = i + 1 := by
  have here : view.relations[i]? = some rel := List.mk_mem_zipIdx_iff_getElem?.mp member
  have position := congrArg (fun xs => xs[i]?) view.positions
  have within : i < view.relations.length := (List.getElem?_eq_some_iff.mp here).1
  simp only [List.getElem?_map, here, Option.map_some, List.getElem?_range within, Option.some.injEq] at position
  exact ⟨here, position⟩

theorem JoinProjection.hidden_names : view.hidden.map OutputColumn.aliasName = view.keys.map fun k => hiddenKey (k.1 + 1) k.2 := by
  rw [JoinProjection.hidden, JoinProjection.keys, List.map_flatMap, List.map_flatMap]
  apply List.flatMap_congr
  rintro ⟨rel, i⟩ member
  rw [List.map_map, List.map_map]
  apply List.map_congr_left
  intro col _
  rw [Function.comp_apply, Function.comp_apply, (mem_zipIdx_rti member).2]

theorem JoinProjection.mem_keys {k : Nat × String} : k ∈ view.keys ↔ ∃ rel, view.relations[k.1]? = some rel ∧ k.2 ∈ rel.pkColumns := by
  simp only [JoinProjection.keys, List.mem_flatMap, List.mem_map]
  constructor
  · rintro ⟨⟨rel, i⟩, member, col, key, rfl⟩
    exact ⟨rel, List.mk_mem_zipIdx_iff_getElem?.mp member, key⟩
  · rintro ⟨rel, here, key⟩
    exact ⟨(rel, k.1), List.mk_mem_zipIdx_iff_getElem?.mpr here, k.2, key, rfl⟩

theorem JoinProjection.keys_nodup : view.keys.Nodup := by
  rw [JoinProjection.keys, List.nodup_flatMap]
  constructor
  · rintro ⟨rel, i⟩ member
    have listed := List.mem_of_getElem? (mem_zipIdx_rti member).1
    exact (view.keyed rel listed).2.map fun x y same => (Prod.mk.inj same).2
  · have apart : (view.relations.zipIdx.map Prod.snd).Nodup := by
      rw [List.zipIdx_map_snd]
      exact List.nodup_range'
    refine (List.pairwise_map.mp apart).imp ?_
    intro r s other
    rw [Function.onFun_apply, List.disjoint_left]
    intro k left right
    obtain ⟨col, -, rfl⟩ := List.mem_map.mp left
    obtain ⟨col', -, same⟩ := List.mem_map.mp right
    exact other (Prod.mk.inj same).1.symm

theorem JoinProjection.hiddenColumns_nodup : (view.hidden.map OutputColumn.aliasName).Nodup := by
  rw [JoinProjection.hidden_names]
  apply view.keys_nodup.map
  intro k l same
  obtain ⟨positions, cols⟩ := hiddenKey_injective same
  exact Prod.ext (Nat.succ_injective positions) cols

theorem JoinProjection.hidden_reserved {name : String} (member : name ∈ view.hidden.map OutputColumn.aliasName) : "_nabla_".toList <+: name.toList := by
  rw [JoinProjection.hidden_names] at member
  obtain ⟨k, -, rfl⟩ := List.mem_map.mp member
  rw [hiddenKey_toList]
  exact List.IsPrefix.trans (by decide) (List.prefix_append _ _)

/-- Names are cut exactly when a key column is longer than 53 bytes less the digits. -/
theorem JoinProjection.shortKeys_iff : view.ShortKeys ↔ ∀ name ∈ view.hidden.map OutputColumn.aliasName, name.utf8ByteSize ≤ 63 := by
  rw [JoinProjection.hidden_names, List.forall_mem_map]
  constructor
  · intro short k member
    obtain ⟨rel, here, key⟩ := JoinProjection.mem_keys.mp member
    have room := short rel (List.mem_of_getElem? here) k.2 key
    have position := (mem_zipIdx_rti (List.mk_mem_zipIdx_iff_getElem?.mpr here)).2
    rw [hiddenKey_size, ← position]
    omega
  · intro short rel member col key
    obtain ⟨i, here⟩ := List.mem_iff_getElem?.mp member
    have room : (hiddenKey (i + 1) col).utf8ByteSize ≤ 63 := short (i, col) (JoinProjection.mem_keys.mpr ⟨rel, here, key⟩)
    have position := (mem_zipIdx_rti (List.mk_mem_zipIdx_iff_getElem?.mpr here)).2
    rw [hiddenKey_size, ← position] at room
    omega

theorem readMembers_some {α Value : Type} {read : α → Option Value} {fields : List (String × α)} {members : List (String × Value)}
    (parsed : readMembers read fields = some members) :
    (∀ f ∈ fields, (read f.2).isSome) ∧ (∀ name, members.lookup name = (fields.lookup name).bind read) ∧ members.map Prod.fst = fields.map Prod.fst := by
  induction fields generalizing members with
  | nil =>
      cases parsed
      exact ⟨fun f member => absurd member List.not_mem_nil, fun _ => rfl, rfl⟩
  | cons field fields ih =>
      obtain ⟨name, a⟩ := field
      rw [readMembers] at parsed
      cases first : read a with
      | none => simp only [first, reduceCtorEq] at parsed
      | some value =>
          cases tail : readMembers read fields with
          | none => simp only [first, tail, reduceCtorEq] at parsed
          | some rest =>
              simp only [first, tail, Option.some.injEq] at parsed
              subst parsed
              obtain ⟨all, found, names⟩ := ih tail
              refine ⟨?_, ?_, by rw [List.map_cons, List.map_cons, names]⟩
              · intro f member
                rcases List.mem_cons.mp member with rfl | later
                · rw [first, Option.isSome_some]
                · exact all f later
              · intro other
                rw [List.lookup_cons, List.lookup_cons]
                cases other == name with
                | true => exact first.symm
                | false => exact found other

theorem readMembers_isSome {α Value : Type} {read : α → Option Value} {fields : List (String × α)} (all : ∀ f ∈ fields, (read f.2).isSome) :
    ∃ members, readMembers read fields = some members := by
  induction fields with
  | nil => exact ⟨[], rfl⟩
  | cons field fields ih =>
      obtain ⟨value, first⟩ := Option.isSome_iff_exists.mp (all field List.mem_cons_self)
      obtain ⟨rest, tail⟩ := ih fun f member => all f (List.mem_cons_of_mem _ member)
      exact ⟨(field.1, value) :: rest, by rw [readMembers, first, tail]⟩

section Rows

variable {Row Value : Type} {values : Row → Env} {read : Row → OutputColumn → Option Value}

theorem JoinProjection.rowRead_some {r : Row} {row : List (String × Value)} (parsed : view.rowRead read r = some row) :
    (∀ o ∈ view.spec.selectList, (read r o).isSome) ∧ row.map Prod.fst = view.storageColumns := by
  obtain ⟨all, -, names⟩ := readMembers_some parsed
  refine ⟨fun o member => all _ (List.mem_map_of_mem member), ?_⟩
  rw [names, List.map_map]
  rfl

theorem JoinProjection.rowRead_of_all {r : Row} (all : ∀ o ∈ view.spec.selectList, (read r o).isSome) : ∃ row, view.rowRead read r = some row := by
  apply readMembers_isSome
  intro f member
  obtain ⟨o, selected, rfl⟩ := List.mem_map.mp member
  exact all o selected

end Rows

theorem JoinProjection.storageColumns_eq (short : view.ShortKeys) :
    view.storageColumns = view.visible.map OutputColumn.aliasName ++ view.hidden.map OutputColumn.aliasName := by
  have uncut : ∀ o ∈ view.spec.selectList, sqlIdentifier o.aliasName = o.aliasName := by
    intro o member
    apply sqlIdentifier_of_short
    rcases List.mem_append.mp member with shown | hidden
    · exact view.aliasesShort o shown
    · exact JoinProjection.shortKeys_iff.mp short _ (List.mem_map_of_mem hidden)
  rw [← List.map_append]
  exact List.map_congr_left uncut

theorem JoinProjection.storageColumns_nodup (short : view.ShortKeys) : view.storageColumns.Nodup := by
  rw [JoinProjection.storageColumns_eq short]
  apply List.Nodup.append view.aliases view.hiddenColumns_nodup
  intro name shown hidden
  obtain ⟨o, member, rfl⟩ := List.mem_map.mp shown
  exact view.unreserved o member (view.hidden_reserved hidden)

theorem JoinProjection.keyColumn_selected {k : Nat × String} (member : k ∈ view.keys) : view.keyColumn k ∈ view.hidden := by
  obtain ⟨rel, here, key⟩ := JoinProjection.mem_keys.mp member
  have listed : (rel, k.1) ∈ view.relations.zipIdx := List.mk_mem_zipIdx_iff_getElem?.mpr here
  refine List.mem_flatMap.mpr ⟨(rel, k.1), listed, List.mem_map.mpr ⟨k.2, key, ?_⟩⟩
  rw [(mem_zipIdx_rti listed).2]
  rfl

section Rows

variable {Row Value : Type} {null : Value} {values : Row → Env} {read : Row → OutputColumn → Option Value}

/-- The member under a hidden name is what was read of the key column it stands for. -/
theorem JoinProjection.rowRead_lookup (short : view.ShortKeys) {r : Row} {row : List (String × Value)} (parsed : view.rowRead read r = some row)
    {k : Nat × String} (member : k ∈ view.keys) : row.lookup (hiddenKey (k.1 + 1) k.2) = read r (view.keyColumn k) := by
  have selected := JoinProjection.keyColumn_selected member
  have uncut : sqlIdentifier (hiddenKey (k.1 + 1) k.2) = hiddenKey (k.1 + 1) k.2 :=
    sqlIdentifier_of_short (JoinProjection.shortKeys_iff.mp short _ (List.mem_map_of_mem selected))
  have names : ((view.spec.selectList.map fun o => (sqlIdentifier o.aliasName, o)).map Prod.fst).Nodup := by
    rw [List.map_map]
    exact JoinProjection.storageColumns_nodup short
  have here : (view.spec.selectList.map fun o => (sqlIdentifier o.aliasName, o)).lookup (hiddenKey (k.1 + 1) k.2) = some (view.keyColumn k) := by
    apply lookup_of_mem names
    refine List.mem_map.mpr ⟨_, List.mem_append_right _ selected, ?_⟩
    exact Prod.ext uncut rfl
  rw [(readMembers_some parsed).2.1, here, Option.bind_some]

/-- Two rows that are read have one key exactly when each key column is read alike. -/
theorem JoinProjection.identityMembers_eq_iff (short : view.ShortKeys) {r r' : Row} {row row' : List (String × Value)}
    (parsed : view.rowRead read r = some row) (parsed' : view.rowRead read r' = some row') :
    view.spec.identityMembers null row = view.spec.identityMembers null row' ↔ ∀ k ∈ view.keys, read r (view.keyColumn k) = read r' (view.keyColumn k) := by
  have columns : identityColumns view.spec = view.keys.map fun k => hiddenKey (k.1 + 1) k.2 := view.hidden_names
  rw [ViewSpec.identityMembers, ViewSpec.identityMembers, columns, List.map_map, List.map_map, List.map_inj_left]
  apply forall₂_congr
  intro k member
  rw [Function.comp_apply, Function.comp_apply, JoinProjection.rowRead_lookup short parsed member, JoinProjection.rowRead_lookup short parsed' member]
  have selected := List.mem_append_right view.visible (JoinProjection.keyColumn_selected member)
  obtain ⟨value, here⟩ := Option.isSome_iff_exists.mp ((JoinProjection.rowRead_some parsed).1 _ selected)
  obtain ⟨value', here'⟩ := Option.isSome_iff_exists.mp ((JoinProjection.rowRead_some parsed').1 _ selected)
  rw [here, here', Option.getD_some, Option.getD_some, Option.some.injEq]

end Rows

theorem membersWithout_names {Value : Type} (hidden : List String) (members : List (String × Value)) :
    (membersWithout hidden members).map Prod.fst = (members.map Prod.fst).filter fun name => !hidden.contains name := by
  rw [membersWithout, List.filter_map]
  rfl

theorem JoinProjection.stripped_of_short (short : view.ShortKeys) :
    view.storageColumns.filter (fun name => !view.spec.hiddenColumns.contains name) = view.visible.map OutputColumn.aliasName := by
  rw [JoinProjection.storageColumns_eq short, List.filter_append]
  have shown : (view.visible.map OutputColumn.aliasName).filter (fun name => !view.spec.hiddenColumns.contains name) =
      view.visible.map OutputColumn.aliasName := by
    apply List.filter_eq_self.mpr
    intro name member
    obtain ⟨o, inside, rfl⟩ := List.mem_map.mp member
    rw [Bool.not_eq_true', ← Bool.not_eq_true, List.contains_iff_mem]
    exact fun hidden => view.unreserved o inside (view.hidden_reserved hidden)
  have gone : (view.hidden.map OutputColumn.aliasName).filter (fun name => !view.spec.hiddenColumns.contains name) = [] := by
    apply List.filter_eq_nil_iff.mpr
    intro name member
    rw [Bool.not_eq_true', Bool.not_eq_false, List.contains_iff_mem]
    exact member
  rw [shown, gone, List.append_nil]

/-- A name that is a column of the storage was not cut. -/
theorem JoinProjection.Identifies.short {Row Value : Type} {null : Value} {values : Row → Env} {read : Row → OutputColumn → Option Value}
    (identifies : view.Identifies null values read) : view.ShortKeys := by
  rw [JoinProjection.shortKeys_iff]
  intro name member
  obtain ⟨o, -, rfl⟩ := List.mem_map.mp (identifies.members name (List.mem_append_left _ member))
  exact sqlIdentifier_short _

/-- Hidden columns identify the rows exactly when no hidden name is cut and the key columns
are read alike exactly of rows whose base keys agree. -/
theorem JoinProjection.identifies_iff {Row Value : Type} (null : Value) (values : Row → Env) (read : Row → OutputColumn → Option Value)
    (view : JoinProjection) : view.Identifies null values read ↔ view.ShortKeys ∧ view.ReadsKeys values read := by
  constructor
  · intro identifies
    have short := identifies.short
    refine ⟨short, ?_⟩
    intro r r' all all'
    obtain ⟨row, parsed⟩ := JoinProjection.rowRead_of_all all
    obtain ⟨row', parsed'⟩ := JoinProjection.rowRead_of_all all'
    exact (JoinProjection.identityMembers_eq_iff short parsed parsed').symm.trans (identifies.identity r r' row row' parsed parsed')
  · rintro ⟨short, reads⟩
    have uncut : view.spec.hiddenColumns.map sqlIdentifier = view.spec.hiddenColumns := by
      have each : ∀ name ∈ view.spec.hiddenColumns, sqlIdentifier name = id name := fun name member =>
        sqlIdentifier_of_short (JoinProjection.shortKeys_iff.mp short name member)
      rw [List.map_congr_left each, List.map_id]
    constructor
    · rw [show view.spec.pkViewColumns = view.spec.hiddenColumns from rfl, uncut]
      exact ⟨view.hiddenColumns_nodup, view.hiddenColumns_nodup⟩
    · intro name member
      rw [JoinProjection.storageColumns_eq short]
      rcases List.mem_append.mp member with hidden | key
      · exact List.mem_append_right _ hidden
      · exact List.mem_append_right _ key
    · intro r r' row row' parsed parsed'
      rw [JoinProjection.identityMembers_eq_iff short parsed parsed']
      exact reads r r' (JoinProjection.rowRead_some parsed).1 (JoinProjection.rowRead_some parsed').1
    · intro r row parsed
      rw [membersWithout_names, (JoinProjection.rowRead_some parsed).2, JoinProjection.stripped_of_short short]

/-- `to_jsonb` of a column, read number by number. -/
def readColumn (number : ℚ → Option ℚ) (ρ : Env) (o : OutputColumn) : Option Json := (o.expr.eval ρ).toJsonb.renumber number

/-- Typed keys whose numbers are read as they were written are read alike exactly when they
agree. -/
theorem JoinProjection.readsKeys_of_numbers {number : ℚ → Option ℚ} {Row : Env → Prop}
    (typed : ∀ ρ, Row ρ → ∀ k ∈ view.keys, (ρ k.1 k.2).HasKind (view.keyKind k.1 k.2) ∧ ρ k.1 k.2 ≠ .jsonNull)
    (numbers : ∀ ρ, Row ρ → ∀ k ∈ view.keys, ∀ q ∈ (ρ k.1 k.2).toJsonb.numbers, number q = some q) :
    view.ReadsKeys (fun r : Subtype Row => r.1) fun r => readColumn number r.1 := by
  have kept (r : Subtype Row) {k : Nat × String} (member : k ∈ view.keys) :
      readColumn number r.1 (view.keyColumn k) = some (r.1 k.1 k.2).toJsonb := (Json.renumber_self number _).mpr (numbers r.1 r.2 k member)
  intro r r' _ _
  apply forall₂_congr
  intro k member
  show readColumn number r.1 (view.keyColumn k) = readColumn number r'.1 (view.keyColumn k) ↔ _
  rw [kept r member, kept r' member, Option.some.injEq]
  constructor
  · intro images
    have left := populateField_toJsonb (typed r.1 r.2 k member).1 (typed r.1 r.2 k member).2
    have right := populateField_toJsonb (typed r'.1 r'.2 k member).1 (typed r'.1 r'.2 k member).2
    rw [images, right] at left
    exact (Option.some.inj left).symm
  · intro same
    exact congrArg Datum.toJsonb same

theorem renumberFields_columns (number : ℚ → Option ℚ) (ρ : Env) (columns : List OutputColumn) :
    Json.renumberFields number (columns.map fun o => (sqlIdentifier o.aliasName, (o.expr.eval ρ).toJsonb)) =
      readMembers (readColumn number ρ) (columns.map fun o => (sqlIdentifier o.aliasName, o)) := by
  induction columns with
  | nil => rfl
  | cons o columns ih =>
      rw [List.map_cons, List.map_cons, Json.renumberFields, readMembers, ih, readColumn]
      cases (o.expr.eval ρ).toJsonb.renumber number with
      | none => rfl
      | some value =>
          cases readMembers (readColumn number ρ) (columns.map fun o => (sqlIdentifier o.aliasName, o)) with
          | none => rfl
          | some members => rfl

theorem JoinProjection.rowJson_renumber (view : JoinProjection) (number : ℚ → Option ℚ) (ρ : Env) :
    (view.rowJson ρ).renumber number = (view.rowRead (readColumn number) ρ).map .obj := by
  rw [JoinProjection.rowJson, Record.toJsonb, List.map_map, Json.renumber, JoinProjection.rowRead, ← renumberFields_columns]
  rfl

def longName : String := "ccccccccccccccccccccccccccccccccccccccccccccccccccccc"

/-- `SELECT o.doc FROM orders o, customers c`, with a primary key of customers that has a
long name. -/
def longKeys : JoinProjection where
  relations := [⟨1, 1, "public.orders", ["id"], ["id", "doc"], ["text", "text"], []⟩, ⟨2, 2, "public.customers", [longName], [longName], ["text"], []⟩]
  visible := [⟨.column 0 "doc" .text, "doc"⟩]
  predicate := none
  keyKind := fun _ _ => .text
  join := by decide
  positions := by decide
  keyed := by decide
  keysShort := by decide
  aliasesShort := by decide
  aliases := by decide
  unreserved := by decide

def longRow (key : String) : Env := fun i name => if i = 0 then if name = "id" then .text "1" else .text "x" else .text key

/-- The column is stored under a cut name and `net` looks for the whole one: two customers
added together are one row to it. -/
theorem longKeys_conflated :
    net .basic longKeys.spec [⟨.I, longKeys.rowJson (longRow "a")⟩, ⟨.I, longKeys.rowJson (longRow "b")⟩] =
        [⟨.I, longKeys.rowJson (longRow "b")⟩] ∧
      ¬ longKeys.SameKeys (longRow "a") (longRow "b") ∧ ¬ longKeys.Identifies Json.null id (readColumn some) := by
  have other : ¬ longKeys.SameKeys (longRow "a") (longRow "b") := by
    unfold JoinProjection.SameKeys
    decide
  have long : ¬ longKeys.ShortKeys := by
    unfold JoinProjection.ShortKeys
    decide
  exact ⟨rfl, other, fun identifies => long identifies.short⟩

end Nabla
