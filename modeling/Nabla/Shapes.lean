import Nabla.Accepted

/-! The two shapes `validate` accepts: the part each target of an aggregate plays, the columns of
a projection, and everything an accepted definition was checked for. -/
namespace Nabla

variable {Moment : Type}

section Roles

variable {deparser : Deparser} {m : Moment} {refs : List Nat}

inductive Role where
  | key (o : OutputColumn)
  | count (aliasName : String)
  | countExpr (o : OutputColumn)
  | sum (su : SumSpec)

def Role.name : Role → String
  | .key o => o.aliasName
  | .count aliasName => aliasName
  | .countExpr o => o.aliasName
  | .sum su => su.aliasName

def Role.target : Role → PopulateTarget
  | .key o => .expr o.expr o.aliasName
  | .count aliasName => .countStar aliasName
  | .countExpr o => .count o.expr o.aliasName
  | .sum su => .sum su.expr su.aliasName

def Role.key? : Role → Option OutputColumn
  | .key o => some o
  | _ => none

def Role.count? : Role → Option String
  | .count aliasName => some aliasName
  | _ => none

def Role.countExpr? : Role → Option OutputColumn
  | .countExpr o => some o
  | _ => none

def Role.sum? : Role → Option SumSpec
  | .sum su => some su
  | _ => none

/-- A call of a built-in aggregate without DISTINCT, FILTER or ORDER BY. -/
structure PlainCall (agg : AggFunction Moment) (how : AggCall) (name : String) : Prop where
  builtin : agg.builtin = true
  name : agg.name = name
  distinct : how.aggdistinct = false

inductive Plays (deparser : Deparser) (m : Moment) (refs : List Nat) (t : TargetEntry Moment) : Role → Prop where
  | key : t.grouped refs = true → t.expr.containMutableFunctions = false → Plays deparser m refs t (.key ⟨deparser.expr m t.expr, t.name⟩)
  | count {agg : AggFunction Moment} {how : AggCall} {args : List (Node Moment)} : t.grouped refs = false → t.expr = .aggref agg how [] args [] →
      PlainCall agg how "count" → how.aggstar = true → Plays deparser m refs t (.count t.name)
  | countExpr {agg : AggFunction Moment} {how : AggCall} {arg : Node Moment} : t.grouped refs = false → t.expr = .aggref agg how [] [arg] [] →
      PlainCall agg how "count" → arg.containMutableFunctions = false → Plays deparser m refs t (.countExpr ⟨deparser.expr m arg, t.name⟩)
  | sum {agg : AggFunction Moment} {how : AggCall} {arg : Node Moment} (counter : String) : t.grouped refs = false → t.expr = .aggref agg how [] [arg] [] →
      PlainCall agg how "sum" → arg.containMutableFunctions = false → Plays deparser m refs t (.sum ⟨deparser.expr m arg, t.name, counter⟩)

theorem Plays.name {t : TargetEntry Moment} {role : Role} (plays : Plays deparser m refs t role) : role.name = t.name := by
  cases plays <;> rfl

def AggregateSpec.plus (spec : AggregateSpec) : Role → AggregateSpec
  | .key o => { spec with
      populateTargets := spec.populateTargets ++ [.expr o.expr o.aliasName]
      groupExprs := spec.groupExprs ++ [o.expr]
      columns := spec.columns ++ [o] }
  | .count aliasName => { spec with
      populateTargets := spec.populateTargets ++ [.countStar aliasName]
      countAlias := some aliasName
      aggIndex := spec.aggIndex + 1 }
  | .countExpr o => { spec with
      populateTargets := spec.populateTargets ++ [.count o.expr o.aliasName]
      counts := spec.counts ++ [o]
      aggIndex := spec.aggIndex + 1 }
  | .sum su => { spec with
      populateTargets := spec.populateTargets ++ [.sum su.expr su.aliasName]
      hiddenTargets := spec.hiddenTargets ++ [.count su.expr su.counter]
      hiddenColumns := spec.hiddenColumns ++ [su.counter]
      sums := spec.sums ++ [su]
      aggIndex := spec.aggIndex + 1 }

/-- One `count(*)` at most, and a sum is counted under its place among the aggregates. -/
def Role.Follows (spec : AggregateSpec) : Role → Prop
  | .count _ => spec.countAlias = none
  | .sum su => su.counter = hiddenCounter spec.aggIndex
  | _ => True

theorem classifyAggregate_ok {agg : AggFunction Moment} {how : AggCall} {aggdirectargs args aggfilter : List (Node Moment)} {aliasName : String}
    {kind : AggKind Moment} (passed : classifyAggregate agg how aggdirectargs args aggfilter aliasName = .ok kind) :
    aggdirectargs = [] ∧ aggfilter = [] ∧
      ((kind = .count ∧ PlainCall agg how "count" ∧ how.aggstar = true) ∨
        (∃ arg, args = [arg] ∧ kind = .countExpr arg ∧ PlainCall agg how "count" ∧ arg.containMutableFunctions = false) ∨
        ∃ arg, args = [arg] ∧ kind = .sum arg ∧ PlainCall agg how "sum" ∧ arg.containMutableFunctions = false) := by
  simp only [classifyAggregate, rejectIf_bind] at passed
  obtain ⟨ordinary, distinct, unfiltered, -, passed⟩ := passed
  simp only [Bool.or_eq_false_iff, Bool.not_eq_false', List.isEmpty_iff] at ordinary unfiltered
  refine ⟨ordinary.2, unfiltered, ?_⟩
  split_ifs at passed with count star sum
  · cases passed
    rw [Bool.and_eq_true, decide_eq_true_eq] at count
    exact .inl ⟨rfl, ⟨count.1, count.2, distinct⟩, star⟩
  · rw [Bool.and_eq_true, decide_eq_true_eq] at count
    split at passed
    · obtain ⟨immutable, done⟩ := requireImmutable_bind.mp passed
      cases done
      exact .inr (.inl ⟨_, rfl, rfl, ⟨count.1, count.2, distinct⟩, immutable⟩)
    · cases passed
  · rw [Bool.and_eq_true, decide_eq_true_eq] at sum
    split at passed
    · obtain ⟨immutable, done⟩ := requireImmutable_bind.mp passed
      cases done
      exact .inr (.inr ⟨_, rfl, rfl, ⟨sum.1, sum.2, distinct⟩, immutable⟩)
    · cases passed
  · cases passed

theorem AggregateSpec.target_ok {spec next : AggregateSpec} {t : TargetEntry Moment} (passed : spec.target deparser m refs t = .ok next) :
    ∃ role, Plays deparser m refs t role ∧ role.Follows spec ∧ next = spec.plus role := by
  rw [AggregateSpec.target] at passed
  cases grouped : t.grouped refs with
  | true =>
      rw [grouped, if_pos rfl, requireImmutable_bind] at passed
      obtain ⟨immutable, done⟩ := passed
      cases done
      exact ⟨_, .key grouped immutable, trivial, rfl⟩
  | false =>
      rw [grouped, if_neg Bool.false_ne_true] at passed
      cases is : t.expr with
      | aggref agg how aggdirectargs args aggfilter =>
          rw [is] at passed
          obtain ⟨kind, classified, added⟩ := bind_ok.mp passed
          obtain ⟨rfl, rfl, kinds⟩ := classifyAggregate_ok classified
          rcases kinds with ⟨rfl, plain, star⟩ | ⟨arg, rfl, rfl, plain, immutable⟩ | ⟨arg, rfl, rfl, plain, immutable⟩
          · obtain ⟨first, done⟩ := rejectIf_bind.mp added
            cases done
            exact ⟨_, .count grouped is plain star, Option.not_isSome_iff_eq_none.mp (Bool.eq_false_iff.mp first), rfl⟩
          · cases added
            exact ⟨_, .countExpr grouped is plain immutable, trivial, rfl⟩
          · cases added
            exact ⟨_, .sum _ grouped is plain immutable, rfl, rfl⟩
      | _ =>
          rw [is] at passed
          simp only [reject] at passed
          split at passed <;> cases passed

def Follow : AggregateSpec → List Role → Prop
  | _, [] => True
  | spec, role :: roles => role.Follows spec ∧ Follow (spec.plus role) roles

theorem AggregateSpec.targets_ok {spec made : AggregateSpec} {ts : List (TargetEntry Moment)} (passed : spec.targets deparser m refs ts = .ok made) :
    ∃ roles, List.Forall₂ (Plays deparser m refs) ts roles ∧ Follow spec roles ∧ made = roles.foldl AggregateSpec.plus spec := by
  induction ts generalizing spec with
  | nil =>
      cases passed
      exact ⟨[], .nil, trivial, rfl⟩
  | cons t ts ih =>
      rw [AggregateSpec.targets, bind_ok] at passed
      obtain ⟨next, own, passed⟩ := passed
      obtain ⟨role, plays, follows, rfl⟩ := AggregateSpec.target_ok own
      obtain ⟨roles, played, follow, rfl⟩ := ih passed
      exact ⟨role :: roles, .cons plays played, ⟨follows, follow⟩, rfl⟩

theorem AggregateSpec.foldl_plus (spec : AggregateSpec) (roles : List Role) :
    (roles.foldl AggregateSpec.plus spec).populateTargets = spec.populateTargets ++ roles.map Role.target ∧
      (roles.foldl AggregateSpec.plus spec).hiddenTargets = spec.hiddenTargets ++ (roles.filterMap Role.sum?).map (fun su => .count su.expr su.counter) ∧
      (roles.foldl AggregateSpec.plus spec).groupExprs = spec.groupExprs ++ (roles.filterMap Role.key?).map OutputColumn.expr ∧
      (roles.foldl AggregateSpec.plus spec).columns = spec.columns ++ roles.filterMap Role.key? ∧
      (roles.foldl AggregateSpec.plus spec).counts = spec.counts ++ roles.filterMap Role.countExpr? ∧
      (roles.foldl AggregateSpec.plus spec).sums = spec.sums ++ roles.filterMap Role.sum? ∧
      (roles.foldl AggregateSpec.plus spec).hiddenColumns = spec.hiddenColumns ++ (roles.filterMap Role.sum?).map SumSpec.counter := by
  induction roles generalizing spec with
  | nil => simp
  | cons role roles ih =>
      obtain ⟨targets, hiddenTargets, groupExprs, columns, counts, sums, hiddenColumns⟩ := ih (spec.plus role)
      rw [List.foldl_cons, targets, hiddenTargets, groupExprs, columns, counts, sums, hiddenColumns]
      cases role <;> simp [AggregateSpec.plus, Role.target, List.filterMap_cons, Role.key?, Role.countExpr?, Role.sum?]

/-- There is at most one `count(*)`. -/
theorem Follow.countAlias {spec : AggregateSpec} {roles : List Role} (follow : Follow spec roles) :
    (roles.foldl AggregateSpec.plus spec).countAlias.toList = spec.countAlias.toList ++ roles.filterMap Role.count? := by
  induction roles generalizing spec with
  | nil => simp
  | cons role roles ih =>
      rw [List.foldl_cons, ih follow.2]
      cases role with
      | count aliasName =>
          have first : spec.countAlias = none := follow.1
          simp [AggregateSpec.plus, Role.count?, first]
      | _ => simp [AggregateSpec.plus, List.filterMap_cons, Role.count?]

theorem hiddenCounter_toList (index : Nat) : (hiddenCounter index).toList = "_nabla_nn_".toList ++ Nat.toDigits 10 index := by
  show ("_nabla_nn_" ++ Nat.repr index).toList = _
  rw [String.toList_append, Nat.toList_repr]

theorem hiddenCounter_injective {i j : Nat} (same : hiddenCounter i = hiddenCounter j) : i = j := by
  have texts := congrArg String.toList same
  rw [hiddenCounter_toList, hiddenCounter_toList, List.append_cancel_left_eq] at texts
  exact Nat.repr_injective (String.toList_inj.mp (by rw [Nat.toList_repr, Nat.toList_repr, texts]))

theorem hiddenCounter_ne (i : Nat) : hiddenCounter i ≠ hiddenCount := by
  intro same
  have texts := congrArg (fun s : String => s.toList.length) same
  simp only [hiddenCounter_toList, List.length_append] at texts
  have long : "_nabla_nn_".toList.length = 10 := rfl
  have short : hiddenCount.toList.length = 8 := rfl
  omega

theorem reservedName_iff {name : String} : reservedName name = true ↔ "_nabla_".toList <+: name.toList := List.isPrefixOf_iff_prefix

theorem hiddenCounter_reserved (i : Nat) : reservedName (hiddenCounter i) = true := by
  rw [reservedName_iff, hiddenCounter_toList]
  exact List.IsPrefix.trans (by decide) (List.prefix_append _ _)

theorem hiddenKey_reserved (rti : Nat) (col : String) : reservedName (hiddenKey rti col) = true := by
  rw [reservedName_iff, hiddenKey_toList]
  exact List.IsPrefix.trans (by decide) (List.prefix_append _ _)

theorem Follow.counters {spec : AggregateSpec} {roles : List Role} (follow : Follow spec roles) :
    ((roles.filterMap Role.sum?).map SumSpec.counter).Nodup ∧ ∀ su ∈ roles.filterMap Role.sum?, ∃ i, spec.aggIndex ≤ i ∧ su.counter = hiddenCounter i := by
  induction roles generalizing spec with
  | nil => exact ⟨List.nodup_nil, fun su member => absurd member List.not_mem_nil⟩
  | cons role roles ih =>
      obtain ⟨once, each⟩ := ih follow.2
      have later : spec.aggIndex ≤ (spec.plus role).aggIndex := by
        cases role <;> simp [AggregateSpec.plus]
      have lowered : ∀ su ∈ roles.filterMap Role.sum?, ∃ i, spec.aggIndex ≤ i ∧ su.counter = hiddenCounter i := by
        intro su member
        obtain ⟨i, above, is⟩ := each su member
        exact ⟨i, later.trans above, is⟩
      cases role with
      | sum su =>
          have own : su.counter = hiddenCounter spec.aggIndex := follow.1
          have front : (Role.sum su :: roles).filterMap Role.sum? = su :: roles.filterMap Role.sum? := rfl
          rw [front, List.map_cons, List.nodup_cons]
          refine ⟨⟨?_, once⟩, List.forall_mem_cons.mpr ⟨⟨_, Nat.le_refl _, own⟩, lowered⟩⟩
          intro member
          obtain ⟨other, inside, same⟩ := List.mem_map.mp member
          obtain ⟨i, above, is⟩ := each other inside
          have equal := hiddenCounter_injective (is.symm.trans (same.trans own))
          have next : (spec.plus (.sum su)).aggIndex = spec.aggIndex + 1 := rfl
          omega
      | _ => exact ⟨once, lowered⟩

theorem roles_names (roles : List Role) : (roles.map Role.name).Perm
    ((roles.filterMap Role.key?).map OutputColumn.aliasName ++ (roles.filterMap Role.count? ++
      ((roles.filterMap Role.countExpr?).map OutputColumn.aliasName ++ (roles.filterMap Role.sum?).map SumSpec.aliasName))) := by
  induction roles with
  | nil => exact List.Perm.refl _
  | cons role roles ih =>
      have moved := ih.cons role.name
      rw [List.map_cons]
      refine moved.trans ?_
      cases role with
      | key o => exact List.Perm.refl _
      | count aliasName => exact List.perm_middle.symm
      | countExpr o =>
          rw [← List.append_assoc]
          refine List.perm_middle.symm.trans (List.Perm.of_eq ?_)
          rw [List.append_assoc]
          rfl
      | sum su =>
          rw [← List.append_assoc, ← List.append_assoc]
          refine List.perm_middle.symm.trans (List.Perm.of_eq ?_)
          rw [List.append_assoc, List.append_assoc]
          rfl

/-- The columns nabla adds to an aggregate. -/
def hiddenOf (roles : List Role) : List String :=
  (roles.filterMap Role.sum?).map SumSpec.counter ++ if (roles.filterMap Role.count?).isEmpty then [hiddenCount] else []

def countOf (roles : List Role) : String := (roles.filterMap Role.count?).head?.getD hiddenCount

def aggregateSpec (common : ViewSpec) (roles : List Role) : ViewSpec :=
  { common with
    shape := .aggregate
    columns := roles.filterMap Role.key?
    countAlias := some (countOf roles)
    counts := roles.filterMap Role.countExpr?
    sums := roles.filterMap Role.sum?
    hiddenColumns := hiddenOf roles }

def hiddenTargetsOf (roles : List Role) : List PopulateTarget :=
  (roles.filterMap Role.sum?).map (fun su => .count su.expr su.counter) ++ if (roles.filterMap Role.count?).isEmpty then [.countStar hiddenCount] else []

/-- An accepted aggregate: its targets play their roles, and one of them is a key. -/
structure AggregateShape (deparser : Deparser) (m : Moment) (refs : List Nat) (visible : List (TargetEntry Moment)) (common : ViewSpec) (v : Validated)
    (roles : List Role) : Prop where
  played : List.Forall₂ (Plays deparser m refs) visible roles
  follow : Follow AggregateSpec.empty roles
  grouped : refs ≠ []
  keyed : roles.filterMap Role.key? ≠ []
  spec : v.spec = aggregateSpec common roles
  populateTargets : v.populateTargets = roles.map Role.target ++ hiddenTargetsOf roles
  groupBy : v.groupBy = (roles.filterMap Role.key?).map OutputColumn.expr
  visibleColumns : v.visibleColumns = visible.map TargetEntry.name

theorem AggregateSpec.finish_eq (made : AggregateSpec) :
    made.finish.columns = made.columns ∧ made.finish.counts = made.counts ∧ made.finish.sums = made.sums ∧ made.finish.groupExprs = made.groupExprs ∧
      made.finish.countAlias = some (made.countAlias.getD hiddenCount) ∧
      made.finish.hiddenColumns = made.hiddenColumns ++ (if made.countAlias.isNone then [hiddenCount] else []) ∧
      made.finish.populateTargets = made.populateTargets ++ (made.hiddenTargets ++ if made.countAlias.isNone then [.countStar hiddenCount] else []) := by
  rw [AggregateSpec.finish]
  cases made.countAlias with
  | some aliasName => simp
  | none => simp

theorem Follow.countOf {roles : List Role} (follow : Follow AggregateSpec.empty roles) :
    (roles.foldl AggregateSpec.plus AggregateSpec.empty).countAlias.getD hiddenCount = countOf roles ∧
      (roles.foldl AggregateSpec.plus AggregateSpec.empty).countAlias.isNone = (roles.filterMap Role.count?).isEmpty := by
  have counted := follow.countAlias
  rw [show AggregateSpec.empty.countAlias.toList = [] from rfl, List.nil_append] at counted
  rw [Nabla.countOf, ← counted]
  cases (roles.foldl AggregateSpec.plus AggregateSpec.empty).countAlias with
  | some aliasName => exact ⟨rfl, rfl⟩
  | none => exact ⟨rfl, rfl⟩

theorem validateAggregate_ok {visible : List (TargetEntry Moment)} {base : BaseFacts} {common : ViewSpec} {v : Validated}
    (accepted : validateAggregate deparser m refs visible base common = .ok v) : ∃ roles, AggregateShape deparser m refs visible common v roles := by
  rw [validateAggregate, rejectIf_bind] at accepted
  obtain ⟨grouped, accepted⟩ := accepted
  obtain ⟨made, targets, accepted⟩ := bind_ok.mp accepted
  obtain ⟨keyed, done⟩ := rejectIf_bind.mp accepted
  obtain ⟨roles, played, follow, is⟩ := AggregateSpec.targets_ok targets
  obtain ⟨populated, hiddenTargets, groupExprs, columns, counts, sums, hiddenColumns⟩ := AggregateSpec.foldl_plus AggregateSpec.empty roles
  rw [← is] at populated hiddenTargets groupExprs columns counts sums hiddenColumns
  obtain ⟨alias_, none_⟩ := follow.countOf
  rw [← is] at alias_ none_
  obtain ⟨columns', counts', sums', groupExprs', countAlias', hiddenColumns', populated'⟩ := made.finish_eq
  cases done
  refine ⟨roles, played, follow, ?_, ?_, ?_, ?_, ?_, rfl⟩
  · rintro rfl
    cases grouped
  · intro none
    rw [columns, none] at keyed
    cases keyed
  · simp only [columns', counts', sums', countAlias', hiddenColumns', columns, counts, sums, hiddenColumns, alias_, none_]
    rfl
  · simp only [populated', populated, hiddenTargets, none_]
    rfl
  · simp only [groupExprs', groupExprs]
    rfl

theorem Follow.hiddenOf {roles : List Role} (follow : Follow AggregateSpec.empty roles) :
    (hiddenOf roles).Nodup ∧ ∀ name ∈ hiddenOf roles, reservedName name = true := by
  obtain ⟨once, each⟩ := follow.counters
  have counter : ∀ name ∈ (roles.filterMap Role.sum?).map SumSpec.counter, ∃ i, name = hiddenCounter i := by
    intro name member
    obtain ⟨su, inside, rfl⟩ := List.mem_map.mp member
    obtain ⟨i, -, is⟩ := each su inside
    exact ⟨i, is⟩
  rw [Nabla.hiddenOf]
  constructor
  · apply List.Nodup.append once
    · split
      · exact List.nodup_singleton _
      · exact List.nodup_nil
    · intro name left right
      obtain ⟨i, rfl⟩ := counter name left
      split at right
      · exact hiddenCounter_ne i (List.mem_singleton.mp right)
      · exact absurd right List.not_mem_nil
  · intro name member
    rcases List.mem_append.mp member with left | right
    · obtain ⟨i, rfl⟩ := counter name left
      exact hiddenCounter_reserved i
    · split at right
      · rw [List.mem_singleton.mp right]
        decide
      · exact absurd right List.not_mem_nil

theorem aggregateSpec_names (common : ViewSpec) {roles : List Role} (follow : Follow AggregateSpec.empty roles) :
    ((aggregateSpec common roles).tableColumns.map Prod.fst).Perm (roles.map Role.name ++ hiddenOf roles) := by
  have counted := follow.countAlias
  rw [show AggregateSpec.empty.countAlias.toList = [] from rfl, List.nil_append] at counted
  have count : (countOf roles :: []).Perm (roles.filterMap Role.count? ++ if (roles.filterMap Role.count?).isEmpty then [hiddenCount] else []) := by
    rw [countOf, ← counted]
    cases (roles.foldl AggregateSpec.plus AggregateSpec.empty).countAlias with
    | some aliasName => exact List.Perm.refl _
    | none => exact List.Perm.refl _
  have sums : ((roles.filterMap Role.sum?).flatMap fun su => [su.aliasName, su.counter]).Perm
      ((roles.filterMap Role.sum?).map SumSpec.aliasName ++ (roles.filterMap Role.sum?).map SumSpec.counter) := by
    have paired := List.map_append_flatMap_perm (roles.filterMap Role.sum?) SumSpec.aliasName fun su => [su.counter]
    rw [← List.map_eq_flatMap] at paired
    exact paired.symm
  have columns : (aggregateSpec common roles).tableColumns.map Prod.fst =
      (roles.filterMap Role.key?).map OutputColumn.aliasName ++ ([countOf roles] ++ ((roles.filterMap Role.countExpr?).map OutputColumn.aliasName ++
        (roles.filterMap Role.sum?).flatMap fun su => [su.aliasName, su.counter])) := by
    simp [ViewSpec.tableColumns, aggregateSpec, List.map_flatMap, Function.comp_def]
  rw [columns]
  refine List.Perm.trans ?_ ((roles_names roles).symm.append_right (hiddenOf roles))
  rw [List.perm_iff_count]
  intro name
  have counts := count.count_eq name
  have pairs := sums.count_eq name
  simp only [hiddenOf, List.count_append] at counts pairs ⊢
  omega

def shownColumns (deparser : Deparser) (m : Moment) (visible : List (TargetEntry Moment)) : List OutputColumn :=
  visible.map fun t => ⟨deparser.expr m t.expr, t.name⟩

theorem projectionColumns_ok {ts : List (TargetEntry Moment)} {columns : List OutputColumn} (passed : projectionColumns deparser m ts = .ok columns) :
    columns = shownColumns deparser m ts ∧ ∀ t ∈ ts, t.expr.containMutableFunctions = false := by
  induction ts generalizing columns with
  | nil =>
      cases passed
      exact ⟨rfl, fun t member => absurd member List.not_mem_nil⟩
  | cons t ts ih =>
      rw [projectionColumns, requireImmutable_bind] at passed
      obtain ⟨immutable, passed⟩ := passed
      obtain ⟨rest, restPassed, done⟩ := bind_ok.mp passed
      cases done
      obtain ⟨rfl, each⟩ := ih restPassed
      exact ⟨rfl, List.forall_mem_cons.mpr ⟨immutable, each⟩⟩

theorem selectedKeys_ok {varno : Nat} {visible : List (TargetEntry Moment)} {key : List (Int × String)} (complete : (selectedKeys varno visible key).2 = []) :
    List.Forall₂ (fun k name => ∃ t ∈ visible, t.expr.isPlainVar varno k.1 = true ∧ t.name = name) key (selectedKeys varno visible key).1 := by
  induction key with
  | nil => exact .nil
  | cons k key ih =>
      rw [selectedKeys] at complete ⊢
      cases found : visible.find? fun t => t.expr.isPlainVar varno k.1 with
      | some t =>
          rw [found] at complete
          have plain := List.find?_some (p := fun t : TargetEntry Moment => t.expr.isPlainVar varno k.1) found
          exact .cons ⟨t, List.mem_of_find?_eq_some found, plain, rfl⟩ (ih complete)
      | none =>
          rw [found] at complete
          cases complete

def hiddenNames (rels : List ListedRelation) : List String :=
  rels.flatMap fun rel => rel.facts.primaryKey.map fun key => hiddenKey rel.rti key.2

def joinSpec (kindOf : String → Kind) (deparser : Deparser) (m : Moment) (rels : List ListedRelation) (visible : List (TargetEntry Moment)) (common : ViewSpec) : ViewSpec :=
  { common with
    columns := shownColumns deparser m visible
    pkViewColumns := hiddenNames rels
    selectList := shownColumns deparser m visible ++ hiddenKeys kindOf (rels.map ListedRelation.aliasName) rels
    hiddenColumns := hiddenNames rels }

def tableSpec (deparser : Deparser) (m : Moment) (first : ListedRelation) (visible : List (TargetEntry Moment)) (common : ViewSpec) : ViewSpec :=
  { common with
    columns := shownColumns deparser m visible
    pkColumns := first.facts.pkColumns
    pkViewColumns := (selectedKeys first.entry.rtIndex visible first.facts.primaryKey).1
    selectList := shownColumns deparser m visible }

structure ProjectionShape (kindOf : String → Kind) (deparser : Deparser) (m : Moment) (isJoin : Bool) (rels : List ListedRelation) (first : ListedRelation)
    (refs : List Nat) (visible : List (TargetEntry Moment)) (common : ViewSpec) (v : Validated) : Prop where
  ungrouped : refs = []
  immutable : ∀ t ∈ visible, t.expr.containMutableFunctions = false
  spec : v.spec = if isJoin then joinSpec kindOf deparser m rels visible common else tableSpec deparser m first visible common
  keyed : isJoin = false → first.facts.primaryKey ≠ [] ∧ (selectedKeys first.entry.rtIndex visible first.facts.primaryKey).2 = []
  populateTargets : v.populateTargets = v.spec.selectList.map plainTarget
  groupBy : v.groupBy = []
  visibleColumns : v.visibleColumns = visible.map TargetEntry.name

theorem hiddenKeys_names (kindOf : String → Kind) (aliases : List String) (rels : List ListedRelation) :
    (hiddenKeys kindOf aliases rels).map OutputColumn.aliasName = hiddenNames rels := by
  rw [hiddenKeys, hiddenNames, List.map_flatMap]
  simp only [List.map_map]
  rfl

theorem validateProjection_ok {kindOf : String → Kind} {isJoin : Bool} {rels : List ListedRelation} {first : ListedRelation}
    {visible : List (TargetEntry Moment)} {base : BaseFacts} {common : ViewSpec} {v : Validated} (key : base.pkColumns = first.facts.pkColumns)
    (accepted : validateProjection kindOf deparser m isJoin rels first refs visible base common = .ok v) :
    ProjectionShape kindOf deparser m isJoin rels first refs visible common v := by
  rw [validateProjection, rejectIf_bind] at accepted
  obtain ⟨ungrouped, accepted⟩ := accepted
  obtain ⟨columns, shown, accepted⟩ := bind_ok.mp accepted
  obtain ⟨rfl, immutable⟩ := projectionColumns_ok shown
  have ungrouped' : refs = [] := by simpa using ungrouped
  cases isJoin with
  | true =>
      cases accepted
      refine ⟨ungrouped', immutable, ?_, nofun, rfl, rfl, rfl⟩
      rw [if_pos rfl, joinSpec, hiddenKeys_names]
  | false =>
      rw [if_neg Bool.false_ne_true, rejectIf_bind, rejectIf_bind] at accepted
      obtain ⟨keyed, complete, done⟩ := accepted
      cases done
      refine ⟨ungrouped', immutable, ?_, fun _ => ⟨?_, by simpa using complete⟩, rfl, rfl, rfl⟩
      · rw [if_neg Bool.false_ne_true, tableSpec, key]
      · intro none
        rw [none] at keyed
        cases keyed

end Roles

def Query.entries (q : Query Moment) : List RelEntry := relationEntries 1 q.rtable

def Query.allowed (q : Query Moment) : List Nat := q.entries.map RelEntry.rtIndex

def Query.isJoin (q : Query Moment) : Bool := decide (1 < q.entries.length)

/-- What `validate` has found, and checked, before it looks at the shape. -/
structure Acceptance (cat : SystemCatalog) (q : Query Moment) where
  first : ListedRelation
  others : List ListedRelation
  quals : List (Node Moment)
  relations : List BaseRelation
  clauses : ∀ clause ∈ q.unsupported, clause.1 = false
  kinds : ∀ rte ∈ q.rtable, rte.rtekind = .relation ∨ rte.rtekind = .join
  entries : (first :: others).map ListedRelation.entry = q.entries
  positions : (first :: others).map ListedRelation.rti = List.range' 1 (first :: others).length
  ordinary : ∀ rel ∈ first :: others, rel.Ordinary cat q.isJoin
  once : ((first :: others).map fun rel => rel.entry.rte.relid).Nodup
  walked : q.jointree.collectQuals = .ok quals
  conditions : ∀ qual ∈ quals, qual.containMutableFunctions = false ∧ ∀ v ∈ qual.vars, v.1 ∈ q.allowed
  junk : ∀ t ∈ q.targetList, t.resjunk = true → t.grouped q.groupClause = false
  shown : q.visible ≠ []
  names : (q.visible.map TargetEntry.name).Nodup
  targets : ∀ t ∈ q.visible, reservedName t.name = false ∧ ∀ v ∈ t.expr.vars, v.1 ∈ q.allowed
  used : List.Forall₂ (fun rel used => rel.Used q.isJoin
    (quals.flatMap Node.referencedVars ++ q.visible.flatMap fun t => t.expr.referencedVars) (quals.flatMap Node.joinKeyVars) used) (first :: others) relations

variable {cat : SystemCatalog} {q : Query Moment} {m : Moment}

def Acceptance.rels (a : Acceptance cat q) : List ListedRelation := a.first :: a.others

def Acceptance.aliases (a : Acceptance cat q) : List String := a.rels.map ListedRelation.aliasName

def Acceptance.deparser (a : Acceptance cat q) : Deparser := if q.isJoin then .forRtable cat q.rtable a.aliases else .single a.first.facts

def Acceptance.base (a : Acceptance cat q) : BaseFacts :=
  ⟨a.first.entry.rte.relid, a.first.qualified, a.first.facts.replident, a.first.facts.pkColumns⟩

def Acceptance.common (a : Acceptance cat q) (m : Moment) : ViewSpec := commonSpec (predicateOf (a.quals.map (a.deparser.expr m))) a.relations

theorem Query.validate_ok {kindOf : String → Kind} {v : Validated} (accepted : q.validate kindOf cat m = .ok v) :
    ∃ a : Acceptance cat q,
      (q.hasAggs = true ∧ validateAggregate a.deparser m q.groupClause q.visible a.base (a.common m) = .ok v) ∨
        (q.hasAggs = false ∧ validateProjection kindOf a.deparser m q.isJoin a.rels a.first q.groupClause q.visible a.base (a.common m) = .ok v) := by
  rw [Query.validate, bind_ok] at accepted
  obtain ⟨_, clauses, accepted⟩ := accepted
  obtain ⟨entries, collected, accepted⟩ := bind_ok.mp accepted
  obtain ⟨rfl, -, kinds⟩ := Query.collectRelations_ok collected
  obtain ⟨rels, listed, accepted⟩ := bind_ok.mp accepted
  obtain ⟨entriesAre, positions, ordinary, once, -⟩ := listRelations_ok listed
  cases rels with
  | nil => cases accepted
  | cons first others =>
      obtain ⟨quals, walked, accepted⟩ := bind_ok.mp accepted
      obtain ⟨_, conditions, accepted⟩ := bind_ok.mp accepted
      obtain ⟨junk, accepted⟩ := rejectIf_bind.mp accepted
      obtain ⟨shown, accepted⟩ := rejectIf_bind.mp accepted
      obtain ⟨_, targets, accepted⟩ := bind_ok.mp accepted
      obtain ⟨relations, used, accepted⟩ := bind_ok.mp accepted
      obtain ⟨names, -, targets⟩ := checkTargets_ok targets
      have junk' : ∀ t ∈ q.targetList, t.resjunk = true → t.grouped q.groupClause = false := by
        intro t member hidden
        have own := (List.any_eq_false.mp junk) t member
        rw [hidden, Bool.true_and] at own
        exact Bool.eq_false_iff.mpr own
      have shown' : q.visible ≠ [] := by
        intro none
        rw [none] at shown
        cases shown
      refine ⟨⟨first, others, quals, relations, rejectUnsupportedClauses_ok clauses, kinds, entriesAre, positions, ordinary, once, walked,
        checkQuals_ok conditions, junk', shown', names, targets, useRelations_ok used⟩, ?_⟩
      cases aggregates : q.hasAggs with
      | true =>
          rw [aggregates, if_pos rfl] at accepted
          exact .inl ⟨rfl, accepted⟩
      | false =>
          rw [aggregates, if_neg Bool.false_ne_true] at accepted
          exact .inr ⟨rfl, accepted⟩

def Acceptance.Made (a : Acceptance cat q) (kindOf : String → Kind) (m : Moment) (v : Validated) : Prop :=
  (q.hasAggs = true ∧ ∃ roles, AggregateShape a.deparser m q.groupClause q.visible (a.common m) v roles) ∨
    (q.hasAggs = false ∧ ProjectionShape kindOf a.deparser m q.isJoin a.rels a.first q.groupClause q.visible (a.common m) v)

theorem Query.validate_made {kindOf : String → Kind} {v : Validated} (accepted : q.validate kindOf cat m = .ok v) : ∃ a : Acceptance cat q, a.Made kindOf m v := by
  obtain ⟨a, ⟨aggregates, made⟩ | ⟨projects, made⟩⟩ := Query.validate_ok accepted
  · exact ⟨a, .inl ⟨aggregates, validateAggregate_ok made⟩⟩
  · exact ⟨a, .inr ⟨projects, validateProjection_ok rfl made⟩⟩

end Nabla
