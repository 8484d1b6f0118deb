import Nabla.Definition
import Nabla.Lib.Assignments

/-! The join tree of an analyzed definition and the flat query `validate` makes of it: a
cross product of the relations under the conjunction of all quals. -/
namespace Nabla
open Bags

inductive JoinType where
  | inner
  | left
  | right
  | full
  | semi
  | anti
  | rightAnti
  | other
deriving DecidableEq

/-- The tree under a query's FROM and WHERE, with relations as positions in the range table. -/
inductive JoinTree where
  | rangeTblRef (rti : Nat)
  | fromExpr (fromlist : List JoinTree) (quals : Option SqlExpr)
  | joinExpr (jointype : JoinType) (larg rarg : JoinTree) (quals : Option SqlExpr)

def JoinType.unsupported : JoinType → Option String
  | .inner => none
  | .left => some "LEFT JOIN"
  | .right => some "RIGHT JOIN"
  | .full => some "FULL JOIN"
  | .semi => some "SEMI JOIN"
  | .anti | .rightAnti => some "ANTI JOIN"
  | .other => some "this join type"

mutual
/-- `collect_quals`: every ON and WHERE qual, after rejecting anything but inner joins. -/
def JoinTree.collectQuals : JoinTree → Except String (List SqlExpr)
  | .rangeTblRef _ => .ok []
  | .fromExpr fromlist quals => (JoinTree.collectQualsFrom fromlist).map (· ++ quals.toList)
  | .joinExpr jointype larg rarg quals =>
    match jointype.unsupported with
    | some kind => .error s!"{kind} is not supported; only inner joins are"
    | none =>
      match JoinTree.collectQuals larg, JoinTree.collectQuals rarg with
      | .ok left, .ok right => .ok (left ++ right ++ quals.toList)
      | .error e, _ => .error e
      | _, .error e => .error e

def JoinTree.collectQualsFrom : List JoinTree → Except String (List SqlExpr)
  | [] => .ok []
  | item :: items =>
    match JoinTree.collectQuals item, JoinTree.collectQualsFrom items with
    | .ok first, .ok rest => .ok (first ++ rest)
    | .error e, _ => .error e
    | _, .error e => .error e
end

mutual
def JoinTree.leaves : JoinTree → List Nat
  | .rangeTblRef rti => [rti]
  | .fromExpr fromlist _ => JoinTree.leavesFrom fromlist
  | .joinExpr _ larg rarg _ => JoinTree.leaves larg ++ JoinTree.leaves rarg

def JoinTree.leavesFrom : List JoinTree → List Nat
  | [] => []
  | item :: items => JoinTree.leaves item ++ JoinTree.leavesFrom items
end

mutual
def JoinTree.joins : JoinTree → List JoinType
  | .rangeTblRef _ => []
  | .fromExpr fromlist _ => JoinTree.joinsFrom fromlist
  | .joinExpr jointype larg rarg _ => jointype :: (JoinTree.joins larg ++ JoinTree.joins rarg)

def JoinTree.joinsFrom : List JoinTree → List JoinType
  | [] => []
  | item :: items => JoinTree.joins item ++ JoinTree.joinsFrom items
end

def SqlExpr.Within (e : SqlExpr) (relations : List Nat) : Prop := ∀ v ∈ e.vars, v.1 ∈ relations

mutual
/-- A qual refers to relations under its own node only. -/
def JoinTree.Scoped : JoinTree → Prop
  | .rangeTblRef _ => True
  | .fromExpr fromlist quals => JoinTree.ScopedFrom fromlist ∧ ∀ q ∈ quals, q.Within (JoinTree.leavesFrom fromlist)
  | .joinExpr _ larg rarg quals =>
    JoinTree.Scoped larg ∧ JoinTree.Scoped rarg ∧ ∀ q ∈ quals, q.Within (JoinTree.leaves larg ++ JoinTree.leaves rarg)

def JoinTree.ScopedFrom : List JoinTree → Prop
  | [] => True
  | item :: items => JoinTree.Scoped item ∧ JoinTree.ScopedFrom items
end

/-- An analyzed query: the relations of its range table, each of them once in the tree. -/
structure AnalyzedQuery where
  relations : List Nat
  jointree : JoinTree
  distinct : relations.Nodup
  once : jointree.leaves.Perm relations
  within : jointree.Scoped

def noRow : BaseRow := fun _ => .null

def rowsOfAssignment (f : Nat → Option BaseRow) : Env := fun rti => (f rti).getD noRow

def SqlExpr.holds (q : SqlExpr) (f : Nat → Option BaseRow) : Bool := q.eval (rowsOfAssignment f) == .bool true

def satisfied (quals : List SqlExpr) (f : Nat → Option BaseRow) : Bool := quals.all fun q => q.holds f

mutual
/-- FROM lists as cross products, an inner join as a product under its qual; the other joins
are given no rows, they are rejected. -/
def JoinTree.rows (tables : Nat → List BaseRow) : JoinTree → Option (List (Nat → Option BaseRow))
  | .rangeTblRef rti => some ((tables rti).map fun row => Function.update (fun _ => none) rti (some row))
  | .fromExpr fromlist quals => (JoinTree.rowsFrom tables fromlist).map fun rows => rows.filter (satisfied quals.toList)
  | .joinExpr jointype larg rarg quals =>
    match jointype, JoinTree.rows tables larg, JoinTree.rows tables rarg with
    | .inner, some left, some right => some ((product left right).filter (satisfied quals.toList))
    | _, _, _ => none

def JoinTree.rowsFrom (tables : Nat → List BaseRow) : List JoinTree → Option (List (Nat → Option BaseRow))
  | [] => some [fun _ => none]
  | item :: items =>
    match JoinTree.rows tables item, JoinTree.rowsFrom tables items with
    | some first, some rest => some (product first rest)
    | _, _ => none
end

def sqlAnd : Datum → Datum → Datum
  | .bool false, _ => .bool false
  | _, .bool false => .bool false
  | .bool true, .bool true => .bool true
  | _, _ => .null

theorem sqlAnd_typed (a b : Datum) : (sqlAnd a b).HasKind .bool := by
  unfold sqlAnd
  split <;> trivial

theorem sqlAnd_eq_true {a b : Datum} : sqlAnd a b = .bool true ↔ a = .bool true ∧ b = .bool true := by
  unfold sqlAnd
  split <;> simp_all

/-- `(p) AND (q)`. -/
def SqlExpr.and (p q : SqlExpr) : SqlExpr where
  kind := .bool
  vars := p.vars ++ q.vars
  eval := fun ρ => sqlAnd (p.eval ρ) (q.eval ρ)
  eval_congr := by
    intro ρ σ same
    rw [p.eval_congr fun v member => same v (List.mem_append_left _ member), q.eval_congr fun v member => same v (List.mem_append_right _ member)]
  eval_typed := fun _ => sqlAnd_typed _ _

def predicateOf : List SqlExpr → Option SqlExpr
  | [] => none
  | p :: ps => some (ps.foldl SqlExpr.and p)

/-- A qual printed with the aliases of the FROM list, where relations stand at their position. -/
def SqlExpr.deparse (relations : List Nat) (q : SqlExpr) : SqlExpr where
  kind := q.kind
  vars := q.vars.map fun v => (relations.idxOf v.1, v.2)
  eval := fun ρ => q.eval fun rti => ρ (relations.idxOf rti)
  eval_congr := by
    intro ρ σ same
    apply q.eval_congr
    intro v member
    exact same (relations.idxOf v.1, v.2) (List.mem_map.mpr ⟨v, member, rfl⟩)
  eval_typed := by
    intro ρ typed
    apply q.eval_typed
    intro v member
    exact typed (relations.idxOf v.1, v.2) (List.mem_map.mpr ⟨v, member, rfl⟩)

def AnalyzedQuery.predicate (q : AnalyzedQuery) (quals : List SqlExpr) : Option SqlExpr :=
  predicateOf (quals.map (SqlExpr.deparse q.relations))

def byPosition (relations : List Nat) (f : Nat → Option BaseRow) : Env := fun i => (relations[i]?.bind f).getD noRow

def AnalyzedQuery.env (q : AnalyzedQuery) (f : Nat → Option BaseRow) : Env := byPosition q.relations f

theorem JoinTree.collectQuals_join {jointype : JoinType} {larg rarg : JoinTree} {qual : Option SqlExpr} {quals : List SqlExpr} :
    (JoinTree.joinExpr jointype larg rarg qual).collectQuals = .ok quals ↔
      jointype = .inner ∧ ∃ left right, larg.collectQuals = .ok left ∧ rarg.collectQuals = .ok right ∧ quals = left ++ right ++ qual.toList := by
  rw [JoinTree.collectQuals]
  cases jointype
  case inner =>
    simp only [JoinType.unsupported, true_and]
    cases larg.collectQuals with
    | error e => simp
    | ok left =>
        cases rarg.collectQuals with
        | error e => simp
        | ok right =>
            simp only [Except.ok.injEq]
            constructor
            · intro same
              exact ⟨left, right, rfl, rfl, same.symm⟩
            · rintro ⟨_, _, rfl, rfl, same⟩
              exact same.symm
  all_goals simp [JoinType.unsupported]

theorem JoinTree.collectQuals_from {fromlist : List JoinTree} {qual : Option SqlExpr} {quals : List SqlExpr} :
    (JoinTree.fromExpr fromlist qual).collectQuals = .ok quals ↔
      ∃ inner, JoinTree.collectQualsFrom fromlist = .ok inner ∧ quals = inner ++ qual.toList := by
  rw [JoinTree.collectQuals]
  cases JoinTree.collectQualsFrom fromlist with
  | error e => simp [Except.map]
  | ok inner =>
      simp only [Except.map, Except.ok.injEq, exists_eq_left']
      exact eq_comm

theorem JoinTree.collectQualsFrom_cons {item : JoinTree} {items : List JoinTree} {quals : List SqlExpr} :
    JoinTree.collectQualsFrom (item :: items) = .ok quals ↔
      ∃ first rest, item.collectQuals = .ok first ∧ JoinTree.collectQualsFrom items = .ok rest ∧ quals = first ++ rest := by
  rw [JoinTree.collectQualsFrom]
  cases item.collectQuals with
  | error e => simp
  | ok first =>
      cases JoinTree.collectQualsFrom items with
      | error e => simp
      | ok rest =>
          simp only [Except.ok.injEq]
          constructor
          · intro same
            exact ⟨first, rest, rfl, rfl, same.symm⟩
          · rintro ⟨_, _, rfl, rfl, same⟩
            exact same.symm

mutual
theorem JoinTree.collects_iff (t : JoinTree) : (∃ quals, t.collectQuals = .ok quals) ↔ ∀ k ∈ t.joins, k = .inner := by
  cases t with
  | rangeTblRef rti =>
      rw [JoinTree.joins]
      exact ⟨fun _ k member => absurd member List.not_mem_nil, fun _ => ⟨[], by rw [JoinTree.collectQuals]⟩⟩
  | fromExpr fromlist qual =>
      rw [JoinTree.joins, ← JoinTree.collectsFrom_iff fromlist]
      simp only [JoinTree.collectQuals_from]
      constructor
      · rintro ⟨quals, inner, walked, -⟩
        exact ⟨inner, walked⟩
      · rintro ⟨inner, walked⟩
        exact ⟨_, inner, walked, rfl⟩
  | joinExpr jointype larg rarg qual =>
      have onLeft := JoinTree.collects_iff larg
      have onRight := JoinTree.collects_iff rarg
      rw [JoinTree.joins, List.forall_mem_cons, List.forall_mem_append, ← onLeft, ← onRight]
      simp only [JoinTree.collectQuals_join]
      constructor
      · rintro ⟨quals, inner, left, right, leftWalked, rightWalked, -⟩
        exact ⟨inner, ⟨left, leftWalked⟩, right, rightWalked⟩
      · rintro ⟨inner, ⟨left, leftWalked⟩, right, rightWalked⟩
        exact ⟨_, inner, left, right, leftWalked, rightWalked, rfl⟩

theorem JoinTree.collectsFrom_iff (items : List JoinTree) :
    (∃ quals, JoinTree.collectQualsFrom items = .ok quals) ↔ ∀ k ∈ JoinTree.joinsFrom items, k = .inner := by
  cases items with
  | nil =>
      rw [JoinTree.joinsFrom]
      exact ⟨fun _ k member => absurd member List.not_mem_nil, fun _ => ⟨[], by rw [JoinTree.collectQualsFrom]⟩⟩
  | cons item items =>
      have onHead := JoinTree.collects_iff item
      have onTail := JoinTree.collectsFrom_iff items
      rw [JoinTree.joinsFrom, List.forall_mem_append, ← onHead, ← onTail]
      simp only [JoinTree.collectQualsFrom_cons]
      constructor
      · rintro ⟨quals, first, rest, headWalked, tailWalked, -⟩
        exact ⟨⟨first, headWalked⟩, rest, tailWalked⟩
      · rintro ⟨⟨first, headWalked⟩, rest, tailWalked⟩
        exact ⟨_, first, rest, headWalked, tailWalked, rfl⟩
end

theorem satisfied_append (left right : List SqlExpr) (f : Nat → Option BaseRow) :
    satisfied (left ++ right) f = (satisfied left f && satisfied right f) := List.all_append

theorem SqlExpr.holds_congr {q : SqlExpr} {names : List Nat} (within : q.Within names) {f g : Nat → Option BaseRow}
    (same : ∀ i ∈ names, f i = g i) : q.holds f = q.holds g := by
  have agree : q.eval (rowsOfAssignment f) = q.eval (rowsOfAssignment g) := by
    apply q.eval_congr
    intro v member
    rw [rowsOfAssignment, rowsOfAssignment, same v.1 (within v member)]
  rw [SqlExpr.holds, SqlExpr.holds, agree]

theorem satisfied_congr {quals : List SqlExpr} {names : List Nat} (within : ∀ q ∈ quals, q.Within names)
    {f g : Nat → Option BaseRow} (same : ∀ i ∈ names, f i = g i) : satisfied quals f = satisfied quals g := by
  rw [satisfied, satisfied, Bool.eq_iff_iff, List.all_eq_true, List.all_eq_true]
  constructor
  · intro each q member
    rw [← SqlExpr.holds_congr (within q member) same]
    exact each q member
  · intro each q member
    rw [SqlExpr.holds_congr (within q member) same]
    exact each q member

theorem SqlExpr.Within.mono {q : SqlExpr} {names names' : List Nat} (within : q.Within names) (sub : names ⊆ names') :
    q.Within names' := fun v member => sub (within v member)

mutual
theorem JoinTree.collected_within (t : JoinTree) (inScope : t.Scoped) {quals : List SqlExpr} (walked : t.collectQuals = .ok quals) :
    ∀ q ∈ quals, q.Within t.leaves := by
  cases t with
  | rangeTblRef rti =>
      rw [JoinTree.collectQuals, Except.ok.injEq] at walked
      subst walked
      exact fun q member => absurd member List.not_mem_nil
  | fromExpr fromlist qual =>
      obtain ⟨inner, innerWalked, rfl⟩ := JoinTree.collectQuals_from.mp walked
      rw [JoinTree.Scoped] at inScope
      rw [JoinTree.leaves]
      intro q member
      rcases List.mem_append.mp member with nested | own
      · exact JoinTree.collectedFrom_within fromlist inScope.1 innerWalked q nested
      · exact inScope.2 q (Option.mem_toList.mp own)
  | joinExpr jointype larg rarg qual =>
      obtain ⟨-, left, right, leftWalked, rightWalked, rfl⟩ := JoinTree.collectQuals_join.mp walked
      rw [JoinTree.Scoped] at inScope
      rw [JoinTree.leaves]
      intro q member
      rcases List.mem_append.mp member with nested | own
      · rcases List.mem_append.mp nested with inLeft | inRight
        · exact (JoinTree.collected_within larg inScope.1 leftWalked q inLeft).mono (List.subset_append_left _ _)
        · exact (JoinTree.collected_within rarg inScope.2.1 rightWalked q inRight).mono (List.subset_append_right _ _)
      · exact inScope.2.2 q (Option.mem_toList.mp own)

theorem JoinTree.collectedFrom_within (items : List JoinTree) (inScope : JoinTree.ScopedFrom items) {quals : List SqlExpr}
    (walked : JoinTree.collectQualsFrom items = .ok quals) : ∀ q ∈ quals, q.Within (JoinTree.leavesFrom items) := by
  cases items with
  | nil =>
      rw [JoinTree.collectQualsFrom, Except.ok.injEq] at walked
      subst walked
      exact fun q member => absurd member List.not_mem_nil
  | cons item items =>
      obtain ⟨first, rest, headWalked, tailWalked, rfl⟩ := JoinTree.collectQualsFrom_cons.mp walked
      rw [JoinTree.ScopedFrom] at inScope
      rw [JoinTree.leavesFrom]
      intro q member
      rcases List.mem_append.mp member with inHead | inTail
      · exact (JoinTree.collected_within item inScope.1 headWalked q inHead).mono (List.subset_append_left _ _)
      · exact (JoinTree.collectedFrom_within items inScope.2 tailWalked q inTail).mono (List.subset_append_right _ _)
end

theorem product_satisfied {tables : Nat → List BaseRow} {left right : List Nat} {onLeft onRight : List SqlExpr}
    (distinct : (left ++ right).Nodup) (leftWithin : ∀ q ∈ onLeft, q.Within left) (rightWithin : ∀ q ∈ onRight, q.Within right) :
    product ((assignments tables left).filter (satisfied onLeft)) ((assignments tables right).filter (satisfied onRight)) =
      (assignments tables (left ++ right)).filter (satisfied (onLeft ++ onRight)) := by
  have apart := List.disjoint_of_nodup_append distinct
  have leftRead : ∀ f ∈ assignments tables left, ∀ g ∈ assignments tables right, satisfied onLeft (merge f g) = satisfied onLeft f := by
    intro f inLeft g _
    apply satisfied_congr leftWithin
    intro i member
    exact Option.or_of_isSome ((isSome_of_mem inLeft i).mpr member)
  have rightRead : ∀ f ∈ assignments tables left, ∀ g ∈ assignments tables right, satisfied onRight (merge f g) = satisfied onRight g := by
    intro f inLeft g _
    apply satisfied_congr rightWithin
    intro i member
    have free : f i = none := Option.not_isSome_iff_eq_none.mp fun given => apart ((isSome_of_mem inLeft i).mp given) member
    rw [merge, free, Option.none_or]
  rw [assignments_append, ← filter_product leftRead rightRead]
  apply List.filter_congr
  intro f _
  exact (satisfied_append onLeft onRight f).symm

mutual
/-- The nested query returns the assignments of its relations that satisfy every qual the
walk gathers. -/
theorem JoinTree.rows_eq (tables : Nat → List BaseRow) (t : JoinTree) (inScope : t.Scoped) (distinct : t.leaves.Nodup)
    {quals : List SqlExpr} (walked : t.collectQuals = .ok quals) :
    t.rows tables = some ((assignments tables t.leaves).filter (satisfied quals)) := by
  cases t with
  | rangeTblRef rti =>
      rw [JoinTree.collectQuals, Except.ok.injEq] at walked
      subst walked
      rw [JoinTree.rows, JoinTree.leaves, assignments, assignments, List.flatMap_singleton]
      exact congrArg some (List.filter_eq_self.mpr fun _ _ => rfl).symm
  | fromExpr fromlist qual =>
      obtain ⟨inner, innerWalked, rfl⟩ := JoinTree.collectQuals_from.mp walked
      rw [JoinTree.Scoped] at inScope
      rw [JoinTree.leaves] at distinct
      rw [JoinTree.rows, JoinTree.leaves, JoinTree.rowsFrom_eq tables fromlist inScope.1 distinct innerWalked, Option.map_some, List.filter_filter]
      congr 1
      apply List.filter_congr
      intro f _
      rw [satisfied_append, Bool.and_comm]
  | joinExpr jointype larg rarg qual =>
      obtain ⟨rfl, left, right, leftWalked, rightWalked, rfl⟩ := JoinTree.collectQuals_join.mp walked
      rw [JoinTree.Scoped] at inScope
      rw [JoinTree.leaves] at distinct
      have leftRows := JoinTree.rows_eq tables larg inScope.1 distinct.of_append_left leftWalked
      have rightRows := JoinTree.rows_eq tables rarg inScope.2.1 distinct.of_append_right rightWalked
      simp only [JoinTree.rows, leftRows, rightRows, JoinTree.leaves]
      rw [product_satisfied distinct (larg.collected_within inScope.1 leftWalked) (rarg.collected_within inScope.2.1 rightWalked), List.filter_filter]
      congr 1
      apply List.filter_congr
      intro f _
      rw [satisfied_append (left ++ right), Bool.and_comm]

theorem JoinTree.rowsFrom_eq (tables : Nat → List BaseRow) (items : List JoinTree) (inScope : JoinTree.ScopedFrom items)
    (distinct : (JoinTree.leavesFrom items).Nodup) {quals : List SqlExpr} (walked : JoinTree.collectQualsFrom items = .ok quals) :
    JoinTree.rowsFrom tables items = some ((assignments tables (JoinTree.leavesFrom items)).filter (satisfied quals)) := by
  cases items with
  | nil =>
      rw [JoinTree.collectQualsFrom, Except.ok.injEq] at walked
      subst walked
      rw [JoinTree.rowsFrom, JoinTree.leavesFrom, assignments]
      rfl
  | cons item items =>
      obtain ⟨first, rest, headWalked, tailWalked, rfl⟩ := JoinTree.collectQualsFrom_cons.mp walked
      rw [JoinTree.ScopedFrom] at inScope
      rw [JoinTree.leavesFrom] at distinct
      have headRows := JoinTree.rows_eq tables item inScope.1 distinct.of_append_left headWalked
      have tailRows := JoinTree.rowsFrom_eq tables items inScope.2 distinct.of_append_right tailWalked
      rw [JoinTree.rowsFrom, headRows, tailRows, JoinTree.leavesFrom]
      simp only
      rw [product_satisfied distinct (item.collected_within inScope.1 headWalked) (JoinTree.collectedFrom_within items inScope.2 tailWalked)]
end

def Env.cons (row : BaseRow) (ρ : Env) : Env
  | 0 => row
  | i + 1 => ρ i

theorem envOf_cons (row : BaseRow) (rows : List BaseRow) : envOf (row :: rows) = Env.cons row (envOf rows) := by
  funext i
  cases i <;> rfl

theorem byPosition_update {relations : List Nat} {rti : Nat} (fresh : rti ∉ relations) (f : Nat → Option BaseRow) (row : BaseRow) :
    byPosition (rti :: relations) (Function.update f rti (some row)) = Env.cons row (byPosition relations f) := by
  funext i
  cases i with
  | zero =>
      rw [byPosition, List.getElem?_cons_zero, Option.bind_some, Function.update_self]
      rfl
  | succ i =>
      rw [byPosition, List.getElem?_cons_succ, Env.cons, byPosition]
      cases at_i : relations[i]? with
      | none => rfl
      | some other =>
          have differs : other ≠ rti := fun same => fresh (same ▸ List.mem_of_getElem? at_i)
          rw [Option.bind_some, Option.bind_some, Function.update_of_ne differs]

/-- Read by position, the assignments of the range table are the combinations of one row
from each table. -/
theorem assignments_byPosition (tables : Nat → List BaseRow) {relations : List Nat} (distinct : relations.Nodup) :
    (assignments tables relations).map (byPosition relations) = (relations.map tables).sections.map envOf := by
  induction relations with
  | nil => rfl
  | cons rti relations ih =>
      obtain ⟨fresh, distinct'⟩ := List.nodup_cons.mp distinct
      have left : (assignments tables (rti :: relations)).map (byPosition (rti :: relations)) =
          ((assignments tables relations).map (byPosition relations)).flatMap fun ρ => (tables rti).map fun row => Env.cons row ρ := by
        rw [assignments, List.map_flatMap, List.flatMap_map]
        apply List.flatMap_congr
        intro f _
        rw [List.map_map]
        apply List.map_congr_left
        intro row _
        exact byPosition_update fresh f row
      have right : ((rti :: relations).map tables).sections.map envOf =
          ((relations.map tables).sections.map envOf).flatMap fun ρ => (tables rti).map fun row => Env.cons row ρ := by
        rw [List.map_cons, sections_cons, List.map_flatMap, List.flatMap_map]
        apply List.flatMap_congr
        intro rows _
        rw [List.map_map]
        apply List.map_congr_left
        intro row _
        exact envOf_cons row rows
      rw [left, right, ih distinct']

theorem foldl_and {ps : List SqlExpr} {p : SqlExpr} {ρ : Env} :
    (ps.foldl SqlExpr.and p).eval ρ = .bool true ↔ p.eval ρ = .bool true ∧ ∀ q ∈ ps, q.eval ρ = .bool true := by
  induction ps generalizing p with
  | nil =>
      rw [List.foldl_nil]
      exact ⟨fun holds => ⟨holds, fun q member => absurd member List.not_mem_nil⟩, And.left⟩
  | cons q ps ih =>
      rw [List.foldl_cons, ih, List.forall_mem_cons, ← and_assoc]
      exact and_congr_left fun _ => sqlAnd_eq_true

/-- The conjunction is true when each qual is: a NULL anywhere drops the row as it does
in a filter of its own. -/
theorem passes_predicateOf {spec : ViewSpec} {quals : List SqlExpr} (predicate : spec.predicate = predicateOf quals) (ρ : Env) :
    spec.passes ρ = quals.all fun p => p.eval ρ == .bool true := by
  rw [ViewSpec.passes, predicate]
  cases quals with
  | nil => rfl
  | cons p ps =>
      rw [predicateOf, Bool.eq_iff_iff, List.all_eq_true, List.forall_mem_cons]
      simp only [beq_iff_eq]
      exact foldl_and

theorem SqlExpr.deparse_eval {q : SqlExpr} {relations : List Nat} (within : q.Within relations) (f : Nat → Option BaseRow) :
    (q.deparse relations).eval (byPosition relations f) = q.eval (rowsOfAssignment f) := by
  apply q.eval_congr
  intro v member
  have listed : relations[relations.idxOf v.1]? = some v.1 := List.getElem?_idxOf (within v member)
  rw [byPosition, listed, Option.bind_some, rowsOfAssignment]

theorem AnalyzedQuery.passes_env {q : AnalyzedQuery} {spec : ViewSpec} {quals : List SqlExpr} (predicate : spec.predicate = q.predicate quals)
    (within : ∀ p ∈ quals, p.Within q.relations) (f : Nat → Option BaseRow) : spec.passes (q.env f) = satisfied quals f := by
  rw [passes_predicateOf predicate, satisfied, List.all_map, Bool.eq_iff_iff, List.all_eq_true, List.all_eq_true]
  constructor
  · intro each p member
    have holds := each p member
    rw [Function.comp_apply, AnalyzedQuery.env, SqlExpr.deparse_eval (within p member)] at holds
    exact holds
  · intro each p member
    rw [Function.comp_apply, AnalyzedQuery.env, SqlExpr.deparse_eval (within p member)]
    exact each p member

/-- Whatever the tables hold, an accepted query returns, with their number, the
combinations the flat query joins; a tree with any other join is rejected. -/
theorem AnalyzedQuery.flattens (q : AnalyzedQuery) :
    (∀ quals, q.jointree.collectQuals = .ok quals → ∀ (tables : Nat → List BaseRow) (spec : ViewSpec), spec.predicate = q.predicate quals →
      ∃ rows, q.jointree.rows tables = some rows ∧ (rows.map q.env).Perm (spec.joined (q.relations.map tables))) ∧
    ((∃ e, q.jointree.collectQuals = .error e) ↔ ∃ k ∈ q.jointree.joins, k ≠ .inner) := by
  constructor
  · intro quals walked tables spec predicate
    have distinct := q.once.nodup_iff.mpr q.distinct
    have within : ∀ p ∈ quals, p.Within q.relations := fun p member => (q.jointree.collected_within q.within walked p member).mono q.once.subset
    refine ⟨_, q.jointree.rows_eq tables q.within distinct walked, ?_⟩
    have reordered := ((assignments_perm tables q.once distinct).filter (satisfied quals)).map q.env
    have flat : ((assignments tables q.relations).filter (satisfied quals)).map q.env = spec.joined (q.relations.map tables) := by
      rw [ViewSpec.joined, ← assignments_byPosition tables q.distinct, List.filter_map]
      congr 1
      apply List.filter_congr
      intro f _
      exact (q.passes_env predicate within f).symm
    exact flat ▸ reordered
  · have accepted := q.jointree.collects_iff
    constructor
    · rintro ⟨e, failed⟩
      by_contra none
      push Not at none
      obtain ⟨quals, walked⟩ := accepted.mpr none
      rw [failed] at walked
      cases walked
    · rintro ⟨k, member, outer⟩
      cases walked : q.jointree.collectQuals with
      | error e => exact ⟨e, rfl⟩
      | ok quals => exact absurd (accepted.mp ⟨quals, walked⟩ k member) outer

/-- `FROM customers c JOIN orders o ON o.paid WHERE c.open`, with orders first in the range
table. -/
def paidOrders : AnalyzedQuery where
  relations := [1, 2]
  jointree := .fromExpr [.joinExpr .inner (.rangeTblRef 2) (.rangeTblRef 1) (some (.column 1 "paid" .bool))] (some (.column 2 "open" .bool))
  distinct := by decide
  once := List.Perm.swap 1 2 []
  within := by
    simp [JoinTree.Scoped, JoinTree.ScopedFrom, JoinTree.leaves, JoinTree.leavesFrom, SqlExpr.Within, SqlExpr.column]
    exact ⟨fun _ _ _ same _ _ => .inr same, fun _ _ _ same _ _ => .inl same⟩

def paidOrdersQuals : List SqlExpr := [.column 1 "paid" .bool, .column 2 "open" .bool]

def paidOrdersSpec : ViewSpec where
  shape := .projection
  predicate := paidOrders.predicate paidOrdersQuals
  columns := []
  pkColumns := []
  pkViewColumns := []
  countAlias := none
  counts := []
  sums := []
  relations := [⟨1, 1, "public.orders", ["id"], ["id", "paid"], ["text", "bool"], []⟩, ⟨2, 2, "public.customers", ["id"], ["id", "open"], ["text", "bool"], []⟩]
  selectList := []
  hiddenColumns := []

/-- Two orders, one with `paid` NULL. -/
def paidOrdersTables : Nat → List BaseRow
  | 1 => [fun name => if name = "paid" then .bool true else .null, fun _ => .null]
  | 2 => [fun name => if name = "open" then .bool true else .null]
  | _ => []

theorem paidOrders_flat : ∃ rows, paidOrders.jointree.rows paidOrdersTables = some rows ∧
    (rows.map paidOrders.env).Perm (paidOrdersSpec.joined (paidOrders.relations.map paidOrdersTables)) :=
  paidOrders.flattens.1 paidOrdersQuals rfl paidOrdersTables paidOrdersSpec rfl

example : (paidOrders.jointree.rows paidOrdersTables).map List.length = some 1 := by decide

end Nabla
