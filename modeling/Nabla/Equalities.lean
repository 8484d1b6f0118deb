import Nabla.Fitting

/-! The join keys `validate` records: the columns that conjuncts of ON and WHERE equate with a
column of another table, and what every joined row has to do with them. -/
namespace Nabla
open Bags

variable {Moment : Type} {cat : SystemCatalog} {q : Query Moment} {kindOf : String → Kind} {m : Moment}

/-- A node is a conjunct of itself, and so are the conjuncts of the arguments of an AND. -/
inductive Node.Conjunct : Node Moment → Node Moment → Prop where
  | self (node : Node Moment) : Node.Conjunct node node
  | under {args : List (Node Moment)} {arg n : Node Moment} (member : arg ∈ args) (below : Node.Conjunct arg n) :
      Node.Conjunct (.boolExpr .and args) n

theorem Node.Conjunct.mem_subnodes {node n : Node Moment} (conjunct : node.Conjunct n) : n ∈ node.subnodes := by
  induction conjunct with
  | self node => exact node.mem_subnodes
  | under member _ ih => exact List.mem_cons_of_mem _ (Node.mem_subnodesOf.mpr ⟨_, member, ih⟩)

theorem Node.subnodes_trans {node n n' : Node Moment} (member : n ∈ node.subnodes) (inside : n' ∈ n.subnodes) : n' ∈ node.subnodes := by
  induction node using Node.rec (motive_2 := fun nodes => n ∈ Node.subnodesOf nodes → n' ∈ Node.subnodesOf nodes) with
  | nil => rename_i none; cases none
  | cons node nodes ih ihs =>
      rename_i here
      rw [Node.subnodesOf, List.mem_append] at here ⊢
      exact here.imp ih ihs
  | var varno varattno varlevelsup kind => exact List.mem_singleton.mp member ▸ inside
  | const kind value => exact List.mem_singleton.mp member ▸ inside
  | sqlValueFunction func => exact List.mem_singleton.mp member ▸ inside
  | nextValueExpr func => exact List.mem_singleton.mp member ▸ inside
  | call tag func args ih =>
      rcases List.mem_cons.mp member with rfl | below
      · exact inside
      · exact List.mem_cons_of_mem _ (ih below)
  | opExpr op args ih =>
      rcases List.mem_cons.mp member with rfl | below
      · exact inside
      · exact List.mem_cons_of_mem _ (ih below)
  | boolExpr boolop args ih =>
      rcases List.mem_cons.mp member with rfl | below
      · exact inside
      · exact List.mem_cons_of_mem _ (ih below)
  | relabelType arg ih =>
      rcases List.mem_cons.mp member with rfl | below
      · exact inside
      · exact List.mem_cons_of_mem _ (ih below)
  | aggref agg how aggdirectargs args aggfilter ihDirect ihArgs ihFilter =>
      rcases List.mem_cons.mp member with rfl | below
      · exact inside
      · rw [List.mem_append, List.mem_append] at below
        refine List.mem_cons_of_mem _ ?_
        rw [List.mem_append, List.mem_append]
        exact below.imp (Or.imp ihDirect ihArgs) ihFilter

theorem Node.Conjunct.eval_true {node n : Node Moment} (conjunct : node.Conjunct n) {group : List RowReader} {read : RowReader}
    (holds : node.eval m group read = .bool true) : n.eval m group read = .bool true := by
  induction conjunct with
  | self node => exact holds
  | @under args arg n member _ ih =>
      rw [Node.eval, BoolExprType.combine_and, Node.evalArgs_eq] at holds
      exact ih (holds _ (List.mem_map_of_mem member))

mutual
theorem Node.mem_joinKeyVars (node : Node Moment) (x : Nat × Int) :
    x ∈ node.joinKeyVars ↔ ∃ op args, node.Conjunct (.opExpr op args) ∧ x ∈ equated op args := by
  cases node with
  | boolExpr boolop args =>
      cases boolop with
      | and =>
          rw [Node.joinKeyVars, Node.mem_joinKeyVarsOf]
          constructor
          · rintro ⟨arg, member, op, args', conjunct, found⟩
            exact ⟨op, args', .under member conjunct, found⟩
          · rintro ⟨op, args', conjunct, found⟩
            cases conjunct with
            | under member below => exact ⟨_, member, op, args', below, found⟩
      | or =>
          refine ⟨fun none => absurd none List.not_mem_nil, ?_⟩
          rintro ⟨op, args', conjunct, -⟩
          cases conjunct
      | not =>
          refine ⟨fun none => absurd none List.not_mem_nil, ?_⟩
          rintro ⟨op, args', conjunct, -⟩
          cases conjunct
  | opExpr op args =>
      constructor
      · exact fun found => ⟨op, args, .self _, found⟩
      · rintro ⟨op', args', conjunct, found⟩
        cases conjunct
        exact found
  | _ =>
      refine ⟨fun none => absurd none List.not_mem_nil, ?_⟩
      rintro ⟨op, args', conjunct, -⟩
      cases conjunct

theorem Node.mem_joinKeyVarsOf (nodes : List (Node Moment)) (x : Nat × Int) :
    x ∈ Node.joinKeyVarsOf nodes ↔ ∃ node ∈ nodes, ∃ op args, node.Conjunct (.opExpr op args) ∧ x ∈ equated op args := by
  cases nodes with
  | nil => simp [Node.joinKeyVarsOf]
  | cons node nodes =>
      rw [Node.joinKeyVarsOf, List.mem_append, Node.mem_joinKeyVars node x, Node.mem_joinKeyVarsOf nodes x, List.exists_mem_cons_iff]
end

/-- The built-in `=` between two columns of different relations, each as it is or under a relabel. -/
structure Equates (op : Operator Moment) (args : List (Node Moment)) (x y : Nat × Int) : Prop where
  builtin : op.builtin = true
  name : op.opname = "="
  operands : ∃ left right, args = [left, right] ∧ left.operandVar = some x ∧ right.operandVar = some y
  apart : x.1 ≠ y.1

theorem mem_equated {op : Operator Moment} {args : List (Node Moment)} {z : Nat × Int} :
    z ∈ equated op args ↔ ∃ x y, Equates op args x y ∧ (z = x ∨ z = y) := by
  constructor
  · intro member
    unfold equated at member
    split_ifs at member with other
    · cases member
    · rw [Bool.or_eq_true, not_or, Bool.not_eq_true', Bool.not_eq_false, decide_eq_true_eq, not_not] at other
      rcases args with _ | ⟨left, _ | ⟨right, _ | ⟨_, _⟩⟩⟩
      · cases member
      · cases member
      · cases isLeft : left.operandVar with
        | none =>
            simp only [isLeft] at member
            cases member
        | some x =>
            cases isRight : right.operandVar with
            | none =>
                simp only [isLeft, isRight] at member
                cases member
            | some y =>
                simp only [isLeft, isRight] at member
                split_ifs at member with apart
                · exact ⟨x, y, ⟨other.1, other.2, ⟨left, right, rfl, isLeft, isRight⟩, apart⟩, by simpa using member⟩
                · cases member
      · cases member
  · rintro ⟨x, y, ⟨builtin, name, ⟨left, right, rfl, isLeft, isRight⟩, apart⟩, is⟩
    simp only [equated, builtin, name, isLeft, isRight]
    rw [if_neg (by simp), if_pos apart]
    simpa using is

theorem Node.plainVar?_mem {node : Node Moment} {x : Nat × Int} (plain : node.plainVar? = some x) : ∃ kind, (x.1, x.2, kind) ∈ node.vars := by
  cases node with
  | var varno varattno varlevelsup kind =>
      cases varlevelsup with
      | zero =>
          cases plain
          exact ⟨kind, List.mem_cons_self⟩
      | succ level => cases plain
  | _ => cases plain

theorem Node.operandVar_mem {node : Node Moment} {x : Nat × Int} (operand : node.operandVar = some x) : ∃ kind, (x.1, x.2, kind) ∈ node.vars := by
  cases node with
  | relabelType arg =>
      obtain ⟨kind, read⟩ := @Node.plainVar?_mem _ arg x operand
      exact ⟨kind, Node.mem_vars.mpr (List.mem_cons_of_mem _ (Node.mem_vars.mp read))⟩
  | _ => exact Node.plainVar?_mem operand

theorem Node.Conjunct.equated_vars {node : Node Moment} {op : Operator Moment} {args : List (Node Moment)} (conjunct : node.Conjunct (.opExpr op args))
    {z : Nat × Int} (member : z ∈ equated op args) : ∃ kind, (z.1, z.2, kind) ∈ node.vars := by
  obtain ⟨x, y, ⟨-, -, ⟨left, right, rfl, isLeft, isRight⟩, -⟩, is⟩ := mem_equated.mp member
  have operand : ∃ arg ∈ [left, right], arg.operandVar = some z := by
    rcases is with rfl | rfl
    · exact ⟨left, List.mem_cons_self, isLeft⟩
    · exact ⟨right, List.mem_cons_of_mem _ List.mem_cons_self, isRight⟩
  obtain ⟨arg, inside, own⟩ := operand
  obtain ⟨kind, read⟩ := Node.operandVar_mem own
  refine ⟨kind, Node.mem_vars.mpr (Node.subnodes_trans conjunct.mem_subnodes ?_)⟩
  exact List.mem_cons_of_mem _ (Node.mem_subnodesOf.mpr ⟨arg, inside, Node.mem_vars.mp read⟩)

/-- A column of the table at this place of the FROM list that a conjunct of these quals equates
with a column of another table. -/
def Query.Equated (cat : SystemCatalog) (q : Query Moment) (quals : List (Node Moment)) (i : Nat) (c : String) : Prop :=
  ∃ qual ∈ quals, ∃ op args x y, qual.Conjunct (.opExpr op args) ∧ Equates op args x y ∧
    ∃ z, (z = x ∨ z = y) ∧ q.allowed[i]? = some z.1 ∧ q.column cat z.1 z.2 = c

theorem Acceptance.mem_joinKeys {a : Acceptance cat q} (formed : cat.WellFormed) (analyzed : q.Analyzed kindOf cat) {i : Nat} {used : BaseRelation}
    (at_i : a.relations[i]? = some used) (c : String) : c ∈ used.joinKeys ↔ q.Equated cat a.quals i c := by
  obtain ⟨rel, here, inside, ordinary, own⟩ := a.listed at_i
  have place : q.allowed[i]? = some rel.entry.rtIndex := by rw [a.allowed_eq, List.getElem?_map, here, Option.map_some]
  have facts : q.facts cat rel.entry.rtIndex = rel.facts := by rw [Query.facts, Query.relid_of_mem inside, ordinary.facts]
  have formed' : rel.facts.WellFormed := ordinary.facts ▸ formed rel.entry.rte.relid
  rw [own.joinKeys, List.mem_filter, List.contains_iff_mem, List.mem_map, List.mem_map]
  constructor
  · rintro ⟨-, z, member, rfl⟩
    obtain ⟨listed, here⟩ := List.mem_filter.mp member
    rw [Bool.and_eq_true, decide_eq_true_eq, decide_eq_true_eq] at here
    obtain ⟨qual, inQuals, found⟩ := List.mem_flatMap.mp listed
    obtain ⟨op, args, conjunct, equal⟩ := (Node.mem_joinKeyVars qual z).mp found
    obtain ⟨x, y, equates, is⟩ := mem_equated.mp equal
    refine ⟨qual, inQuals, op, args, x, y, conjunct, equates, z, is, here.1 ▸ place, ?_⟩
    rw [Query.column, here.1, facts]
  · rintro ⟨qual, inQuals, op, args, x, y, conjunct, equates, z, is, at_z, rfl⟩
    rw [place, Option.some.injEq] at at_z
    have equal : z ∈ equated op args := mem_equated.mpr ⟨x, y, equates, is⟩
    obtain ⟨kind, read⟩ := conjunct.equated_vars equal
    have positive : 0 < z.2 := own.plain z (List.mem_append_left _ (List.mem_flatMap.mpr ⟨qual, inQuals, List.mem_map.mpr ⟨_, read, rfl⟩⟩)) at_z.symm
    have within : z.1 ∈ q.allowed := at_z ▸ List.mem_of_getElem? place
    obtain ⟨c, inFacts, number, -⟩ := analyzed.columns qual (.inl ⟨a.quals, a.walked, inQuals⟩) _ read within positive
    rw [← at_z, facts] at inFacts
    have name : c.attname = rel.facts.attname z.2 := by rw [← show c.attnum = z.2 from number, formed'.attname inFacts]
    have column : q.column cat z.1 z.2 = rel.facts.attname z.2 := by rw [Query.column, ← at_z, facts]
    refine ⟨⟨c, inFacts, name.trans column.symm⟩, z, List.mem_filter.mpr ⟨?_, ?_⟩, column.symm⟩
    · exact List.mem_flatMap.mpr ⟨qual, inQuals, (Node.mem_joinKeyVars qual z).mpr ⟨op, args, conjunct, equal⟩⟩
    · rw [Bool.and_eq_true, decide_eq_true_eq, decide_eq_true_eq]
      exact ⟨at_z.symm, positive⟩

theorem Query.fromRows_conjunct (analyzed : q.Analyzed kindOf cat) {quals : List (Node Moment)} (walked : q.jointree.collectQuals = .ok quals) (m : Moment)
    {tables : Nat → List BaseRow} {rows : List (Nat → Option BaseRow)} (made : q.fromRows cat m tables = some rows) {f : Nat → Option BaseRow}
    (member : f ∈ rows) {qual n : Node Moment} (inQuals : qual ∈ quals) (conjunct : qual.Conjunct n) :
    n.eval m [] (q.reader cat (rowsOfAssignment f)) = .bool true := by
  have distinct := (analyzed.once m).nodup_iff.mpr q.allowed_nodup
  rw [Query.fromRows, JoinTree.rows_eq _ _ (analyzed.inScope m) distinct (FromNode.collectQuals_toTree (q.expr cat m) q.jointree walked),
    Option.some.injEq] at made
  rw [← made] at member
  have holds := List.all_eq_true.mp (List.mem_filter.mp member).2 _ (List.mem_map_of_mem inQuals)
  exact conjunct.eval_true (beq_iff_eq.mp holds)

/-- The join keys of a table are the columns that a conjunct of ON or WHERE equates with a column
of another table, and every row the definition joins makes these conjuncts true. -/
theorem Query.validate_joinKeys (formed : cat.WellFormed) (analyzed : q.Analyzed kindOf cat) {v : Validated} (accepted : q.validate kindOf cat m = .ok v) :
    ∃ quals, q.jointree.collectQuals = .ok quals ∧
      (∀ i used, v.spec.relations[i]? = some used → ∀ c, c ∈ used.joinKeys ↔ q.Equated cat quals i c) ∧
      ∀ m' tables rows, q.fromRows cat m' tables = some rows → ∀ f ∈ rows, ∀ qual ∈ quals, ∀ op args, qual.Conjunct (.opExpr op args) →
        (Node.opExpr op args).eval m' [] (q.reader cat (rowsOfAssignment f)) = .bool true := by
  obtain ⟨a, made⟩ := Query.validate_made accepted
  refine ⟨a.quals, a.walked, ?_, ?_⟩
  · intro i used at_i c
    exact Acceptance.mem_joinKeys formed analyzed (made.relations ▸ at_i) c
  · intro m' tables rows is f member qual inQuals op args conjunct
    exact Query.fromRows_conjunct analyzed a.walked m' is member inQuals conjunct

theorem perCustomer_joinKeys : ∃ v quals, perCustomer.validate Platform.basic.kindOf shopSystem 0 = .ok v ∧
    perCustomer.jointree.collectQuals = .ok quals ∧
    (∀ i used, v.spec.relations[i]? = some used → ∀ c, c ∈ used.joinKeys ↔ perCustomer.Equated shopSystem quals i c) := by
  obtain ⟨v, accepted⟩ := perCustomer_accepted
  obtain ⟨quals, walked, keys, -⟩ := Query.validate_joinKeys shopSystem_wellFormed perCustomer_analyzed accepted
  exact ⟨v, quals, accepted, walked, keys⟩

end Nabla
