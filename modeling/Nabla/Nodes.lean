import Nabla.Definition

/-! PostgreSQL's expression trees as `definition.rs` walks them: the nodes it tells apart, the
nodes below a node in the order of `expression_tree_walker`, and what a node is worth on a row
or on a group of rows. -/
namespace Nabla

/-- `pg_proc.provolatile`. -/
inductive Volatility where
  | immutable
  | stable
  | volatile
deriving DecidableEq

/-- A function of the catalog. What it may look at besides its arguments (the clock, settings,
sequences, other tables) is the moment it is called at; an IMMUTABLE one looks at nothing. -/
structure SqlFunction (Moment : Type) where
  name : String
  volatility : Volatility
  kind : Kind
  apply : Moment → List Datum → Datum
  typed : ∀ m ds, (apply m ds).HasKind kind
  settled : volatility = .immutable → ∀ m m' ds, apply m ds = apply m' ds

/-- An operator and the function behind it; `builtin` when that one is in `pg_catalog`. -/
structure Operator (Moment : Type) where
  opname : String
  builtin : Bool
  func : SqlFunction Moment

/-- An aggregate function, over the arguments of each row it is given. -/
structure AggFunction (Moment : Type) where
  name : String
  builtin : Bool
  volatility : Volatility
  kind : Kind
  apply : Moment → List (List Datum) → Datum
  typed : ∀ m rows, (apply m rows).HasKind kind
  settled : volatility = .immutable → ∀ m m' rows, apply m rows = apply m' rows
  countStar : builtin = true → name = "count" → ∀ m rows, (∀ row ∈ rows, row = []) → apply m rows = .num (.fin rows.length)
  count : builtin = true → name = "count" → ∀ m ds, apply m (ds.map fun d => [d]) = sqlCount ds
  sum : builtin = true → name = "sum" → ∀ m ds, (∀ d ∈ ds, d.HasKind .numeric) → apply m (ds.map fun d => [d]) = sqlSum ds
  /-- The functions of `count` and `sum` are IMMUTABLE. -/
  builtins : builtin = true → name = "count" ∨ name = "sum" → volatility = .immutable

inductive BoolExprType where
  | and
  | or
  | not
deriving DecidableEq

/-- Nodes that call a function and are told apart by name. -/
inductive CallTag where
  | funcExpr
  | distinctExpr
  | nullIfExpr
  | scalarArrayOpExpr
  | coerceViaIo
  | other
deriving DecidableEq

/-- `pg_aggregate.aggkind`. -/
inductive AggregateKind where
  | normal
  | orderedSet
  | hypothetical
deriving DecidableEq

/-- How an aggregate is called. -/
structure AggCall where
  aggkind : AggregateKind
  aggstar : Bool
  aggdistinct : Bool
  aggorder : Bool

inductive Node (Moment : Type) where
  | var (varno : Nat) (varattno : Int) (varlevelsup : Nat) (kind : Kind)
  | const (kind : Kind) (value : { d : Datum // d.HasKind kind })
  | call (tag : CallTag) (func : SqlFunction Moment) (args : List (Node Moment))
  | opExpr (op : Operator Moment) (args : List (Node Moment))
  | boolExpr (boolop : BoolExprType) (args : List (Node Moment))
  | relabelType (arg : Node Moment)
  | aggref (agg : AggFunction Moment) (how : AggCall) (aggdirectargs args aggfilter : List (Node Moment))
  | sqlValueFunction (func : SqlFunction Moment)
  | nextValueExpr (func : SqlFunction Moment)

variable {Moment : Type}

mutual
/-- The nodes `expression_tree_walker` visits, a node before what is below it. -/
def Node.subnodes : Node Moment → List (Node Moment)
  | .var varno varattno varlevelsup kind => [.var varno varattno varlevelsup kind]
  | .const kind value => [.const kind value]
  | .call tag func args => .call tag func args :: Node.subnodesOf args
  | .opExpr op args => .opExpr op args :: Node.subnodesOf args
  | .boolExpr boolop args => .boolExpr boolop args :: Node.subnodesOf args
  | .relabelType arg => .relabelType arg :: Node.subnodes arg
  | .aggref agg how aggdirectargs args aggfilter =>
    .aggref agg how aggdirectargs args aggfilter :: (Node.subnodesOf aggdirectargs ++ Node.subnodesOf args ++ Node.subnodesOf aggfilter)
  | .sqlValueFunction func => [.sqlValueFunction func]
  | .nextValueExpr func => [.nextValueExpr func]

def Node.subnodesOf : List (Node Moment) → List (Node Moment)
  | [] => []
  | node :: nodes => Node.subnodes node ++ Node.subnodesOf nodes
end

def Node.kind : Node Moment → Kind
  | .var _ _ _ kind => kind
  | .const kind _ => kind
  | .call _ func _ => func.kind
  | .opExpr op _ => op.func.kind
  | .boolExpr _ _ => .bool
  | .relabelType arg => arg.kind
  | .aggref agg _ _ _ _ => agg.kind
  | .sqlValueFunction func => func.kind
  | .nextValueExpr func => func.kind

def Node.var? : Node Moment → Option (Nat × Int × Kind)
  | .var varno varattno 0 kind => some (varno, varattno, kind)
  | _ => none

def Node.vars (node : Node Moment) : List (Nat × Int × Kind) := node.subnodes.filterMap Node.var?

/-- AND, OR and NOT in three-valued logic. -/
def BoolExprType.combine : BoolExprType → List Datum → Datum
  | .and, ds => if ds.contains (.bool false) then .bool false else if ds.all (· == .bool true) then .bool true else .null
  | .or, ds => if ds.contains (.bool true) then .bool true else if ds.all (· == .bool false) then .bool false else .null
  | .not, [.bool b] => .bool !b
  | .not, _ => .null

/-- One row of the FROM list, as a column number of a range table entry reads it. -/
abbrev RowReader := Nat → Int → Datum

mutual
/-- The value of a node on a row; an aggregate reads the rows of its group. -/
def Node.eval (m : Moment) (group : List RowReader) (read : RowReader) : Node Moment → Datum
  | .var varno varattno varlevelsup _ => if varlevelsup = 0 then read varno varattno else .null
  | .const _ value => value.val
  | .call _ func args => func.apply m (Node.evalArgs m group read args)
  | .opExpr op args => op.func.apply m (Node.evalArgs m group read args)
  | .boolExpr boolop args => boolop.combine (Node.evalArgs m group read args)
  | .relabelType arg => Node.eval m group read arg
  | .aggref agg how aggdirectargs args aggfilter =>
    let kept := group.filter fun row => (Node.evalArgs m [] row aggfilter).all (· == .bool true)
    let rows := kept.map fun row => Node.evalArgs m [] row aggdirectargs ++ Node.evalArgs m [] row args
    agg.apply m (if how.aggdistinct then rows.dedup else rows)
  | .sqlValueFunction func => func.apply m []
  | .nextValueExpr func => func.apply m []

def Node.evalArgs (m : Moment) (group : List RowReader) (read : RowReader) : List (Node Moment) → List Datum
  | [] => []
  | node :: nodes => Node.eval m group read node :: Node.evalArgs m group read nodes
end

/-- `contain_mutable_functions` of one node. -/
def Node.callsMutable : Node Moment → Bool
  | .call _ func _ => func.volatility ≠ .immutable
  | .opExpr op _ => op.func.volatility ≠ .immutable
  | .aggref agg _ _ _ _ => agg.volatility ≠ .immutable
  | .sqlValueFunction _ | .nextValueExpr _ => true
  | _ => false

def Node.containMutableFunctions (node : Node Moment) : Bool := node.subnodes.any Node.callsMutable

/-- `find_mutable` of one node: what a function there is called. -/
def Node.mutableName : Node Moment → Option String
  | .call tag func _ =>
    match tag with
    | .funcExpr | .distinctExpr | .nullIfExpr | .scalarArrayOpExpr => if func.volatility ≠ .immutable then some func.name else none
    | .coerceViaIo | .other => none
  | .opExpr op _ => if op.func.volatility ≠ .immutable then some op.func.name else none
  | .sqlValueFunction _ => some "current_date/current_time/current_user or similar"
  | .nextValueExpr _ => some "nextval"
  | _ => none

def Node.findMutable (node : Node Moment) : Option String := node.subnodes.findSome? Node.mutableName

/-- `contain_agg_clause`. -/
def Node.isAggref : Node Moment → Bool
  | .aggref _ _ _ _ _ => true
  | _ => false

def Node.containAggClause (node : Node Moment) : Bool := node.subnodes.any Node.isAggref

theorem Node.mem_subnodes (node : Node Moment) : node ∈ node.subnodes := by
  cases node <;> simp [Node.subnodes]

theorem Node.mem_subnodesOf {nodes : List (Node Moment)} {n : Node Moment} : n ∈ Node.subnodesOf nodes ↔ ∃ node ∈ nodes, n ∈ node.subnodes := by
  induction nodes with
  | nil => simp [Node.subnodesOf]
  | cons node nodes ih => rw [Node.subnodesOf, List.mem_append, ih, List.exists_mem_cons_iff]

theorem Node.mem_vars {node : Node Moment} {v : Nat × Int × Kind} : v ∈ node.vars ↔ Node.var v.1 v.2.1 0 v.2.2 ∈ node.subnodes := by
  rw [Node.vars, List.mem_filterMap]
  constructor
  · rintro ⟨n, member, is⟩
    cases n with
    | var varno varattno varlevelsup kind =>
        cases varlevelsup with
        | zero =>
            rw [Node.var?, Option.some.injEq] at is
            exact is ▸ member
        | succ level => cases is
    | _ => cases is
  · intro member
    exact ⟨_, member, rfl⟩

theorem Node.vars_of_mem {nodes : List (Node Moment)} {P : Nat × Int × Kind → Prop}
    (each : ∀ v : Nat × Int × Kind, Node.var v.1 v.2.1 0 v.2.2 ∈ Node.subnodesOf nodes → P v) {node : Node Moment} (member : node ∈ nodes) :
    ∀ v ∈ node.vars, P v := fun v read => each v (Node.mem_subnodesOf.mpr ⟨node, member, Node.mem_vars.mp read⟩)

theorem Node.evalArgs_eq (m : Moment) (group : List RowReader) (read : RowReader) (nodes : List (Node Moment)) :
    Node.evalArgs m group read nodes = nodes.map (Node.eval m group read) := by
  induction nodes with
  | nil => rfl
  | cons node nodes ih => rw [Node.evalArgs, ih, List.map_cons]

section Congruence

variable {ι : Type} {A B : ι → RowReader} {group : List ι} {read read' : RowReader}

/-- Two readings of a group and a row that agree on some columns. -/
structure AgreeOn (A B : ι → RowReader) (group : List ι) (read read' : RowReader) (v : Nat × Int × Kind) : Prop where
  row : read v.1 v.2.1 = read' v.1 v.2.1
  group : ∀ i ∈ group, A i v.1 v.2.1 = B i v.1 v.2.1

theorem AgreeOn.of_group {v : Nat × Int × Kind} (agree : AgreeOn A B group read read' v) {i : ι} (member : i ∈ group) :
    AgreeOn A B [] (A i) (B i) v where
  row := agree.group i member
  group := fun _ none => absurd none List.not_mem_nil

mutual
theorem Node.eval_agree (m : Moment) (node : Node Moment) {A B : ι → RowReader} {group : List ι} {read read' : RowReader}
    (agree : ∀ v ∈ node.vars, AgreeOn A B group read read' v) :
    node.eval m (group.map A) read = node.eval m (group.map B) read' := by
  cases node with
  | var varno varattno varlevelsup kind =>
      rw [Node.eval, Node.eval]
      cases varlevelsup with
      | zero => exact (agree (varno, varattno, kind) (Node.mem_vars.mpr (Node.mem_subnodes _))).row
      | succ level => rfl
  | const kind value => rfl
  | call tag func args =>
      rw [Node.eval, Node.eval, Node.evalArgs_agree m args fun v member => agree v (Node.mem_vars.mpr (List.mem_cons_of_mem _ member))]
  | opExpr op args =>
      rw [Node.eval, Node.eval, Node.evalArgs_agree m args fun v member => agree v (Node.mem_vars.mpr (List.mem_cons_of_mem _ member))]
  | boolExpr boolop args =>
      rw [Node.eval, Node.eval, Node.evalArgs_agree m args fun v member => agree v (Node.mem_vars.mpr (List.mem_cons_of_mem _ member))]
  | relabelType arg =>
      rw [Node.eval, Node.eval]
      exact Node.eval_agree m arg fun v member => agree v (Node.mem_vars.mpr (List.mem_cons_of_mem _ (Node.mem_vars.mp member)))
  | aggref agg how aggdirectargs args aggfilter =>
      have below : ∀ v : Nat × Int × Kind,
          Node.var v.1 v.2.1 0 v.2.2 ∈ Node.subnodesOf aggdirectargs ++ Node.subnodesOf args ++ Node.subnodesOf aggfilter →
            AgreeOn A B group read read' v := fun v member => agree v (Node.mem_vars.mpr (List.mem_cons_of_mem _ member))
      have alone (i : ι) (inside : i ∈ group) (nodes : List (Node Moment)) (within : ∀ n ∈ Node.subnodesOf nodes,
          n ∈ Node.subnodesOf aggdirectargs ++ Node.subnodesOf args ++ Node.subnodesOf aggfilter) (v : Nat × Int × Kind)
          (member : Node.var v.1 v.2.1 0 v.2.2 ∈ Node.subnodesOf nodes) : AgreeOn A B [] (A i) (B i) v := (below v (within _ member)).of_group inside
      have inDirect : ∀ i ∈ group, Node.evalArgs m [] (A i) aggdirectargs = Node.evalArgs m [] (B i) aggdirectargs := fun i inside =>
        Node.evalArgs_agree m aggdirectargs (alone i inside aggdirectargs fun _ member => List.mem_append_left _ (List.mem_append_left _ member))
      have inArgs : ∀ i ∈ group, Node.evalArgs m [] (A i) args = Node.evalArgs m [] (B i) args := fun i inside =>
        Node.evalArgs_agree m args (alone i inside args fun _ member => List.mem_append_left _ (List.mem_append_right _ member))
      have inFilter : ∀ i ∈ group, Node.evalArgs m [] (A i) aggfilter = Node.evalArgs m [] (B i) aggfilter := fun i inside =>
        Node.evalArgs_agree m aggfilter (alone i inside aggfilter fun _ member => List.mem_append_right _ member)
      have kept : group.filter (fun i => (Node.evalArgs m [] (A i) aggfilter).all (· == .bool true)) =
          group.filter fun i => (Node.evalArgs m [] (B i) aggfilter).all (· == .bool true) := by
        apply List.filter_congr
        intro i inside
        rw [inFilter i inside]
      have rows : ∀ i ∈ group.filter (fun i => (Node.evalArgs m [] (B i) aggfilter).all (· == .bool true)),
          Node.evalArgs m [] (A i) aggdirectargs ++ Node.evalArgs m [] (A i) args =
            Node.evalArgs m [] (B i) aggdirectargs ++ Node.evalArgs m [] (B i) args := by
        intro i inside
        have member := List.mem_of_mem_filter inside
        rw [inDirect i member, inArgs i member]
      simp only [Node.eval, List.filter_map, List.map_map, Function.comp_def]
      rw [kept, List.map_congr_left rows]
  | sqlValueFunction func => rfl
  | nextValueExpr func => rfl

theorem Node.evalArgs_agree (m : Moment) (nodes : List (Node Moment)) {A B : ι → RowReader} {group : List ι} {read read' : RowReader}
    (agree : ∀ v : Nat × Int × Kind, Node.var v.1 v.2.1 0 v.2.2 ∈ Node.subnodesOf nodes → AgreeOn A B group read read' v) :
    Node.evalArgs m (group.map A) read nodes = Node.evalArgs m (group.map B) read' nodes := by
  cases nodes with
  | nil => rfl
  | cons node nodes =>
      have head := Node.eval_agree m node (Node.vars_of_mem agree List.mem_cons_self)
      have tail := Node.evalArgs_agree m nodes fun v member => agree v (List.mem_append_right _ member)
      rw [Node.evalArgs, Node.evalArgs, head, tail]
end

end Congruence

/-- On a row alone, a node reads its columns. -/
theorem Node.eval_congr (m : Moment) (node : Node Moment) {read read' : RowReader}
    (same : ∀ v ∈ node.vars, read v.1 v.2.1 = read' v.1 v.2.1) : node.eval m [] read = node.eval m [] read' :=
  @Node.eval_agree _ Empty m node Empty.elim Empty.elim [] read read' fun v member =>
    ⟨same v member, fun _ none => absurd none List.not_mem_nil⟩

theorem BoolExprType.combine_typed (boolop : BoolExprType) (ds : List Datum) : (boolop.combine ds).HasKind .bool := by
  unfold BoolExprType.combine
  split
  · split_ifs <;> trivial
  · split_ifs <;> trivial
  · trivial
  · trivial

/-- A node has values of its type. -/
theorem Node.eval_typed (m : Moment) (group : List RowReader) (read : RowReader) : ∀ node : Node Moment,
    (∀ v ∈ node.vars, (read v.1 v.2.1).HasKind v.2.2) → (node.eval m group read).HasKind node.kind
  | .var varno varattno varlevelsup kind => by
      intro typed
      rw [Node.eval, Node.kind]
      cases varlevelsup with
      | zero => exact typed (varno, varattno, kind) (Node.mem_vars.mpr (Node.mem_subnodes _))
      | succ level => trivial
  | .const kind value => fun _ => value.property
  | .call tag func args => fun _ => func.typed m _
  | .opExpr op args => fun _ => op.func.typed m _
  | .boolExpr boolop args => fun _ => boolop.combine_typed _
  | .relabelType arg => by
      intro typed
      exact Node.eval_typed m group read arg fun v member => typed v (Node.mem_vars.mpr (List.mem_cons_of_mem _ (Node.mem_vars.mp member)))
  | .aggref agg how aggdirectargs args aggfilter => fun _ => agg.typed m _
  | .sqlValueFunction func => fun _ => func.typed m _
  | .nextValueExpr func => fun _ => func.typed m _

mutual
theorem Node.eval_settled (m m' : Moment) (group : List RowReader) (read : RowReader) (node : Node Moment)
    (settled : ∀ n ∈ node.subnodes, n.callsMutable = false) : node.eval m group read = node.eval m' group read := by
  cases node with
  | var varno varattno varlevelsup kind => rfl
  | const kind value => rfl
  | call tag func args =>
      have immutable : func.volatility = .immutable := by simpa [Node.callsMutable] using settled _ (Node.mem_subnodes _)
      rw [Node.eval, Node.eval, Node.evalArgs_settled m m' group read args fun n member => settled n (List.mem_cons_of_mem _ member)]
      exact func.settled immutable m m' _
  | opExpr op args =>
      have immutable : op.func.volatility = .immutable := by simpa [Node.callsMutable] using settled _ (Node.mem_subnodes _)
      rw [Node.eval, Node.eval, Node.evalArgs_settled m m' group read args fun n member => settled n (List.mem_cons_of_mem _ member)]
      exact op.func.settled immutable m m' _
  | boolExpr boolop args =>
      rw [Node.eval, Node.eval, Node.evalArgs_settled m m' group read args fun n member => settled n (List.mem_cons_of_mem _ member)]
  | relabelType arg =>
      rw [Node.eval, Node.eval]
      exact Node.eval_settled m m' group read arg fun n member => settled n (List.mem_cons_of_mem _ member)
  | aggref agg how aggdirectargs args aggfilter =>
      have immutable : agg.volatility = .immutable := by simpa [Node.callsMutable] using settled _ (Node.mem_subnodes _)
      have inDirect := fun row => Node.evalArgs_settled m m' [] row aggdirectargs fun n member =>
        settled n (List.mem_cons_of_mem _ (List.mem_append_left _ (List.mem_append_left _ member)))
      have inArgs := fun row => Node.evalArgs_settled m m' [] row args fun n member =>
        settled n (List.mem_cons_of_mem _ (List.mem_append_left _ (List.mem_append_right _ member)))
      have inFilter := fun row => Node.evalArgs_settled m m' [] row aggfilter fun n member =>
        settled n (List.mem_cons_of_mem _ (List.mem_append_right _ member))
      simp only [Node.eval, inDirect, inArgs, inFilter]
      exact agg.settled immutable m m' _
  | sqlValueFunction func => cases settled _ (Node.mem_subnodes _)
  | nextValueExpr func => cases settled _ (Node.mem_subnodes _)

theorem Node.evalArgs_settled (m m' : Moment) (group : List RowReader) (read : RowReader) (nodes : List (Node Moment))
    (settled : ∀ n ∈ Node.subnodesOf nodes, n.callsMutable = false) :
    Node.evalArgs m group read nodes = Node.evalArgs m' group read nodes := by
  cases nodes with
  | nil => rfl
  | cons node nodes =>
      have head := Node.eval_settled m m' group read node fun n member => settled n (List.mem_append_left _ member)
      have tail := Node.evalArgs_settled m m' group read nodes fun n member => settled n (List.mem_append_right _ member)
      rw [Node.evalArgs, Node.evalArgs, head, tail]
end

mutual
theorem Node.eval_group (m : Moment) (group : List RowReader) (read : RowReader) (node : Node Moment) (free : ∀ n ∈ node.subnodes, n.isAggref = false) :
    node.eval m group read = node.eval m [] read := by
  cases node with
  | call tag func args =>
      rw [Node.eval, Node.eval, Node.evalArgs_group m group read args fun n member => free n (List.mem_cons_of_mem _ member)]
  | opExpr op args =>
      rw [Node.eval, Node.eval, Node.evalArgs_group m group read args fun n member => free n (List.mem_cons_of_mem _ member)]
  | boolExpr boolop args =>
      rw [Node.eval, Node.eval, Node.evalArgs_group m group read args fun n member => free n (List.mem_cons_of_mem _ member)]
  | relabelType arg =>
      rw [Node.eval, Node.eval]
      exact Node.eval_group m group read arg fun n member => free n (List.mem_cons_of_mem _ member)
  | aggref agg how aggdirectargs args aggfilter => cases free _ (Node.mem_subnodes _)
  | _ => rfl

theorem Node.evalArgs_group (m : Moment) (group : List RowReader) (read : RowReader) (nodes : List (Node Moment))
    (free : ∀ n ∈ Node.subnodesOf nodes, n.isAggref = false) : Node.evalArgs m group read nodes = Node.evalArgs m [] read nodes := by
  cases nodes with
  | nil => rfl
  | cons node nodes =>
      have head := Node.eval_group m group read node fun n member => free n (List.mem_append_left _ member)
      have tail := Node.evalArgs_group m group read nodes fun n member => free n (List.mem_append_right _ member)
      rw [Node.evalArgs, Node.evalArgs, head, tail]
end

def Node.toExpr (m : Moment) (place : Nat → Int → Nat × String) (node : Node Moment) : SqlExpr where
  kind := node.kind
  vars := node.vars.map fun v => ((place v.1 v.2.1).1, (place v.1 v.2.1).2, v.2.2)
  eval := fun ρ => node.eval m [] fun varno attno => ρ (place varno attno).1 (place varno attno).2
  eval_congr := by
    intro ρ σ same
    apply node.eval_congr m
    intro v member
    exact same _ (List.mem_map_of_mem (f := fun v : Nat × Int × Kind => ((place v.1 v.2.1).1, (place v.1 v.2.1).2, v.2.2)) member)
  eval_typed := by
    intro ρ typed
    apply node.eval_typed m
    intro v member
    exact typed _ (List.mem_map_of_mem (f := fun v : Nat × Int × Kind => ((place v.1 v.2.1).1, (place v.1 v.2.1).2, v.2.2)) member)

theorem BoolExprType.combine_and {ds : List Datum} : BoolExprType.and.combine ds = .bool true ↔ ∀ d ∈ ds, d = .bool true := by
  rw [BoolExprType.combine]
  constructor
  · intro holds
    split_ifs at holds with one all
    · cases holds
    · simpa using all
  · intro each
    have none : ¬ ds.contains (.bool false) := by
      rw [List.contains_iff_mem]
      intro member
      cases each _ member
    rw [if_neg none, if_pos (List.all_eq_true.mpr fun d member => beq_iff_eq.mpr (each d member))]

end Nabla
