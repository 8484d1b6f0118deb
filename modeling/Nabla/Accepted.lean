import Nabla.Validate

/-! What `validate` has checked when it accepts: one lemma for each of its steps, and the whole
as one structure. -/
namespace Nabla

variable {Moment : Type}

theorem bind_ok {ε α β : Type} {x : Except ε α} {f : α → Except ε β} {b : β} : (x >>= f) = .ok b ↔ ∃ a, x = .ok a ∧ f a = .ok b := by
  cases x with
  | error e => simp [bind, Except.bind]
  | ok a => simp [bind, Except.bind]

theorem map_ok {ε α β : Type} {x : Except ε α} {f : α → β} {b : β} : x.map f = .ok b ↔ ∃ a, x = .ok a ∧ b = f a := by
  cases x with
  | error e => simp [Except.map]
  | ok a => simp [Except.map, eq_comm]

theorem rejectIf_ok {applies : Bool} {reason : String} {u : Unit} : rejectIf applies reason = .ok u ↔ applies = false := by
  cases applies with
  | true => simp [rejectIf, reject]
  | false => simp [rejectIf]

theorem rejectIf_bind {β : Type} {applies : Bool} {reason : String} {f : Unit → Except ApiError β} {b : β} :
    (rejectIf applies reason >>= f) = .ok b ↔ applies = false ∧ f () = .ok b := by
  rw [bind_ok]
  constructor
  · rintro ⟨_, passed, done⟩
    exact ⟨rejectIf_ok.mp passed, done⟩
  · rintro ⟨passed, done⟩
    exact ⟨(), rejectIf_ok.mpr passed, done⟩

theorem reject_bind {α β : Type} {reason : String} {f : α → Except ApiError β} {b : β} : ¬ (reject reason >>= f) = .ok b := by
  simp [reject, bind, Except.bind]

theorem requireImmutable_ok {node : Node Moment} {place : String} {u : Unit} :
    requireImmutable node place = .ok u ↔ node.containMutableFunctions = false := by
  rw [requireImmutable]
  cases node.containMutableFunctions with
  | true =>
      rw [if_pos rfl]
      constructor
      · intro failed
        cases found : node.findMutable with
        | some name =>
            rw [found] at failed
            cases failed
        | none =>
            rw [found] at failed
            cases failed
      · intro failed
        cases failed
  | false => exact ⟨fun _ => rfl, fun _ => rfl⟩

theorem requireImmutable_bind {β : Type} {node : Node Moment} {place : String} {f : Unit → Except ApiError β} {b : β} :
    (requireImmutable node place >>= f) = .ok b ↔ node.containMutableFunctions = false ∧ f () = .ok b := by
  rw [bind_ok]
  constructor
  · rintro ⟨_, passed, done⟩
    exact ⟨requireImmutable_ok.mp passed, done⟩
  · rintro ⟨passed, done⟩
    exact ⟨(), requireImmutable_ok.mpr passed, done⟩

theorem requireBaseVars_ok {allowed : List Nat} {node : Node Moment} {u : Unit} (passed : requireBaseVars allowed node = .ok u) :
    ∀ v ∈ node.vars, v.1 ∈ allowed := by
  rw [requireBaseVars, rejectIf_ok, List.any_eq_false] at passed
  intro v member
  have own := passed _ (Node.mem_vars.mp member)
  simpa [Node.foreign] using own

theorem rejectUnsupportedClauses_ok {q : Query Moment} {u : Unit} (passed : rejectUnsupportedClauses q = .ok u) :
    ∀ clause ∈ q.unsupported, clause.1 = false := by
  rw [rejectUnsupportedClauses] at passed
  cases found : q.unsupported.find? Prod.fst with
  | some clause =>
      rw [found] at passed
      cases passed
  | none => exact fun clause member => by simpa using List.find?_eq_none.mp found clause member

def relationEntries (i : Nat) (rtes : List RangeTblEntry) : List RelEntry :=
  (rtes.zipIdx i).filterMap fun r => if r.1.rtekind = .relation then some ⟨r.2, r.1⟩ else none

theorem collectEntries_ok {i : Nat} {rtes : List RangeTblEntry} {entries : List RelEntry} (passed : collectEntries i rtes = .ok entries) :
    entries = relationEntries i rtes ∧ ∀ rte ∈ rtes, rte.rtekind = .relation ∨ rte.rtekind = .join := by
  induction rtes generalizing i entries with
  | nil =>
      cases passed
      exact ⟨rfl, fun rte member => absurd member List.not_mem_nil⟩
  | cons rte rtes ih =>
      rw [collectEntries] at passed
      cases lateral : rte.lateral with
      | true =>
          rw [lateral, if_pos rfl] at passed
          cases passed
      | false =>
          rw [lateral, if_neg Bool.false_ne_true] at passed
          cases unsupported : rte.rtekind.unsupported with
          | some reason =>
              rw [unsupported] at passed
              cases passed
          | none =>
              rw [unsupported, map_ok] at passed
              obtain ⟨rest, restPassed, rfl⟩ := passed
              obtain ⟨rfl, kinds⟩ := ih restPassed
              have kind : rte.rtekind = .relation ∨ rte.rtekind = .join := by
                cases is : rte.rtekind <;> simp [is, RteKind.unsupported] at unsupported ⊢
              refine ⟨?_, List.forall_mem_cons.mpr ⟨kind, kinds⟩⟩
              rw [relationEntries, relationEntries, List.zipIdx_cons]
              rcases kind with is | is
              · rw [if_pos is, List.filterMap_cons_some (by rw [if_pos is]), List.singleton_append]
              · have other : ¬ rte.rtekind = .relation := by rw [is]; decide
                rw [if_neg other, List.filterMap_cons_none (by rw [if_neg other]), List.nil_append]

theorem mem_relationEntries {i : Nat} {rtes : List RangeTblEntry} {entry : RelEntry} (member : entry ∈ relationEntries i rtes) :
    i ≤ entry.rtIndex ∧ rtes[entry.rtIndex - i]? = some entry.rte ∧ entry.rte.rtekind = .relation := by
  obtain ⟨⟨rte, j⟩, listed, is⟩ := List.mem_filterMap.mp member
  obtain ⟨low, high, same⟩ := List.mem_zipIdx listed
  by_cases kind : rte.rtekind = .relation
  · rw [if_pos kind, Option.some.injEq] at is
    subst is
    refine ⟨low, ?_, kind⟩
    have within : j - i < rtes.length := by omega
    rw [List.getElem?_eq_getElem within, same]
  · rw [if_neg kind] at is
    cases is

theorem relationEntries_nodup (i : Nat) (rtes : List RangeTblEntry) : ((relationEntries i rtes).map RelEntry.rtIndex).Nodup := by
  have indices : ((rtes.zipIdx i).map Prod.snd).Nodup := by
    rw [List.zipIdx_map_snd]
    exact List.nodup_range'
  apply List.Nodup.sublist _ indices
  rw [relationEntries, List.map_filterMap]
  have each : ∀ r : RangeTblEntry × Nat, (if r.1.rtekind = .relation then some (RelEntry.mk r.2 r.1) else none).map RelEntry.rtIndex =
      if r.1.rtekind = .relation then some r.2 else none := by
    intro r
    split <;> rfl
  simp only [each]
  rw [← List.filterMap_eq_map]
  induction rtes.zipIdx i with
  | nil => exact List.Sublist.refl _
  | cons r rs ih =>
      rw [List.filterMap_cons, List.filterMap_cons]
      by_cases kind : r.1.rtekind = .relation
      · rw [if_pos kind]
        exact ih.cons_cons _
      · rw [if_neg kind]
        exact ih.cons _

theorem Query.collectRelations_ok {q : Query Moment} {entries : List RelEntry} (passed : q.collectRelations = .ok entries) :
    entries = relationEntries 1 q.rtable ∧ entries ≠ [] ∧ ∀ rte ∈ q.rtable, rte.rtekind = .relation ∨ rte.rtekind = .join := by
  rw [Query.collectRelations, bind_ok] at passed
  obtain ⟨made, collected, passed⟩ := passed
  obtain ⟨some, done⟩ := rejectIf_bind.mp passed
  cases done
  obtain ⟨is, kinds⟩ := collectEntries_ok collected
  refine ⟨is, ?_, kinds⟩
  rintro rfl
  cases some

structure ListedRelation.Ordinary (cat : SystemCatalog) (isJoin : Bool) (rel : ListedRelation) : Prop where
  facts : rel.facts = cat.relation rel.entry.rte.relid
  qualified : rel.qualified = cat.qualified rel.entry.rte.relid
  aliasName : rel.aliasName = rel.entry.rte.eref.getD rel.facts.relname
  table : rel.entry.rte.relkind = 'r'
  schema : rel.facts.nspname ∉ ["nabla_store", "nabla", "nabla_shadow"]
  view : rel.facts.storedView = false ∧ rel.facts.namedView = false
  children : rel.facts.hasChildren = false
  keyed : isJoin = true → rel.facts.primaryKey ≠ []

theorem checkRelationKind_ok {cat : SystemCatalog} {rte : RangeTblEntry} {u : Unit} (passed : checkRelationKind cat rte = .ok u) :
    rte.relkind = 'r' ∧ (cat.relation rte.relid).nspname ∉ ["nabla_store", "nabla", "nabla_shadow"] ∧ (cat.relation rte.relid).storedView = false := by
  simp only [checkRelationKind, rejectIf_bind] at passed
  obtain ⟨store, stored, passed⟩ := passed
  have table : rte.relkind = 'r' := by
    split at passed
    · assumption
    all_goals exact absurd passed reject_bind
  rw [table] at passed
  simp only [rejectIf_bind, rejectIf_ok] at passed
  obtain ⟨catalog, shadow⟩ := passed
  refine ⟨table, ?_, stored⟩
  simp only [decide_eq_false_iff_not] at store catalog shadow
  simp [store, catalog, shadow]

theorem lookupBase_ok {cat : SystemCatalog} {relid : Nat} {u : Unit} (passed : lookupBase cat relid = .ok u) :
    (cat.relation relid).namedView = false ∧ (cat.relation relid).hasChildren = false := by
  simpa only [lookupBase, rejectIf_bind, rejectIf_ok] using passed

theorem listRelations_ok {cat : SystemCatalog} {isJoin : Bool} {i : Nat} {seen : List Nat} {entries : List RelEntry} {rels : List ListedRelation}
    (passed : listRelations cat isJoin i seen entries = .ok rels) :
    rels.map ListedRelation.entry = entries ∧ rels.map ListedRelation.rti = List.range' i rels.length ∧ (∀ rel ∈ rels, rel.Ordinary cat isJoin) ∧
      (rels.map fun rel => rel.entry.rte.relid).Nodup ∧ ∀ rel ∈ rels, rel.entry.rte.relid ∉ seen := by
  induction entries generalizing i seen rels with
  | nil =>
      cases passed
      exact ⟨rfl, rfl, fun rel member => absurd member List.not_mem_nil, List.nodup_nil, fun rel member => absurd member List.not_mem_nil⟩
  | cons entry entries ih =>
      rw [listRelations, bind_ok] at passed
      obtain ⟨_, kind, passed⟩ := passed
      obtain ⟨fresh, passed⟩ := rejectIf_bind.mp passed
      obtain ⟨_, base, passed⟩ := bind_ok.mp passed
      obtain ⟨keyed, passed⟩ := rejectIf_bind.mp passed
      obtain ⟨rest, restPassed, done⟩ := bind_ok.mp passed
      cases done
      obtain ⟨table, schema, stored⟩ := checkRelationKind_ok kind
      obtain ⟨named, children⟩ := lookupBase_ok base
      obtain ⟨entriesAre, positions, ordinary, once, new⟩ := ih restPassed
      have new' : entry.rte.relid ∉ seen := by simpa using fresh
      refine ⟨by rw [List.map_cons, entriesAre], ?_, ?_, ?_, ?_⟩
      · rw [List.map_cons, positions, List.length_cons, List.range'_succ]
      · refine List.forall_mem_cons.mpr ⟨?_, ordinary⟩
        refine ⟨rfl, rfl, rfl, table, schema, ⟨stored, named⟩, children, ?_⟩
        rintro rfl none
        rw [Bool.true_and] at keyed
        rw [none] at keyed
        cases keyed
      · rw [List.map_cons, List.nodup_cons]
        refine ⟨?_, once⟩
        intro member
        obtain ⟨rel, inside, same⟩ := List.mem_map.mp member
        exact new rel inside (same ▸ List.mem_cons_self)
      · exact List.forall_mem_cons.mpr ⟨new', fun rel member inside => new rel member (List.mem_cons_of_mem _ inside)⟩

theorem FromNode.collectQuals_join {jointype : JoinType} {larg rarg : FromNode Moment} {qual : Option (Node Moment)} {quals : List (Node Moment)}
    (walked : (FromNode.joinExpr jointype larg rarg qual).collectQuals = .ok quals) :
    jointype = .inner ∧ ∃ left right, larg.collectQuals = .ok left ∧ rarg.collectQuals = .ok right ∧ quals = left ++ right ++ qual.toList := by
  rw [FromNode.collectQuals] at walked
  cases jointype with
  | inner =>
      simp only [JoinType.unsupported] at walked
      cases onLeft : larg.collectQuals with
      | error e => simp [onLeft] at walked
      | ok left =>
          cases onRight : rarg.collectQuals with
          | error e => simp [onLeft, onRight] at walked
          | ok right =>
              simp only [onLeft, onRight, Except.ok.injEq] at walked
              exact ⟨rfl, left, right, rfl, rfl, walked.symm⟩
  | _ => cases walked

theorem FromNode.collectQualsFrom_cons {item : FromNode Moment} {items : List (FromNode Moment)} {quals : List (Node Moment)}
    (walked : FromNode.collectQualsFrom (item :: items) = .ok quals) :
    ∃ first rest, item.collectQuals = .ok first ∧ FromNode.collectQualsFrom items = .ok rest ∧ quals = first ++ rest := by
  rw [FromNode.collectQualsFrom] at walked
  cases onHead : item.collectQuals with
  | error e => simp [onHead] at walked
  | ok first =>
      cases onTail : FromNode.collectQualsFrom items with
      | error e => simp [onHead, onTail] at walked
      | ok rest =>
          simp only [onHead, onTail, Except.ok.injEq] at walked
          exact ⟨first, rest, rfl, rfl, walked.symm⟩

mutual
theorem FromNode.collectQuals_toTree (expr : Node Moment → SqlExpr) (t : FromNode Moment) {quals : List (Node Moment)} (walked : t.collectQuals = .ok quals) :
    (t.toTree expr).collectQuals = .ok (quals.map expr) := by
  cases t with
  | rangeTblRef rti =>
      cases walked
      rfl
  | fromExpr fromlist qual =>
      rw [FromNode.collectQuals, map_ok] at walked
      obtain ⟨inner, innerWalked, rfl⟩ := walked
      rw [FromNode.toTree, JoinTree.collectQuals_from]
      refine ⟨inner.map expr, FromNode.collectQualsFrom_toTrees expr fromlist innerWalked, ?_⟩
      rw [List.map_append]
      cases qual <;> rfl
  | joinExpr jointype larg rarg qual =>
      obtain ⟨inner, left, right, leftWalked, rightWalked, rfl⟩ := FromNode.collectQuals_join walked
      rw [FromNode.toTree, JoinTree.collectQuals_join]
      refine ⟨inner, left.map expr, right.map expr, FromNode.collectQuals_toTree expr larg leftWalked, FromNode.collectQuals_toTree expr rarg rightWalked, ?_⟩
      rw [List.map_append, List.map_append]
      cases qual <;> rfl

theorem FromNode.collectQualsFrom_toTrees (expr : Node Moment → SqlExpr) (items : List (FromNode Moment)) {quals : List (Node Moment)}
    (walked : FromNode.collectQualsFrom items = .ok quals) : JoinTree.collectQualsFrom (FromNode.toTrees expr items) = .ok (quals.map expr) := by
  cases items with
  | nil =>
      cases walked
      rfl
  | cons item items =>
      obtain ⟨first, rest, headWalked, tailWalked, rfl⟩ := FromNode.collectQualsFrom_cons walked
      rw [FromNode.toTrees, JoinTree.collectQualsFrom_cons]
      exact ⟨first.map expr, rest.map expr, FromNode.collectQuals_toTree expr item headWalked, FromNode.collectQualsFrom_toTrees expr items tailWalked,
        List.map_append⟩
end

theorem checkQuals_ok {place : String} {allowed : List Nat} {quals : List (Node Moment)} {u : Unit} (passed : checkQuals place allowed quals = .ok u) :
    ∀ qual ∈ quals, qual.containMutableFunctions = false ∧ ∀ v ∈ qual.vars, v.1 ∈ allowed := by
  induction quals with
  | nil => exact fun qual member => absurd member List.not_mem_nil
  | cons qual quals ih =>
      rw [checkQuals, requireImmutable_bind] at passed
      obtain ⟨immutable, passed⟩ := passed
      obtain ⟨_, based, passed⟩ := bind_ok.mp passed
      exact List.forall_mem_cons.mpr ⟨⟨immutable, requireBaseVars_ok based⟩, ih passed⟩

theorem checkTargets_ok {allowed : List Nat} {seen : List String} {ts : List (TargetEntry Moment)} {u : Unit} (passed : checkTargets allowed seen ts = .ok u) :
    (ts.map TargetEntry.name).Nodup ∧ (∀ t ∈ ts, t.name ∉ seen) ∧ ∀ t ∈ ts, reservedName t.name = false ∧ ∀ v ∈ t.expr.vars, v.1 ∈ allowed := by
  induction ts generalizing seen with
  | nil => exact ⟨List.nodup_nil, fun t member => absurd member List.not_mem_nil, fun t member => absurd member List.not_mem_nil⟩
  | cons t ts ih =>
      rw [checkTargets, rejectIf_bind, rejectIf_bind] at passed
      obtain ⟨unreserved, fresh, passed⟩ := passed
      obtain ⟨_, based, passed⟩ := bind_ok.mp passed
      obtain ⟨once, new, each⟩ := ih passed
      refine ⟨?_, ?_, List.forall_mem_cons.mpr ⟨⟨unreserved, requireBaseVars_ok based⟩, each⟩⟩
      · rw [List.map_cons, List.nodup_cons]
        refine ⟨?_, once⟩
        intro member
        obtain ⟨other, inside, same⟩ := List.mem_map.mp member
        exact new other inside (same ▸ List.mem_cons_self)
      · have fresh' : t.name ∉ seen := by simpa using fresh
        exact List.forall_mem_cons.mpr ⟨fresh', fun other member inside => new other member (List.mem_cons_of_mem _ inside)⟩

def ListedRelation.reads (isJoin : Bool) (varRefs : List (Nat × Int)) (rel : ListedRelation) : List String :=
  (varRefs.filter fun v => v.1 = rel.entry.rtIndex).map (fun v => rel.facts.attname v.2) ++ if isJoin then rel.facts.pkColumns else []

/-- What the loop over the columns makes of a relation. -/
structure ListedRelation.Used (isJoin : Bool) (varRefs joinRefs : List (Nat × Int)) (rel : ListedRelation) (used : BaseRelation) : Prop where
  oid : used.oid = rel.entry.rte.relid
  rti : used.rti = rel.rti
  qualified : used.qualified = rel.qualified
  pkColumns : used.pkColumns = rel.facts.pkColumns
  columns : ∃ kept : List Attribute, kept = rel.facts.attributes.filter (fun a => (rel.reads isJoin varRefs).contains a.attname) ∧
    used.usedColumns = kept.map Attribute.attname ∧ used.usedColumnTypes = kept.map Attribute.formatType
  joinKeys : used.joinKeys = (rel.facts.attributes.map Attribute.attname).filter fun c =>
    ((joinRefs.filter fun v => v.1 = rel.entry.rtIndex && 0 < v.2).map fun v => rel.facts.attname v.2).contains c
  /-- No whole row and no system column is read. -/
  plain : ∀ v ∈ varRefs, v.1 = rel.entry.rtIndex → 0 < v.2

theorem ListedRelation.use_ok {isJoin : Bool} {varRefs joinRefs : List (Nat × Int)} {rel : ListedRelation} {used : BaseRelation}
    (passed : rel.use isJoin varRefs joinRefs = .ok used) : rel.Used isJoin varRefs joinRefs used := by
  simp only [ListedRelation.use] at passed
  obtain ⟨plain, done⟩ := rejectIf_bind.mp passed
  cases done
  refine ⟨rfl, rfl, rfl, rfl, ⟨_, rfl, rfl, rfl⟩, rfl, ?_⟩
  intro v member own
  rw [List.any_eq_false] at plain
  have here := plain v (List.mem_filter.mpr ⟨member, decide_eq_true own⟩)
  simpa using here

theorem useRelations_ok {isJoin : Bool} {varRefs joinRefs : List (Nat × Int)} {rels : List ListedRelation} {relations : List BaseRelation}
    (passed : useRelations isJoin varRefs joinRefs rels = .ok relations) :
    List.Forall₂ (fun rel used => rel.Used isJoin varRefs joinRefs used) rels relations := by
  induction rels generalizing relations with
  | nil =>
      cases passed
      exact .nil
  | cons rel rels ih =>
      rw [useRelations, bind_ok] at passed
      obtain ⟨used, own, passed⟩ := passed
      obtain ⟨rest, restPassed, done⟩ := bind_ok.mp passed
      cases done
      exact .cons (ListedRelation.use_ok own) (ih restPassed)

end Nabla
