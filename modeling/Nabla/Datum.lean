import Mathlib.Data.Rat.Defs
import Mathlib.Data.List.Basic
import Mathlib.Data.List.Nodup

/-! SQL values as the worker moves them: the value itself, its `jsonb` image
(`to_jsonb`), and the row a `jsonb` object is read back into
(`jsonb_populate_record`). -/
namespace Nabla

/-- A `jsonb` value. A number is its value: 1 and 1.0, which differ in their display scale
alone, are one. -/
inductive Json where
  | null
  | bool (b : Bool)
  | num (q : ℚ)
  | str (s : String)
  | arr (items : List Json)
  | obj (fields : List (String × Json))

mutual
def Json.beq : Json → Json → Bool
  | .null, .null => true
  | .bool a, .bool b => a == b
  | .num a, .num b => a == b
  | .str a, .str b => a == b
  | .arr xs, .arr ys => Json.beqItems xs ys
  | .obj xs, .obj ys => Json.beqFields xs ys
  | _, _ => false

def Json.beqItems : List Json → List Json → Bool
  | [], [] => true
  | x :: xs, y :: ys => Json.beq x y && Json.beqItems xs ys
  | _, _ => false

def Json.beqFields : List (String × Json) → List (String × Json) → Bool
  | [], [] => true
  | (k, x) :: xs, (l, y) :: ys => k == l && Json.beq x y && Json.beqFields xs ys
  | _, _ => false
end

theorem Json.beq_iff : ∀ a b : Json, Json.beq a b = true ↔ a = b := by
  refine Json.rec
    (motive_1 := fun a => ∀ b, Json.beq a b = true ↔ a = b)
    (motive_2 := fun xs => ∀ ys, Json.beqItems xs ys = true ↔ xs = ys)
    (motive_3 := fun xs => ∀ ys, Json.beqFields xs ys = true ↔ xs = ys)
    (motive_4 := fun p => ∀ j, Json.beq p.2 j = true ↔ p.2 = j)
    ?null ?bool ?num ?str ?arr ?obj ?nil ?cons ?fnil ?fcons ?field
  case null => intro b; cases b <;> simp [Json.beq]
  case bool => intro x b; cases b <;> simp [Json.beq]
  case num => intro q b; cases b <;> simp [Json.beq]
  case str => intro s b; cases b <;> simp [Json.beq]
  case arr => intro xs ih b; cases b <;> simp [Json.beq, ih]
  case obj => intro xs ih b; cases b <;> simp [Json.beq, ih]
  case nil => intro ys; cases ys <;> simp [Json.beqItems]
  case cons => intro x xs ihx ihxs ys; cases ys <;> simp [Json.beqItems, ihx, ihxs]
  case fnil => intro ys; cases ys <;> simp [Json.beqFields]
  case fcons =>
    rintro ⟨k, x⟩ xs ihx ihxs ys
    cases ys with
    | nil => simp [Json.beqFields]
    | cons y ys =>
      obtain ⟨l, y⟩ := y
      simp only [Json.beqFields, Bool.and_eq_true, beq_iff_eq, ihx, ihxs, List.cons.injEq,
        Prod.mk.injEq]
  case field => intro k x ih; exact ih

instance : DecidableEq Json := fun a b => decidable_of_iff _ (Json.beq_iff a b)

/-- A field of a `jsonb` object. -/
def Json.field (j : Json) (name : String) : Option Json :=
  match j with
  | .obj fields => fields.lookup name
  | _ => none

/-- A value of PostgreSQL's `numeric`. -/
inductive Numeric where
  | fin (q : ℚ)
  | nan
  | posInf
  | negInf
deriving DecidableEq

/-- `numeric` addition: NaN absorbs, and infinities of opposite sign give NaN. -/
def Numeric.add : Numeric → Numeric → Numeric
  | .fin p, .fin q => .fin (p + q)
  | .nan, _ => .nan
  | _, .nan => .nan
  | .posInf, .negInf => .nan
  | .negInf, .posInf => .nan
  | .posInf, _ => .posInf
  | _, .posInf => .posInf
  | .negInf, _ => .negInf
  | _, .negInf => .negInf

/-- `(-1) * x` on `numeric`. -/
def Numeric.neg : Numeric → Numeric
  | .fin q => .fin (-q)
  | .nan => .nan
  | .posInf => .negInf
  | .negInf => .posInf

/-- A SQL value, NULL included. -/
inductive Datum where
  | null
  | bool (b : Bool)
  | num (n : Numeric)
  | text (s : String)
  | jsonb (j : Json)
deriving DecidableEq

/-- The type of a column as far as the `jsonb` conversions distinguish it. -/
inductive Kind where
  | bool
  | numeric
  | text
  | jsonb
deriving DecidableEq

def Datum.HasKind : Datum → Kind → Prop
  | .null, _ => True
  | .bool _, k => k = .bool
  | .num _, k => k = .numeric
  | .text _, k => k = .text
  | .jsonb _, k => k = .jsonb

instance (d : Datum) (k : Kind) : Decidable (d.HasKind k) := by
  cases d <;> unfold Datum.HasKind <;> infer_instance

/-- The SQL operator `=` in a WHERE clause: NULL equals nothing. -/
def sqlEq (a b : Datum) : Bool := a != .null && a == b

/-- `to_jsonb` of one value: NULL becomes the JSON null, a `jsonb` value is
embedded unchanged, a non-finite `numeric` becomes its text. -/
def Datum.toJsonb : Datum → Json
  | .null => .null
  | .bool b => .bool b
  | .num (.fin q) => .num q
  | .num .nan => .str "NaN"
  | .num .posInf => .str "Infinity"
  | .num .negInf => .str "-Infinity"
  | .text s => .str s
  | .jsonb j => j

/-- The non-finite `numeric` a text names. -/
def numericOfText (s : String) : Option Numeric :=
  if s = "NaN" then some .nan
  else if s = "Infinity" then some .posInf
  else if s = "-Infinity" then some .negInf
  else none

/-- One field of `jsonb_populate_record` for a column of the given type. The JSON
null gives NULL whatever the type; `none` is a conversion PostgreSQL rejects. -/
def populateField : Kind → Json → Option Datum
  | _, .null => some .null
  | .bool, .bool b => some (.bool b)
  | .numeric, .num q => some (.num (.fin q))
  | .numeric, .str s => (numericOfText s).map .num
  | .text, .str s => some (.text s)
  | .jsonb, j => some (.jsonb j)
  | _, _ => none

/-- The one value the `jsonb` detour cannot carry. -/
abbrev Datum.jsonNull : Datum := .jsonb .null

theorem populateField_toJsonb {d : Datum} {k : Kind} (typed : d.HasKind k)
    (kept : d ≠ .jsonNull) : populateField k d.toJsonb = some d := by
  cases d with
  | null => cases k <;> rfl
  | bool b => cases typed; rfl
  | num n => cases typed; cases n <;> simp [Datum.toJsonb, populateField, numericOfText]
  | text s => cases typed; rfl
  | jsonb j =>
      cases typed
      cases j with
      | null => exact absurd rfl kept
      | _ => rfl

/-- What the worker takes from PostgreSQL and from Rust's libraries, with the
behaviour it relies on: a value's text, whether sent by pgoutput or produced by
`::text`, casts back to that value. -/
structure Platform where
  /-- `format_type(typid, typmod)`; `none` for an unknown type oid. -/
  formatType : Nat → Int → Option String
  /-- The values of a type, by its `format_type` text. -/
  HasType : String → Datum → Prop
  kindOf : String → Kind
  /-- `$n::type` applied to a text parameter; `none` raises. -/
  input : String → String → Option Datum
  /-- The text pgoutput sends for a value that is not NULL. -/
  output : Datum → String
  /-- `value::text`. -/
  textCast : Datum → String
  /-- Rust's `str::to_lowercase`, which follows the case tables of Unicode. -/
  lowercase : String → String
  /-- A row's text read by `serde_json`; `none` when it does not parse. -/
  serdeParse : Json → Option Json
  hasKind : ∀ {ty d}, HasType ty d → d.HasKind (kindOf ty)
  input_output : ∀ {ty d}, HasType ty d → d ≠ .null → input ty (output d) = some d
  input_textCast : ∀ {ty d}, HasType ty d → d ≠ .null → input ty (textCast d) = some d

/-- A platform with two types: texts sent as they are, and a `jsonb` whose only value
is the JSON null. -/
def Platform.basic : Platform where
  formatType := fun typid _ => if typid = 25 then some "text" else if typid = 3802 then some "jsonb" else none
  HasType := fun ty d =>
    match d with
    | .null => True
    | .text _ => ty = "text"
    | d => ty = "jsonb" ∧ d = .jsonNull
  kindOf := fun ty => if ty = "jsonb" then .jsonb else .text
  input := fun ty s => if ty = "text" then some (.text s) else if s = "null" then some .jsonNull else none
  output := fun d => match d with | .text s => s | _ => "null"
  textCast := fun d => match d with | .text s => s | _ => "null"
  lowercase := fun s => s
  serdeParse := some
  hasKind := by
    intro ty d typed
    cases d with
    | null => trivial
    | text s => cases typed; rfl
    | _ => obtain ⟨rfl, same⟩ := typed; rw [same]; rfl
  input_output := by
    intro ty d typed some
    cases d with
    | null => exact absurd rfl some
    | text s => cases typed; rfl
    | _ => obtain ⟨rfl, same⟩ := typed; rw [same]; rfl
  input_textCast := by
    intro ty d typed some
    cases d with
    | null => exact absurd rfl some
    | text s => cases typed; rfl
    | _ => obtain ⟨rfl, same⟩ := typed; rw [same]; rfl

/-- A row of a table or of a query result, keyed by column name. -/
abbrev Record := List (String × Datum)

def Record.get (r : Record) (name : String) : Datum := (r.lookup name).getD .null

/-- `to_jsonb(r)` of a row. -/
def Record.toJsonb (r : Record) : Json := .obj (r.map fun p => (p.1, p.2.toJsonb))

/-- `jsonb_populate_record(NULL::view, $1::jsonb)` for a table with these columns. -/
def populateRecord : List (String × Kind) → Json → Option Record
  | [], _ => some []
  | (name, k) :: cols, j =>
    match populateField k ((j.field name).getD .null), populateRecord cols j with
    | some d, some r => some ((name, d) :: r)
    | _, _ => none

theorem lookup_of_mem {α β : Type} [BEq α] [LawfulBEq α] {xs : List (α × β)}
    (distinct : (xs.map Prod.fst).Nodup) {a : α} {b : β} (member : (a, b) ∈ xs) :
    xs.lookup a = some b := by
  induction xs with
  | nil => cases member
  | cons x xs ih =>
      obtain ⟨c, d⟩ := x
      rw [List.map_cons, List.nodup_cons] at distinct
      rcases List.mem_cons.mp member with same | later
      · cases same
        simp only [List.lookup_cons, BEq.rfl]
      · have other : (a == c) = false := by
          apply beq_false_of_ne
          rintro rfl
          exact distinct.1 (List.mem_map.mpr ⟨_, later, rfl⟩)
        simp only [List.lookup_cons, other, ih distinct.2 later]

theorem lookup_eq_none {α β : Type} [BEq α] [LawfulBEq α] {xs : List (α × β)} {a : α}
    (absent : a ∉ xs.map Prod.fst) : xs.lookup a = none := by
  induction xs with
  | nil => rfl
  | cons x xs ih =>
      obtain ⟨c, d⟩ := x
      simp only [List.map_cons, List.mem_cons, not_or] at absent
      simp only [List.lookup_cons, beq_false_of_ne absent.1, ih absent.2]

theorem Record.get_of_mem {r : Record} (distinct : (r.map Prod.fst).Nodup) {name : String}
    {d : Datum} (member : (name, d) ∈ r) : r.get name = d := by
  simp only [Record.get, lookup_of_mem distinct member, Option.getD_some]

theorem Record.field_toJsonb {r : Record} (distinct : (r.map Prod.fst).Nodup) {name : String}
    {d : Datum} (member : (name, d) ∈ r) : r.toJsonb.field name = some d.toJsonb := by
  apply lookup_of_mem
  · rw [List.map_map]
    exact distinct
  · exact List.mem_map_of_mem (f := fun p : String × Datum => (p.1, p.2.toJsonb)) member

/-- A row whose columns match `cols` in name and type and hold no `jsonb` null. -/
def Record.Carried (cols : List (String × Kind)) (r : Record) : Prop :=
  List.Forall₂ (fun c p => c.1 = p.1 ∧ p.2.HasKind c.2 ∧ p.2 ≠ .jsonNull) cols r

theorem populateRecord_part {r : Record} (distinct : (r.map Prod.fst).Nodup)
    {cols : List (String × Kind)} {part : Record} (within : part ⊆ r)
    (carried : part.Carried cols) : populateRecord cols r.toJsonb = some part := by
  induction carried with
  | nil => rfl
  | @cons c p cols part head tail ih =>
      obtain ⟨name, k⟩ := c
      obtain ⟨name', d⟩ := p
      obtain ⟨rfl, typed, kept⟩ := head
      have found := Record.field_toJsonb distinct (within List.mem_cons_self)
      have rest := ih (fun x member => within (List.mem_cons_of_mem _ member))
      simp only [populateRecord, found, Option.getD_some, populateField_toJsonb typed kept, rest]

/-- The `jsonb` detour of a row is the identity when no column holds a `jsonb` null. -/
theorem populateRecord_toJsonb {r : Record} {cols : List (String × Kind)}
    (distinct : (r.map Prod.fst).Nodup) (carried : r.Carried cols) :
    populateRecord cols r.toJsonb = some r :=
  populateRecord_part distinct (fun _ member => member) carried

/-- A row whose columns match `cols` in name and type. -/
def Record.Matches (cols : List (String × Kind)) (r : Record) : Prop :=
  List.Forall₂ (fun c p => c.1 = p.1 ∧ p.2.HasKind c.2) cols r

theorem populateField_some {k : Kind} {j : Json} {d : Datum} (read : populateField k j = some d) : d.HasKind k ∧ d ≠ .jsonNull := by
  cases j with
  | null =>
      cases k <;> obtain rfl := Option.some.inj read <;> exact ⟨trivial, Datum.noConfusion⟩
  | str s =>
      cases k with
      | bool => cases read
      | numeric =>
          obtain ⟨n, _, rfl⟩ := Option.map_eq_some_iff.mp read
          exact ⟨rfl, Datum.noConfusion⟩
      | text =>
          obtain rfl := Option.some.inj read
          exact ⟨rfl, Datum.noConfusion⟩
      | jsonb =>
          obtain rfl := Option.some.inj read
          exact ⟨rfl, by simp [Datum.jsonNull]⟩
  | _ =>
      cases k <;> cases read <;> exact ⟨rfl, by simp [Datum.jsonNull]⟩

theorem populateRecord_some {cols : List (String × Kind)} {j : Json} {r : Record} (read : populateRecord cols j = some r) :
    r.Matches cols ∧ ∀ p ∈ r, p.2 ≠ .jsonNull := by
  induction cols generalizing r with
  | nil =>
      obtain rfl := Option.some.inj read
      exact ⟨.nil, fun p member => absurd member List.not_mem_nil⟩
  | cons c cols ih =>
      obtain ⟨name, k⟩ := c
      rw [populateRecord] at read
      cases first : populateField k ((j.field name).getD .null) with
      | none => simp only [first, reduceCtorEq] at read
      | some d =>
          cases rest : populateRecord cols j with
          | none => simp only [first, rest, reduceCtorEq] at read
          | some r' =>
              simp only [first, rest, Option.some.injEq] at read
              subst read
              obtain ⟨fits, kept⟩ := ih rest
              obtain ⟨typed, notNull⟩ := populateField_some first
              exact ⟨.cons ⟨rfl, typed⟩ fits, List.forall_mem_cons.mpr ⟨notNull, kept⟩⟩

theorem Record.get_ne {r : Record} (kept : ∀ p ∈ r, p.2 ≠ .jsonNull) (name : String) : r.get name ≠ .jsonNull := by
  rw [Record.get]
  cases found : r.lookup name with
  | none => exact Datum.noConfusion
  | some d =>
      obtain ⟨before, later, rfl, _⟩ := List.lookup_eq_some_iff.mp found
      exact kept (name, d) (List.mem_append_right _ List.mem_cons_self)

end Nabla
