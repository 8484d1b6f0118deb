import Nabla.Lib.SqlName
import Nabla.Naming

/-! A view's name between the server, which quotes a part where it needs quoting, and the
client, which splits the stored name and quotes both parts. -/
namespace Nabla
open SqlNames

namespace Client

def quoteIdent (s : String) : String := doubleQuoted s

/-- The name is cut by `split_once('.')`. -/
def quoteView (view : String) : String :=
  match splitOnce '.' view.toList with
  | some (schema, name) => quoteIdent (String.ofList schema) ++ "." ++ quoteIdent (String.ofList name)
  | none => quoteIdent view

theorem quoteIdent_toList (s : String) : (quoteIdent s).toList = quoted s.toList := by
  simp only [quoteIdent, doubleQuoted, String.toList_append, String.toList_ofList]
  rfl

theorem quoteView_toList {view : String} {schema name : List Char} (split : view.toList = schema ++ '.' :: name) (first : '.' ∉ schema) :
    (quoteView view).toList = quoted schema ++ '.' :: quoted name := by
  have halves : splitOnce '.' view.toList = some (schema, name) := splitOnce_iff.mpr ⟨first, split⟩
  simp only [quoteView, halves, String.toList_append, quoteIdent_toList, String.toList_ofList]
  rw [List.append_assoc]
  rfl

end Client

/-- What the text denotes as `schema.relation`. -/
def sqlName (reserved : String → Bool) (text : String) : Option (String × String) :=
  (scanName (fun cs => reserved (String.ofList cs)) text.toList).map fun r => (String.ofList r.1, String.ofList r.2)

theorem byteSize_ofList (cs : List Char) : (String.ofList cs).utf8ByteSize = byteSize cs := by
  induction cs with
  | nil => rfl
  | cons c cs ih =>
      rw [← List.singleton_append, String.ofList_append, String.utf8ByteSize_append, ih, byteSize_append,
        ← String.singleton_eq_ofList, String.utf8ByteSize_singleton]
      rfl

theorem ofList_eq_iff {cs : List Char} {s : String} : String.ofList cs = s ↔ cs = s.toList := by
  constructor
  · rintro rfl
    exact String.toList_ofList.symm
  · rintro rfl
    exact String.ofList_toList

theorem Identifier.fits (ident : Identifier) : byteSize ident.text.toList ≤ 63 := by
  have short := ident.short
  rwa [← String.ofList_toList (s := ident.text), byteSize_ofList] at short

theorem Identifier.ne_nil (ident : Identifier) : ident.text.toList ≠ [] := fun empty => ident.some (String.toList_eq_nil_iff.mp empty)

variable {reserved : String → Bool}

theorem quoteIdentifier_cases (reserved : String → Bool) (ident : String) :
    (quoteIdentifier reserved ident = ident ∧ (ident.toList.head?.any fun c => c.isLower || c == '_') = true ∧
        (ident.toList.all fun c => c.isLower || c.isDigit || c == '_') = true ∧ reserved ident = false) ∨
      ((quoteIdentifier reserved ident).toList = quoted ident.toList ∧ quoteIdentifier reserved ident ≠ ident) := by
  have unfolded : quoteIdentifier reserved ident = if ((ident.toList.all fun c => c.isLower || c.isDigit || c == '_') &&
      (ident.toList.head?.any fun c => c.isLower || c == '_') && !reserved ident) = true then ident else Client.quoteIdent ident := rfl
  have longer := Client.quoteIdent_toList ident
  rw [unfolded]
  split
  · rename_i plain
    simp only [Bool.and_eq_true, Bool.not_eq_true'] at plain
    exact .inl ⟨rfl, plain.1.2, plain.1.1, plain.2⟩
  · refine .inr ⟨longer, fun same => ?_⟩
    have length := congrArg (fun s => s.toList.length) same
    have doubled := length_le_doubled ident.toList
    simp only [longer, quoted, List.length_cons, List.length_append, List.length_nil] at length
    omega

theorem quoteIdentifier_ne_nil (reserved : String → Bool) (ident : Identifier) : (quoteIdentifier reserved ident.text).toList ≠ [] := by
  rcases quoteIdentifier_cases reserved ident.text with ⟨bare, -⟩ | ⟨quoted_, -⟩
  · rw [bare]
    exact ident.ne_nil
  · rw [quoted_]
    exact List.cons_ne_nil _ _

theorem dot_mem_quoteIdentifier {reserved : String → Bool} {ident : String} (dot : '.' ∈ (quoteIdentifier reserved ident).toList) :
    '.' ∈ ident.toList ∧ (quoteIdentifier reserved ident).toList = quoted ident.toList ∧ quoteIdentifier reserved ident ≠ ident := by
  rcases quoteIdentifier_cases reserved ident with ⟨bare, -, plain, -⟩ | ⟨quoted_, other⟩
  · rw [bare] at dot
    exact absurd (List.all_eq_true.mp plain '.' dot) (by decide)
  · rw [quoted_, quoted, List.mem_cons, List.mem_append, List.mem_singleton, mem_doubled] at dot
    refine ⟨?_, quoted_, other⟩
    rcases dot with quote | inside | quote
    · exact absurd quote (by decide)
    · exact inside
    · exact absurd quote (by decide)

theorem clip_quoted_iff {cs : List Char} (short : byteSize cs ≤ 63) : clip 63 (quoted cs) = cs ↔ cs = List.replicate 63 '"' := by
  constructor
  · intro same
    have start := clip_begins 63 (quoted cs)
    rw [same] at start
    have quotes := eq_replicate_of_prefix_quoted start
    have all : quoted cs = List.replicate (2 * cs.length + 2) '"' := by
      rw [quoted]
      conv => lhs; rw [quotes]
      rw [doubled_replicate, ← List.replicate_succ', ← List.replicate_succ]
    rw [all, clip_replicate rfl] at same
    have length := congrArg List.length same
    rw [List.length_replicate] at length
    have long : cs.length = 63 := by omega
    rw [quotes, long]
  · rintro rfl
    have all : quoted (List.replicate 63 '"') = List.replicate 128 '"' := by
      rw [quoted, doubled_replicate, ← List.replicate_succ', ← List.replicate_succ]
    rw [all, clip_replicate rfl]
    rfl

/-- A part that the server prints bare. The one other name that survives being quoted twice
is made of 63 quotes. -/
def Identifier.Bare (reserved : String → Bool) (ident : Identifier) : Prop :=
  quoteIdentifier reserved ident.text = ident.text ∨ ident.text = String.ofList (List.replicate 63 '"')

theorem clip_quoteIdentifier_iff (ident : Identifier) :
    clip 63 (quoteIdentifier reserved ident.text).toList = ident.text.toList ↔ ident.Bare reserved := by
  rcases quoteIdentifier_cases reserved ident.text with ⟨bare, -⟩ | ⟨quoted_, other⟩
  · rw [bare, clip_of_le ident.fits]
    exact ⟨fun _ => .inl bare, fun _ => rfl⟩
  · rw [quoted_, clip_quoted_iff ident.fits]
    constructor
    · intro quotes
      exact .inr (String.toList_injective (quotes.trans String.toList_ofList.symm))
    · intro bare
      rw [bare.resolve_left other, String.toList_ofList]

theorem creationName_toList (namespace_ : Identifier) (schema : Option Identifier) (rel : Identifier) :
    (creationName reserved namespace_ schema rel).toList =
      (quoteIdentifier reserved (schema.getD namespace_).text).toList ++ '.' :: (quoteIdentifier reserved rel.text).toList := by
  rw [creationName, String.toList_append, String.toList_append, List.append_assoc]
  rfl

theorem creationName_denotes (namespace_ : Identifier) (schema : Option Identifier) (rel : Identifier) :
    sqlName reserved (creationName reserved namespace_ schema rel) = some ((schema.getD namespace_).text, rel.text) := by
  have part (ident : Identifier) (rest : List Char) (stops : ∀ c, rest.head? = some c → identPart c = false ∧ c ≠ '"') :
      scanIdentifier (fun cs => reserved (String.ofList cs)) ((quoteIdentifier reserved ident.text).toList ++ rest) = some (ident.text.toList, rest) := by
    rcases quoteIdentifier_cases reserved ident.text with ⟨bare, starts, plain, free⟩ | ⟨quoted_, -⟩
    · rw [bare, scanIdentifier_plain _ starts plain (by rw [String.ofList_toList]; exact free) fun c head => (stops c head).1,
        clip_of_le ident.fits]
    · rw [quoted_, scanIdentifier_quoted _ ident.ne_nil fun head => (stops '"' head).2 rfl, clip_of_le ident.fits]
  have second := part rel [] fun c head => (by cases head)
  rw [List.append_nil] at second
  rw [sqlName, creationName_toList, scanName, part (schema.getD namespace_) _ fun c head => (by cases head; exact ⟨rfl, by decide⟩)]
  simp only [second, Option.map_some, String.ofList_toList]

/-- The client reads the view the server stored exactly when the server printed both parts
of its name bare. -/
theorem quoteView_denotes_iff (reserved : String → Bool) (namespace_ : Identifier) (schema : Option Identifier) (rel : Identifier) :
    sqlName reserved (Client.quoteView (creationName reserved namespace_ schema rel)) = some ((schema.getD namespace_).text, rel.text) ↔
      (schema.getD namespace_).Bare reserved ∧ rel.Bare reserved := by
  have stored : (creationName reserved namespace_ schema rel).toList = _ := creationName_toList namespace_ schema rel
  generalize schema.getD namespace_ = owner at stored ⊢
  by_cases dot : '.' ∈ (quoteIdentifier reserved owner.text).toList
  · -- the name is split inside the schema
    obtain ⟨inside, quoted_, other⟩ := dot_mem_quoteIdentifier dot
    obtain ⟨front, back, split, first⟩ := List.eq_append_cons_of_mem dot
    have some_ : front ≠ [] := by
      rintro rfl
      rw [quoted_] at split
      exact absurd (List.cons.inj split).1 (by decide)
    rw [split, List.append_assoc, List.cons_append] at stored
    rw [sqlName, Client.quoteView_toList stored first, scanName_quoted _ some_ (List.append_ne_nil_of_right_ne_nil _ (List.cons_ne_nil _ _)),
      Option.map_some, Option.some.injEq, Prod.mk.injEq, ofList_eq_iff]
    constructor
    · intro denotes
      have same : clip 63 front = owner.text.toList := denotes.1
      exact absurd ((clip_begins 63 front).subset (same ▸ inside)) first
    · intro bare
      rw [bare.1.resolve_left other, String.toList_ofList, List.mem_replicate] at inside
      exact absurd inside.2 (by decide)
  · rw [sqlName, Client.quoteView_toList stored dot, scanName_quoted _ (quoteIdentifier_ne_nil reserved owner) (quoteIdentifier_ne_nil reserved rel),
      ← clip_quoteIdentifier_iff, ← clip_quoteIdentifier_iff, Option.map_some, Option.some.injEq, Prod.mk.injEq, ofList_eq_iff, ofList_eq_iff]

/-- A relation created as `"Foo"`. -/
def fooRel : Identifier := ⟨"Foo", by decide, by decide⟩

/-- The client asks for a relation whose name contains the quotes. -/
theorem upperCase_misnamed : Client.quoteView (creationName (fun _ => false) publicSchema none fooRel) = "\"public\".\"\"\"Foo\"\"\"" ∧
    sqlName (fun _ => false) (Client.quoteView (creationName (fun _ => false) publicSchema none fooRel)) = some ("public", "\"Foo\"") ∧
    sqlName (fun _ => false) (Client.quoteView (creationName (fun _ => false) publicSchema none fooRel)) ≠ some (publicSchema.text, fooRel.text) := by
  decide

end Nabla
