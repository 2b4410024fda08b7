import TypeLang.Emit.Debug
import TypeLang.Emit.Struct

/-!
# One block for each type

Which types a section of structs or operators has code for is told by the lines at its margin: a
struct is opened by one of them, and a function has one with its signature. The code of a list of
types has one such line for each of them, in order.
-/
namespace TypeLang

namespace CodeLine

/-- Whether a line opens a struct. -/
def opensStruct : CodeLine → Bool
  | .code 0 text => "struct ".toList.isPrefixOf text.toList && text.toList.getLast? == some '\x7b'
  | _ => false

/-- Whether a line is the signature of a function: it stands at the margin and is no lone brace. -/
def isSignature : CodeLine → Bool
  | .code 0 text => text != "\x7b" && text != "\x7d"
  | _ => false

end CodeLine

namespace Code

variable {p : CodeLine → Bool}

/-- Blank lines apart, the lines of blocks are those of each. -/
theorem filter_blocks (hblank : p .blank = false) (bs : List Code) :
    (blocks bs).filter p = bs.flatMap (·.filter p) := by
  have hintercalate : ∀ bs : List Code, List.filter p ([.blank].intercalate bs) =
      bs.flatMap (·.filter p) := by
    intro bs
    induction bs with
    | nil => rfl
    | cons b bs ih =>
      cases bs with
      | nil => simp
      | cons c bs =>
        rw [List.intercalate_cons_cons, List.filter_append, List.filter_append, ih,
          List.filter_cons_of_neg (by simp [hblank]), List.filter_nil, List.append_nil]
        rfl
  rw [blocks, hintercalate]
  induction bs with
  | nil => rfl
  | cons b bs ih =>
    rw [List.filter_cons, List.flatMap_cons, ← ih]
    cases b with
    | nil => rfl
    | cons line rest => rfl

/-- Blocks with one line of a kind each have these lines. -/
theorem filter_blocks_map {α : Type} {block : α → Code} {head : α → CodeLine} {as : List α}
    (hblank : p .blank = false) (h : ∀ a ∈ as, (block a).filter p = [head a]) :
    (blocks (as.map block)).filter p = as.map head := by
  rw [filter_blocks hblank, List.flatMap_map, List.flatMap_def, List.map_congr_left h,
    ← List.flatMap_def]
  exact List.map_eq_flatMap.symm

/-- Nested lines are not at the margin. -/
theorem filter_nest (hmargin : ∀ line : CodeLine, p line.nest = false) (code : Code) :
    code.nest.filter p = [] := by
  rw [nest, List.filter_map, List.filter_eq_nil_iff.mpr, List.map_nil]
  exact fun line _ => by simp [hmargin]

theorem isSignature_nest (line : CodeLine) : line.nest.isSignature = false := by
  cases line <;> rfl

theorem opensStruct_nest (line : CodeLine) : line.nest.opensStruct = false := by
  cases line <;> rfl

/-- A function has one signature. -/
theorem filter_function {signature : String} {body : Code} (hopen : signature ≠ "\x7b")
    (hclose : signature ≠ "\x7d") :
    (function signature body).filter CodeLine.isSignature = [.code 0 signature] := by
  have hsignature : (line signature).filter CodeLine.isSignature = [.code 0 signature] := by
    simp [line, CodeLine.isSignature, hopen, hclose]
  rw [function, List.filter_append, List.filter_append, List.filter_append, hsignature,
    filter_nest isSignature_nest]
  rfl

end Code

namespace Emit

/-- The line that opens the struct of a type. -/
def structHead (t : TaggedType) : CodeLine := .code 0 ("struct " ++ t.name ++ " \x7b")

/-- The signature of the operator that streams a type. -/
def operatorHead (d : Direction) (t : TaggedType) : CodeLine :=
  .code 0 ("CTelegramStream &CTelegramStream::operator" ++ d.operator ++
    "(" ++ d.argument t.name (TargetType.valueVariable t.name) ++ ")")

/-- The signature of the operator that prints a type. -/
def printerHead (t : TaggedType) : CodeLine :=
  .code 0 ("QDebug operator<<(QDebug d, const " ++ t.name ++ " &type)")

theorem filter_streamDefinition (d : Direction) (t : TaggedType) :
    (streamDefinition d t).filter CodeLine.isSignature = [operatorHead d t] := by
  apply Code.filter_function <;> intro h <;> simpa using congrArg (·.toList.head?) h

theorem filter_printerDefinition (t : TaggedType) :
    (printerDefinition t).filter CodeLine.isSignature = [printerHead t] := by
  apply Code.filter_function <;> intro h <;> simpa using congrArg (·.toList.head?) h

/-- The operators that stream types are one for each type, in order. -/
theorem filter_streamDefinitions (d : Direction) (types : List TaggedType) :
    (Code.blocks (types.map (streamDefinition d))).filter CodeLine.isSignature =
      types.map (operatorHead d) :=
  Code.filter_blocks_map rfl fun t _ => filter_streamDefinition d t

/-- The operators that print types are one for each type, in order. -/
theorem filter_printerDefinitions (types : List TaggedType) :
    (Code.blocks (types.map printerDefinition)).filter CodeLine.isSignature =
      types.map printerHead :=
  Code.filter_blocks_map rfl fun t _ => filter_printerDefinition t

theorem opensStruct_comment (text : String) :
    CodeLine.opensStruct (.code 0 ("// " ++ text)) = false := by
  have hcomment : "// ".toList = '/' :: "/ ".toList := by decide
  have hstruct : "struct ".toList = 's' :: "truct ".toList := by decide
  simp [CodeLine.opensStruct, String.toList_append, hcomment, hstruct, List.isPrefixOf]

theorem opensStruct_declaration (target : String) :
    CodeLine.opensStruct (.code 0 ("struct " ++ target ++ ";")) = false := by
  have hend : ";".toList = [';'] := by decide
  simp only [CodeLine.opensStruct, String.toList_append, hend, List.getLast?_concat]
  simp

theorem opensStruct_structHead (t : TaggedType) : (structHead t).opensStruct = true := by
  have hend : " \x7b".toList = [' ', '\x7b'] := by decide
  have hlast : ("struct " ++ t.name ++ " \x7b").toList.getLast? = some '\x7b' := by
    rw [String.toList_append, hend, List.getLast?_append]
    rfl
  rw [structHead, CodeLine.opensStruct, hlast]
  simp [String.toList_append]

/-- The struct of a type with a constructor is opened by one line. -/
theorem filter_structCode (sources : Bool) {t : TaggedType} (h : t.constructors ≠ []) :
    (structCode sources t).filter CodeLine.opensStruct = [structHead t] := by
  obtain ⟨first, rest, hcons⟩ := List.exists_cons_of_ne_nil h
  have hcomments : ∀ cs : List Constructor,
      (cs.flatMap fun c => Code.source sources c.source).filter CodeLine.opensStruct = [] := by
    intro cs
    rw [List.filter_eq_nil_iff]
    intro line hline
    obtain ⟨c, -, hmem⟩ := List.mem_flatMap.mp hline
    simp only [Code.source] at hmem
    split at hmem
    · obtain ⟨text, -, htext⟩ := List.mem_flatMap.mp hmem
      rw [List.mem_singleton.mp htext, opensStruct_comment]
      exact Bool.false_ne_true
    · cases hmem
  have hhead : (Code.line ("struct " ++ t.name ++ " \x7b")).filter CodeLine.opensStruct =
      [structHead t] := List.filter_cons_of_pos (opensStruct_structHead t)
  have hend : (Code.line ("\x7d" ++ ";")).filter CodeLine.opensStruct = [] := by decide
  simp only [structCode, hcons]
  rw [List.filter_append, hcomments, Code.braced, List.filter_append, List.filter_append, hhead,
    Code.filter_nest Code.opensStruct_nest, hend]
  rfl

/-- Structs are opened once for each type, in order. Declarations in front of them open none. -/
theorem filter_structsCode (sources : Bool) {types : List TaggedType}
    (h : ∀ t ∈ types, t.constructors ≠ []) :
    (structsCode sources types).filter CodeLine.opensStruct = types.map structHead := by
  have hforward : (forwardDeclarations types).filter CodeLine.opensStruct = [] := by
    rw [List.filter_eq_nil_iff]
    intro line hline
    obtain ⟨target, -, htarget⟩ := List.mem_flatMap.mp hline
    rw [List.mem_singleton.mp htarget, opensStruct_declaration]
    exact Bool.false_ne_true
  rw [structsCode, Code.filter_blocks rfl, List.flatMap_cons, hforward, List.nil_append,
    ← Code.filter_blocks rfl]
  exact Code.filter_blocks_map rfl fun t ht => filter_structCode sources (h t ht)

end Emit

end TypeLang
