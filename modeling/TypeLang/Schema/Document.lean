import TypeLang.Schema.Definition
import TypeLang.Text.Lines

/-!
# Schema documents

A schema text is a sequence of definitions, each closed by a semicolon at the end of a line and
possibly spread over several lines. Comments run from `//` to the end of the line. The separator
lines `---functions---` and `---types---` say what the definitions after them are.
-/
namespace TypeLang

open Text

/-- The definitions read before the first error, and that error. -/
structure Reading where
  definitions : List Definition
  error : Option LineError
  deriving DecidableEq, Repr

namespace Reading

def cons (d : Definition) (rest : Reading) : Reading := ⟨d :: rest.definitions, rest.error⟩

def stop (line : Nat) (content : List Char) (cause : DefinitionError) : Reading :=
  ⟨[], some ⟨line, String.ofList content, cause⟩⟩

end Reading

namespace Document

/-- The part of a line in front of its comment. -/
def stripComment : List Char → List Char
  | [] => []
  | '/' :: '/' :: _ => []
  | c :: cs => c :: stripComment cs

/-- The category that a separator line switches to. -/
def separator? (line : List Char) : Option Category :=
  if line = "---functions---".toList then some .functions
  else if line = "---types---".toList then some .types
  else none

/-- A definition that is not closed yet: the line it starts on and its text so far. -/
structure Unclosed where
  line : Nat
  text : List Char

/-- The lines that say something, trimmed and without comments, numbered from one. -/
def statements (cs : List Char) : List (Nat × List Char) :=
  let numbered := (lines cs).zipIdx 1
  (numbered.map fun entry => (entry.2, trim (stripComment entry.1))).filter fun entry =>
    !entry.2.isEmpty

/-- Takes a line into a definition. -/
def extend (unclosed? : Option Unclosed) (line : Nat) (content : List Char) : Unclosed :=
  match unclosed? with
  | none => ⟨line, content⟩
  | some unclosed => ⟨unclosed.line, unclosed.text ++ ' ' :: content⟩

/-- Reads one closed definition as part of a schema text. -/
def readStatement (category : Category) (text : List Char) : Except DefinitionError Definition :=
  (Definition.read text).map fun d => { d with category, source := some (String.ofList text) }

/-- Reads statements in a category, behind a definition that may be left open. -/
def readStatements (category : Category) (unclosed? : Option Unclosed) :
    List (Nat × List Char) → Reading
  | [] =>
    match unclosed? with
    | none => ⟨[], none⟩
    | some unclosed => .stop unclosed.line unclosed.text .unterminated
  | (line, content) :: rest =>
    match unclosed?, separator? content with
    | none, some category => readStatements category none rest
    | _, _ =>
      let unclosed := extend unclosed? line content
      if content.getLast? = some ';' then
        match readStatement category unclosed.text with
        | .ok d => .cons d (readStatements category none rest)
        | .error cause => .stop unclosed.line unclosed.text cause
      else readStatements category (some unclosed) rest

end Document

/-- Reads a schema text up to its end or its first error. -/
def readDocument (text : String) : Reading :=
  Document.readStatements .types none (Document.statements text.toList)

/-- Reads a schema text as a whole. -/
def readSchema (text : String) : Except SchemaError (List Definition) :=
  let reading := readDocument text
  match reading.error with
  | none => .ok reading.definitions
  | some error => .error (.line error)

end TypeLang
