import TypeLang.Emit.Stream
import TypeLang.Text.Indentation

/-!
# Handlers

For each method the function that takes its result. Handlers are written by hand: a body that is
there already stays byte for byte, and only a missing one is filled with a stub. Methods that
return the common updates type share one handler and get a case label only.
-/
namespace TypeLang

open Text

/-- A function definition in a text: its first line, and everything through its closing brace. -/
structure FunctionText where
  signature : List Char
  body : List Char
  deriving DecidableEq, Repr, Inhabited

namespace FunctionText

/-- What a line says at an indentation, without the blanks at its end. -/
def lineAt? (indent line : List Char) : Option (List Char) :=
  (dropStart? indent line).map trimEnd

/-- Whether a line can be the first of a function: it starts right at the indentation, and is
neither a comment nor a lone brace. -/
def isSignature (line : List Char) : Bool :=
  line.head?.any (fun c => !isBlank c) && !"//".toList.isPrefixOf line
    && line != ['\x7b'] && line != ['\x7d']

/-- The signature on a line, when the lines after it open a body. -/
def signature? (indent line : List Char) (rest : List (List Char)) : Option (List Char) :=
  if rest.head?.bind (lineAt? indent) = some ['\x7b'] then
    (lineAt? indent line).filter isSignature
  else none

/-- The functions among the lines of a text. A body runs to the first closing brace at the
indentation, or to the end of the text. -/
def ofLines (indent : List Char) : List (List Char) → List FunctionText
  | [] => []
  | line :: rest =>
    match signature? indent line rest with
    | none => ofLines indent rest
    | some signature =>
      match _hcut : cutLines? (fun l => lineAt? indent l == some ['\x7d']) rest with
      | none => [⟨signature, closeLine rest.flatten⟩]
      | some (before, last, after) =>
        ⟨signature, closeLine (before.flatten ++ last)⟩ :: ofLines indent after
termination_by lines => lines.length
decreasing_by
  · simp
  · have := length_cutLines? _hcut
    simp only [List.length_cons]
    omega

def ofText (indent text : List Char) : List FunctionText := ofLines indent (inclusiveLines text)

/-- The definition at an indentation; the body carries its own. -/
def text (f : FunctionText) (indent : List Char) : List Char :=
  indent ++ f.signature ++ '\n' :: f.body

end FunctionText

namespace Emit

/-- The result type of the methods that share a handler. -/
def updatesType : TargetType := .plain "TLUpdates"

/-- Whether the result of a method goes to the shared handler. -/
def returnsUpdates (m : Method) : Bool := m.result == updatesType

def handlerArguments : String := "(RpcProcessingContext *context)"

/-- The first line of a handler's definition. -/
def handlerSignature (m : Method) : String :=
  "void CTelegramConnection::" ++ Naming.handler m.name ++ handlerArguments

def handlerDeclaration (m : Method) : Code :=
  Code.line ("void " ++ Naming.handler m.name ++ handlerArguments ++ ";")

/-- The body of a handler that nobody has written yet. -/
def handlerStub (m : Method) : Code :=
  Code.line "\x7b"
    ++ Code.nest
      (Code.line "qWarning() << Q_FUNC_INFO << \"is not implemented yet\";"
        ++ Code.line (m.result.text ++ " result;")
        ++ Code.line "context->inputStream() >> result;")
    ++ Code.line "\x7d"

/-- The definition of a handler: the one that exists, else a stub. -/
def handlerFunction (existing : List FunctionText) (indent : List Char) (m : Method) :
    FunctionText :=
  let signature := (handlerSignature m).toList
  let stub := indentBlock indent (handlerStub m).text.toList
  (existing.find? (·.signature == signature)).getD ⟨signature, stub⟩

/-- The definitions of handlers, with a blank line between neighbours. -/
def handlerDefinitions (prior : Option String) (indent : String) (methods : List Method) :
    String :=
  let indent := indent.toList
  let existing := prior.toList.flatMap fun text => FunctionText.ofText indent text.toList
  let functions := methods.map (handlerFunction existing indent)
  String.ofList (joinWith ['\n'] (functions.map fun f => f.text indent))

def resultCase (m : Method) : Code :=
  Code.arm (caseLabel m.tag)
    (Code.line (Naming.handler m.name ++ "(context);") ++ Code.line "break;")

/-- The case label of a method that returns updates. -/
def updatesCase (m : Method) : Code := Code.line (caseLabel m.tag)

end Emit

end TypeLang
