import TypeLang.Emit.Code

/-!
# Stream operators

For each type the operators that read and write its values: the tag, then the fields of the tagged
constructor in wire order, gated ones only when their bit is set.
-/
namespace TypeLang

/-- Which way data moves. -/
inductive Direction where
  | read
  | write
  deriving DecidableEq, Repr, Inhabited

namespace Direction

def operator : Direction → String
  | read => ">>"
  | write => "<<"

def argument (d : Direction) (type name : String) : String :=
  match d with
  | read => type ++ " &" ++ name
  | write => "const " ++ type ++ " &" ++ name

end Direction

/-- A field streamed, under its gate if it has one. -/
structure Transfer where
  gate : Option FieldGate
  member : String
  deriving DecidableEq, Repr, Inhabited

namespace Transfer

def ofField (f : Field) : Transfer := ⟨f.gate, f.name⟩

/-- The transfers of a list of fields: of those that exist on the wire, in order. -/
def ofFields (fields : List Field) : List Transfer := (wireFields fields).map ofField

/-- The statement that streams a member of `owner`. -/
def code (stream operator owner : String) (t : Transfer) : Code :=
  Code.gated owner t.gate
    (Code.line (stream ++ " " ++ operator ++ " " ++ owner ++ t.member ++ ";"))

end Transfer

/-- A case of a switch over the tag. -/
structure TransferCase where
  tag : String
  transfers : List Transfer
  deriving DecidableEq, Repr, Inhabited

namespace Emit

def tagConstant (tag : String) : String := "TLValue::" ++ tag

def caseLabel (tag : String) : String := "case " ++ tagConstant tag ++ ":"

/-- A switch over tags; its cases end in breaks, and other tags do nothing. Without cases there is
no switch. -/
def tagSwitch (scrutinee : String) (cases : List (String × Code)) : Code :=
  if cases.isEmpty then []
  else
    let stop := Code.line "break;"
    let arms := cases.flatMap fun entry => Code.arm (caseLabel entry.1) (entry.2 ++ stop)
    Code.switch scrutinee arms stop

/-- The cases of a type's operator: the constructors with fields on the wire. -/
def transferCases (t : TaggedType) : List TransferCase :=
  let cases := t.constructors.map fun c => (⟨c.tag, Transfer.ofFields c.fields⟩ : TransferCase)
  cases.filter fun entry => !entry.transfers.isEmpty

def streamDeclaration (d : Direction) (t : TaggedType) : Code :=
  let argument := d.argument t.name (TargetType.valueVariable t.name)
  Code.line ("CTelegramStream &operator" ++ d.operator ++ "(" ++ argument ++ ");")

/-- The definition of an operator. Reading fills a local value first. -/
def streamDefinition (d : Direction) (t : TaggedType) : Code :=
  let holder := TargetType.valueVariable t.name
  let owner := match d with
    | .read => "result."
    | .write => holder ++ "."
  let opening := match d with
    | .read => Code.line (t.name ++ " result;") ++ Code.blank
    | .write => []
  let closing := match d with
    | .read => Code.line (holder ++ " = result;") ++ Code.blank
    | .write => []
  let cases := (transferCases t).map fun entry =>
    (entry.tag, entry.transfers.flatMap (Transfer.code "*this" d.operator owner))
  let switch := tagSwitch (owner ++ "tlType") cases
  .function
    ("CTelegramStream &CTelegramStream::operator" ++ d.operator ++
      "(" ++ d.argument t.name holder ++ ")")
    (opening ++ Code.line ("*this " ++ d.operator ++ " " ++ owner ++ "tlType;")
      ++ (if switch.isEmpty then [] else Code.blank ++ switch)
      ++ Code.blank ++ closing ++ Code.line "return *this;")

end Emit

end TypeLang
