import TypeLang.Emit.Stream

/-!
# Debug output

Operators that print a value of a type, and cases that read a request back and print it. Both print
the fields in order as `name:value`; of a mark they print its bit.
-/
namespace TypeLang

namespace Emit

/-- The statement that prints an expression under a name. -/
def printLine (name expression : String) : String :=
  "d << \"" ++ name ++ ":\" << " ++ expression ++ ";"

/-- The declaration of the operator that prints a type. -/
def printerDeclaration (t : TaggedType) : Code :=
  Code.line ("QDebug operator<<(QDebug d, const " ++ t.name ++ " &type);")

def printField (f : Field) : Code :=
  if f.isMark then Code.line (printLine f.name ("type." ++ f.name ++ "()"))
  else Code.gated "type." f.gate (Code.line (printLine f.name ("type." ++ f.name)))

/-- The definition of the operator that prints a type. -/
def printerDefinition (t : TaggedType) : Code :=
  let cases := (t.constructors.filter fun c => !c.fields.isEmpty).map fun c =>
    (c.tag, c.fields.flatMap printField)
  Code.function ("QDebug operator<<(QDebug d, const " ++ t.name ++ " &type)")
    (Code.line ("d << \"" ++ t.name ++ "(\" << type.tlType << \") \x7b\";")
      ++ tagSwitch "type.tlType" cases
      ++ Code.line "d << \"\x7d\";"
      ++ Code.blank
      ++ Code.line "return d;")

def dumpField (f : Field) : Code :=
  if f.isMark then
    f.gate.toList.flatMap fun g => Code.line (printLine f.name ("bool(" ++ Code.bit "" g ++ ")"))
  else
    Code.line (f.type.text ++ " " ++ f.name ++ ";")
      ++ Code.gated "" f.gate
        (Code.line ("stream >> " ++ f.name ++ ";") ++ Code.line (printLine f.name f.name))

/-- The case that reads a request back and prints it. -/
def dumpCase (m : Method) : Code :=
  Code.braced (caseLabel m.tag)
    (Code.line ("d << \"" ++ m.tag ++ "(\";")
      ++ m.fields.flatMap dumpField
      ++ Code.line "d << \")\";"
      ++ Code.line "break;")

end Emit

end TypeLang
