import TypeLang.Emit.Stream

/-!
# Requests

For each method the function that sends a request: it writes the tag and the arguments in wire order
and hands the bytes to the sender.
-/
namespace TypeLang

namespace Emit

def argumentList (m : Method) : String :=
  ", ".intercalate ((wireFields m.fields).map fun f => f.type.argumentText f.name)

/-- The declaration of the function that sends a request. -/
def stubDeclaration (m : Method) : Code :=
  Code.line ("quint64 " ++ m.name ++ "(" ++ argumentList m ++ ");")

/-- The definition of the function that sends a request. -/
def stubDefinition (sources : Bool) (sender : String) (m : Method) : Code :=
  let signature := "quint64 CTelegramConnection::" ++ m.name ++ "(" ++ argumentList m ++ ")"
  let transfers := (Transfer.ofFields m.fields).flatMap (Transfer.code "outputStream" "<<" "")
  Code.source sources m.source ++ Code.function signature
    (Code.line "QByteArray output;"
      ++ Code.line "CTelegramStream outputStream(&output, /* write */ true);"
      ++ Code.blank
      ++ Code.line ("outputStream << " ++ tagConstant m.tag ++ ";")
      ++ transfers
      ++ Code.blank
      ++ Code.line ("return " ++ sender ++ "(output);"))

end Emit

end TypeLang
