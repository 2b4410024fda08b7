import TypeLang.Naming.Case
import TypeLang.Text.Split

/-!
# Names of members, entities and tags

The identifiers that stand for parameters, constructors and methods in the emitted code.
-/
namespace TypeLang.Naming

/-- Member names that may not be used, each with what stands for it. -/
def reserved : List (String × String) :=
  [("long", "longitude"), ("lat", "latitude"), ("default", "isDefault"), ("private", "isPrivate"),
    ("public", "isPublic"), ("delete", "deleteValue"), ("new", "isNew"), ("static", "isStatic"),
    ("final", "isFinal"), ("short", "isShort"), ("signed", "isSigned"),
    ("unsigned", "isUnsigned"), ("class", "classValue"), ("template", "templateValue"),
    ("namespace", "namespaceValue"), ("register", "registerValue"), ("this", "thisValue")]

/-- The member or argument that stands for a parameter. -/
def member (name : String) : String :=
  let camelName := camel name
  (reserved.lookup camelName).getD camelName

/-- The name of a constructor or method: `auth.sendCode` to `authSendCode`. -/
def entity (fullName : String) : String := camel fullName

/-- The constant that holds the id of a constructor or method. -/
def tag (entityName : String) : String := upperFirst entityName

/-- The function that handles the result of a method. -/
def handler (method : String) : String := "process" ++ upperFirst method

/-- Whether a method belongs to a group of the interface: its name is the group's name followed by
a capital. -/
def inGroup (group method : String) : Bool :=
  match Text.dropStart? group.toList method.toList with
  | some (c :: _) => c.isUpper
  | _ => false

end TypeLang.Naming
