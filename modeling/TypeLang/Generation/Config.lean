import TypeLang.Model.Baking
import TypeLang.Model.Indirection
import TypeLang.Model.OfDefinitions

/-!
# Configuration

The choices that generation leaves open, and the model that a schema has under them.
-/
namespace TypeLang

/-- What to generate, and how. -/
structure Config where
  /-- The method groups that get code. -/
  groups : List String :=
    ["auth", "account", "contacts", "messages", "updates", "photos", "upload", "help", "users",
      "channels"]
  /-- The schema types that get no code of their own. -/
  withheld : List String := ["True", "Vector", "Null"]
  /-- The types held by pointer. -/
  indirections : List Model.Edge := [⟨"RichText", "RichText"⟩, ⟨"PageBlock", "PageBlock"⟩]
  /-- The function that requests are handed to. -/
  sender : String := "sendEncryptedPackage"
  /-- Whether schema texts are shown as comments. -/
  sources : Bool := false
  deriving DecidableEq, Repr, Inhabited

namespace Config

/-- The target names of the types that get no code. -/
def withheldNames (config : Config) : List String :=
  config.withheld.map TargetType.generatedName

/-- Whether a method gets code: it belongs to one of the groups and is no template. -/
def allows (config : Config) (m : Method) : Bool :=
  !m.template && config.groups.any fun group => Naming.inGroup group m.name

end Config

/-- The model of a schema, with its indirections, baked. -/
def buildModel (config : Config) (ds : List Definition) : Model :=
  (((Model.ofDefinitions ds).indirect config.indirections).1.bake).1

end TypeLang
