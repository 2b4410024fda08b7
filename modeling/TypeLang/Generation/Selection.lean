import TypeLang.Emit.Handler
import TypeLang.Generation.Config
import TypeLang.Model.Order
import TypeLang.Model.Reach

/-!
# Selection

What of a model is generated: the types in the order of their structs, the methods of the configured
groups, and what is read and written for them.
-/
namespace TypeLang

/-- The parts of a model that get code. -/
structure Selection where
  /-- The types, each after those it holds by value. -/
  types : List TaggedType
  /-- The methods, in schema order. -/
  methods : List Method
  /-- What reading these types, and requests and results of these methods, meets. -/
  read : Reach
  /-- What writing requests of these methods meets. -/
  written : Reach
  deriving DecidableEq, Repr, Inhabited

namespace Selection

def writtenTypes (s : Selection) : List TaggedType :=
  s.types.filter fun t => t.name ∈ s.written.types

/-- The methods with a handler of their own. -/
def handled (s : Selection) : List Method := s.methods.filter fun m => !Emit.returnsUpdates m

/-- The methods that share the updates handler. -/
def updating (s : Selection) : List Method := s.methods.filter Emit.returnsUpdates

end Selection

/-- Some types have no place in the order. -/
structure GenerationError where
  unresolved : List Unresolved
  deriving DecidableEq, Repr, Inhabited

def GenerationError.message (e : GenerationError) : String :=
  "unable to resolve " ++ toString e.unresolved.length ++ " types:"
    ++ String.join (e.unresolved.map fun u => "\n  " ++ u.message)

/-- Selects what is generated. Every type must have its place in the order, withheld ones too. -/
def Model.select (m : Model) (config : Config) : Except GenerationError Selection :=
  let resolution := m.resolve
  if !resolution.isComplete then .error ⟨resolution.unresolved⟩
  else
    let withheld := config.withheldNames
    let types := (resolution.ordered.filter fun name => name ∉ withheld).filterMap m.type?
    let methods := m.methods.filter config.allows
    let arguments := methods.flatMap fun method => (wireFields method.fields).map (·.type)
    let held := types.map fun t => TargetType.ofText t.name
    .ok {
      types, methods
      read := m.reach withheld (held ++ methods.map (·.result) ++ arguments)
      written := m.reach withheld arguments }

end TypeLang
