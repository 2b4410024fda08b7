import TypeLang.Emit.Code

/-!
# Tag constants

One constant for each definition, in the blocks of the model's groups. Constants share one scope,
so of several of one name the first stands.
-/
namespace TypeLang

namespace Emit

/-- The blocks of constants: the first entry of each name, blocks without any left out. -/
def valueBlocks (seen : List String) : List Group → List (List GroupEntry)
  | [] => []
  | group :: rest =>
    let kept := distinctFrom (·.tag) seen group.entries
    let blocks := valueBlocks (kept.map (·.tag) ++ seen) rest
    if kept.isEmpty then blocks else kept :: blocks

def valueCode (sources : Bool) (entry : GroupEntry) : Code :=
  Code.source sources entry.source ++
    Code.line (entry.tag ++ " = " ++ Text.hexConstant entry.id ++ ",")

def valuesCode (sources : Bool) (m : Model) : Code :=
  Code.blocks ((valueBlocks [] m.groups).map fun block => block.flatMap (valueCode sources))

end Emit

end TypeLang
