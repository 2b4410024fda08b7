import TypeLang.Emit.Debug
import TypeLang.Emit.Instances
import TypeLang.Emit.Request
import TypeLang.Emit.Struct
import TypeLang.Emit.Values
import TypeLang.Generation.Selection
import TypeLang.Region.Prior

/-!
# Generated sections

The text of every section for a model. Instantiations and handlers merge in what their regions hold
already; the other sections depend on the model and the configuration alone.
-/
namespace TypeLang

abbrev Generated := Section → String

/-- The texts of the sections for a selection from a model. -/
def Selection.render (s : Selection) (m : Model) (config : Config) (prior : Prior) : Generated
  | .values => (Emit.valuesCode config.sources m).text
  | .types => (Emit.structsCode config.sources s.types).text
  | .readDeclarations => Code.text (s.types.flatMap (Emit.streamDeclaration .read))
  | .writeDeclarations => Code.text (s.writtenTypes.flatMap (Emit.streamDeclaration .write))
  | .readDefinitions => Code.text (Code.blocks (s.types.map (Emit.streamDefinition .read)))
  | .writeDefinitions =>
    Code.text (Code.blocks (s.writtenTypes.map (Emit.streamDefinition .write)))
  | .readInstances =>
    Code.text (Emit.instancesCode .read (prior.content? .readInstances) s.read.vectors)
  | .writeInstances =>
    Code.text (Emit.instancesCode .write (prior.content? .writeInstances) s.written.vectors)
  | .stubDeclarations => Code.text (s.methods.flatMap Emit.stubDeclaration)
  | .stubDefinitions =>
    Code.text (Code.blocks (s.methods.map (Emit.stubDefinition config.sources config.sender)))
  | .handlerDeclarations => Code.text (s.handled.flatMap Emit.handlerDeclaration)
  | .handlerDefinitions =>
    Emit.handlerDefinitions (prior.content? .handlerDefinitions)
      (prior.indent .handlerDefinitions) s.handled
  | .resultCases => Code.text (s.handled.flatMap Emit.resultCase)
  | .updatesCases => Code.text (s.updating.flatMap Emit.updatesCase)
  | .debugDeclarations => Code.text (s.types.flatMap Emit.printerDeclaration)
  | .debugDefinitions => Code.text (Code.blocks (s.types.map Emit.printerDefinition))
  | .requestCases => Code.text (s.methods.flatMap Emit.dumpCase)

def generate (m : Model) (config : Config) (prior : Prior) : Except GenerationError Generated :=
  (m.select config).map fun selection => selection.render m config prior

/-- Puts the sections of a file into its text. -/
def Generated.patchFile (g : Generated) (file text : String) : Except UnclosedRegion String :=
  let sections := (Section.inFile file).map fun s => (s.marker, (g s).toList)
  (patch sections text.toList).map String.ofList

end TypeLang
