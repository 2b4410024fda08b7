import TypeLang.Command.Arguments
import TypeLang.Command.Targets
import TypeLang.Schema.Document
import TypeLang.Schema.Listing

/-!
# Runs

What the program does with its arguments on a host, and how it ends. A run has exactly one action.
Target files that fail do not keep the others from being written, and still fail the run.
-/
namespace TypeLang.Command

/-- Why a run fails. -/
inductive Failure where
  /-- None or several actions are asked for. -/
  | actions (given : Nat)
  | unreadableSchema (path : String) (cause : FileError)
  | schema (cause : SchemaError)
  | generation (cause : GenerationError)
  /-- No server answered. -/
  | network (cause : String)
  /-- The server refused. -/
  | server (url : String) (status : Nat)
  | unwritableSchema (path : String) (cause : FileError)
  /-- Target files that were not brought up to date. -/
  | targets (paths : List String)
  deriving DecidableEq, Repr

namespace Failure

def code : Failure → UInt8
  | actions _ => 1
  | unreadableSchema .. | schema _ => 3
  | generation _ => 4
  | network _ => 5
  | server .. => 6
  | unwritableSchema .. | targets _ => 7

def message : Failure → String
  | actions 0 =>
    "no action given; use one of --generate-from-json, --generate-from-text, --fetch-json, "
      ++ "--format-json"
  | actions given => toString given ++ " actions given, expected exactly one"
  | unreadableSchema path cause => "cannot read schema " ++ path ++ ": " ++ cause.message
  | schema cause => cause.message
  | generation cause => cause.message
  | network cause => "network error: " ++ cause
  | server url status => url ++ " answered HTTP " ++ toString status
  | unwritableSchema path cause => "cannot write " ++ path ++ ": " ++ cause.message
  | targets paths =>
    toString paths.length ++ " target files could not be patched:"
      ++ String.join (paths.map ("\n  " ++ ·))

end Failure

section Actions

variable {m : Type → Type} [Monad m]

/-- Reads the definitions of a schema. Text need not be well-formed UTF-8. -/
def readDefinitions (format : SchemaFormat) (bytes : List UInt8) :
    Except SchemaError (List Definition) :=
  match format with
  | .text => readSchema (Text.Utf8.decodeLossy bytes)
  | .json => readListing bytes

def loadSchema (host : Host m) (path : String) : ExceptT Failure m (List UInt8) := do
  match ← host.load path with
  | .error e => throw (.unreadableSchema path e)
  | .ok bytes => return bytes

def storeSchema (host : Host m) (path : String) (bytes : List UInt8) :
    ExceptT Failure m Unit := do
  match ← host.store path bytes with
  | .error e => throw (.unwritableSchema path e)
  | .ok () => return

/-- Every section between its marker lines, under the name of its file. -/
def dumpText (generated : Generated) : String :=
  String.join (Section.all.map fun s =>
    "// " ++ s.file.name ++ "\n" ++ s.marker.beginLine ++ "\n" ++ generated s
      ++ s.marker.endLine ++ "\n")

/-- Generates code from a model and brings the target files up to date with it. -/
def regenerate (host : Host m) (options : Options) (model : Model) (config : Config) :
    ExceptT Failure m Tally := do
  let targets ← (Targets.load host options.inputDir : m Targets)
  let generated ← MonadExcept.ofExcept
    ((generate model config targets.prior).mapError Failure.generation)
  if options.has .dump then host.print (dumpText generated)
  (targets.patch host generated (options.has .dryRun) options.outputDir : m Tally)

/-- Generates code from the schema and puts it into the target files. -/
def generateFiles (host : Host m) (options : Options) (format : SchemaFormat) :
    ExceptT Failure m Unit := do
  let bytes ← loadSchema host options.schema
  let definitions ← MonadExcept.ofExcept ((readDefinitions format bytes).mapError Failure.schema)
  host.info ("[schema] " ++ toString definitions.length ++ " definitions from " ++ options.schema)
  let config : Config := { sources := options.has .sources }
  let tally ← regenerate host options (buildModel config definitions) config
  if tally.failed.isEmpty then host.info (tally.summary (options.has .dryRun))
  else throw (.targets tally.failed)

def fetchSchema (host : Host m) (options : Options) : ExceptT Failure m Unit := do
  host.info ("[schema] GET " ++ options.url)
  match ← host.fetch options.url with
  | .error e => throw (.network e)
  | .ok response =>
    if response.isSuccess then
      storeSchema host options.schema response.body
      host.info ("[schema] " ++ toString response.body.length ++ " bytes written to "
        ++ options.schema)
    else throw (.server options.url response.status)

def reformatSchema (host : Host m) (options : Options) : ExceptT Failure m Unit := do
  match Json.format? (← loadSchema host options.schema) with
  | none => throw (.schema .document)
  | some text =>
    storeSchema host options.schema (Text.Utf8.encode text)
    host.info ("[schema] formatted " ++ options.schema)

/-- Does what the options ask for. -/
def run (host : Host m) (options : Options) : ExceptT Failure m Unit :=
  match options.actions with
  | [.generate format] => generateFiles host options format
  | [.fetch] => fetchSchema host options
  | [.reformat] => reformatSchema host options
  | actions => throw (.actions actions.length)

end Actions

/-- How the program ends. -/
inductive Ending where
  | done
  /-- The arguments are at fault. -/
  | usage
  | failed (cause : Failure)
  deriving DecidableEq, Repr

namespace Ending

def code : Ending → UInt8
  | done => 0
  | usage => 2
  | failed cause => cause.code

/-- What is said at the end when something went wrong. -/
def complaint : Ending → String
  | done => ""
  | usage =>
    "usage: generatorng [OPTIONS] <SCHEMA>\n\n"
      ++ "actions:  --generate-from-json  --generate-from-text  --fetch-json  --format-json\n"
      ++ "options:  --url <URL>  -I, --input-dir <DIR>  -O, --output-dir <DIR>\n"
      ++ "          --dry-run  --dump  --add-spec-sources  -V, --version\n"
  | failed cause => "✗ " ++ cause.message ++ "\n"

end Ending

def versionLine : String := "generatorng 0.4.7\n"

/-- The program: reads its arguments and does what they ask for. -/
def perform {m : Type → Type} [Monad m] (host : Host m) (arguments : List String) : m Ending := do
  match Options.read arguments with
  | .error .version =>
    host.print versionLine
    return .done
  | .error .usage => return .usage
  | .ok options =>
    match ← (run host options).run with
    | .error cause => return .failed cause
    | .ok () => return .done

/-- The program in memory: how it ends, and what has become of the files. -/
def rehearse (arguments : List String) (tree : FileTree) : Ending × Rehearsal :=
  (perform Rehearsal.host arguments).run { tree }

end TypeLang.Command
