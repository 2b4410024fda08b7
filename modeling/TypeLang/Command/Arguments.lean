import TypeLang.Text.Split

/-!
# Arguments

The command line as a list of texts, and what it asks for. Arguments are read from left to right and
the first that settles the matter does: a request for the version, or a fault. A switch or a setting
is given at most once. Behind `--` every argument is a file name.
-/
namespace TypeLang.Command

open Text

/-- What a schema file is written in. -/
inductive SchemaFormat where
  /-- Definitions, each closed with a semicolon. -/
  | text
  /-- A JSON document. -/
  | json
  deriving DecidableEq, Repr, Inhabited

/-- What a run does. -/
inductive Action where
  /-- Generates code from the schema. -/
  | generate (format : SchemaFormat)
  /-- Downloads the schema. -/
  | fetch
  /-- Writes the schema anew, ordered and indented. -/
  | reformat
  deriving DecidableEq, Repr, Inhabited

/-- An option without a value. -/
inductive Switch where
  | action (action : Action)
  /-- Reports changes and makes none. -/
  | dryRun
  /-- Prints every generated section. -/
  | dump
  /-- Shows schema texts as comments. -/
  | sources
  deriving DecidableEq, Repr, Inhabited

namespace Switch

/-- Every action, in the order its switch is listed in. -/
def actions : List Action := [.generate .json, .generate .text, .fetch, .reformat]

def all : List Switch := actions.map action ++ [dryRun, dump, sources]

def name : Switch → String
  | action (.generate .json) => "generate-from-json"
  | action (.generate .text) => "generate-from-text"
  | action .fetch => "fetch-json"
  | action .reformat => "format-json"
  | dryRun => "dry-run"
  | dump => "dump"
  | sources => "add-spec-sources"

end Switch

/-- An option with a value. -/
inductive Setting where
  /-- Where to download the schema from. -/
  | url
  /-- Where the target files are read. -/
  | inputDir
  /-- Where the target files are written. -/
  | outputDir
  deriving DecidableEq, Repr, Inhabited

namespace Setting

def all : List Setting := [url, inputDir, outputDir]

def name : Setting → String
  | url => "url"
  | inputDir => "input-dir"
  | outputDir => "output-dir"

def letter? : Setting → Option Char
  | url => none
  | inputDir => some 'I'
  | outputDir => some 'O'

/-- A directory has a name; an address may be empty. -/
def admits : Setting → String → Bool
  | url, _ => true
  | inputDir, value | outputDir, value => !value.isEmpty

end Setting

/-- What has been given so far. -/
structure Arguments where
  /-- The path of the schema. -/
  schema? : Option String := none
  switches : List Switch := []
  settings : List (Setting × String) := []
  deriving DecidableEq, Repr, Inhabited

/-- Why arguments lead to no run. -/
inductive Halt where
  /-- The version is asked for. -/
  | version
  /-- The arguments are at fault. -/
  | usage
  deriving DecidableEq, Repr, Inhabited

namespace Arguments

def addSchema (given : Arguments) (path : String) : Except Halt Arguments :=
  if given.schema?.isSome || path.isEmpty then .error .usage
  else .ok { given with schema? := some path }

def addSwitch (given : Arguments) (switch : Switch) : Except Halt Arguments :=
  if switch ∈ given.switches then .error .usage
  else .ok { given with switches := given.switches ++ [switch] }

/-- Takes a setting, the first time, with a value that it admits. -/
def addSetting (given : Arguments) (setting : Setting) (value : String) : Except Halt Arguments :=
  if (given.settings.lookup setting).isSome || !setting.admits value then .error .usage
  else .ok { given with settings := given.settings ++ [(setting, value)] }

end Arguments

/-- What a single argument is, before `--`. -/
inductive Argument where
  /-- No option: a file name, or the value of the setting before it. -/
  | plain
  /-- The mark `--`. -/
  | endOfOptions
  | version
  | switch (switch : Switch)
  /-- A setting, with its value when they are one argument. -/
  | setting (setting : Setting) (value? : Option String)
  | unknown
  deriving DecidableEq, Repr, Inhabited

namespace Argument

/-- The option of a name, with the value behind an equals sign. Only settings have values. -/
def ofName (name : String) (value? : Option String) : Argument :=
  match Setting.all.find? (·.name == name) with
  | some s => setting s value?
  | none =>
    if value?.isSome then unknown
    else if name = "version" then version
    else ((Switch.all.find? (·.name == name)).map switch).getD unknown

/-- The option of a letter, with what follows the letter. An equals sign before a value is no part
of it. -/
def ofLetter (letter : Char) (rest : List Char) : Argument :=
  match Setting.all.find? (·.letter? == some letter) with
  | some s =>
    match rest with
    | [] => setting s none
    | '=' :: value => setting s (some (String.ofList value))
    | value => setting s (some (String.ofList value))
  | none => if letter = 'V' then version else unknown

/-- What an argument is. A lone dash is no option. -/
def ofText (text : String) : Argument :=
  match text.toList with
  | ['-', '-'] => endOfOptions
  | '-' :: '-' :: option =>
    match cut? '=' option with
    | some (name, value) => ofName (String.ofList name) (some (String.ofList value))
    | none => ofName (String.ofList option) none
  | '-' :: letter :: rest => ofLetter letter rest
  | _ => plain

end Argument

namespace Arguments

/-- Reads arguments on top of what has been given. A setting without its value takes the next
argument, which must be no option. -/
def read (given : Arguments) : List String → Except Halt Arguments
  | [] => .ok given
  | text :: texts =>
    match Argument.ofText text with
    | .plain => do (← given.addSchema text).read texts
    | .endOfOptions => texts.foldlM addSchema given
    | .version => .error .version
    | .switch switch => do (← given.addSwitch switch).read texts
    | .setting setting (some value) => do (← given.addSetting setting value).read texts
    | .setting setting none =>
      match texts with
      | [] => .error .usage
      | value :: texts =>
        match Argument.ofText value with
        | .plain => do (← given.addSetting setting value).read texts
        | _ => .error .usage
    | .unknown => .error .usage

end Arguments

/-- What a run is asked to do. -/
structure Options where
  /-- The path of the schema. -/
  schema : String
  switches : List Switch
  /-- Where the schema is downloaded from. -/
  url : String
  /-- Where the target files are read. -/
  inputDir : String
  /-- Where the target files are written. -/
  outputDir : String
  deriving DecidableEq, Repr, Inhabited

namespace Options

def publishedUrl : String := "https://core.telegram.org/schema/json"

/-- Completes what was given: files are read from the current directory and written to where they
were read. A schema there must be. -/
def ofArguments (given : Arguments) : Except Halt Options :=
  match given.schema? with
  | none => .error .usage
  | some schema =>
    let inputDir := (given.settings.lookup .inputDir).getD "."
    .ok {
      schema, inputDir
      switches := given.switches
      url := (given.settings.lookup .url).getD publishedUrl
      outputDir := (given.settings.lookup .outputDir).getD inputDir }

def read (texts : List String) : Except Halt Options := do
  ofArguments (← Arguments.read {} texts)

def has (options : Options) (switch : Switch) : Bool := options.switches.contains switch

def actions (options : Options) : List Action :=
  Switch.actions.filter fun action => options.has (.action action)

end Options

end TypeLang.Command
