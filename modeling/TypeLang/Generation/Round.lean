import TypeLang.Generation.Generated

/-!
# Rounds

One round of generation over a set of target files: every file is read first, so that sections may
merge what is there, and then every file is patched on its own. A file with an unclosed region is
left alone; the others do not suffer from it.
-/
namespace TypeLang

/-- What became of a file: its new text, or why it was left alone. -/
abbrev Outcome := Except UnclosedRegion String

namespace Round

def load (files : List (String × String)) : Prior × List (Option UnclosedRegion) :=
  files.foldl (fun (prior, errors) (name, text) =>
    let (prior, error?) := prior.readTarget name text
    (prior, errors ++ [error?])) (Prior.empty, [])

/-- The outcome for one file, given why it could not be read, if so. -/
def outcome (generated : Generated) (file : String × String) (error? : Option UnclosedRegion) :
    Outcome :=
  match error? with
  | some e => .error e
  | none => generated.patchFile file.1 file.2

/-- One round: the outcome for every file. -/
def run (m : Model) (config : Config) (files : List (String × String)) :
    Except GenerationError (List (String × Outcome)) := do
  let (prior, errors) := load files
  let generated ← generate m config prior
  return (files.zip errors).map fun (file, error?) =>
    (file.1, outcome generated file error?)

def apply (files : List (String × String)) (outcomes : List (String × Outcome)) :
    List (String × String) :=
  (files.zip outcomes).map fun (file, entry) => (file.1, entry.2.toOption.getD file.2)

/-- Several rounds in a row, each on the files that the one before left: their outcomes. -/
def runMany (m : Model) (config : Config) :
    Nat → List (String × String) → Except GenerationError (List (List (String × Outcome)))
  | 0, _ => return []
  | n + 1, files => do
    let outcomes ← run m config files
    return outcomes :: (← runMany m config n (apply files outcomes))

end Round

end TypeLang
