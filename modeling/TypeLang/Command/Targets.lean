import TypeLang.Command.Host
import TypeLang.Generation.Generated

/-!
# Target files on a host

Reading the target files before generation and writing them afterwards. A file that cannot be read,
patched or written is logged and passed over; the others are still written. Files whose text stays
the same are not touched.
-/
namespace TypeLang.Command

variable {m : Type → Type} [Monad m]

/-- The target files that were read. -/
structure Targets where
  /-- What their sections hold. -/
  prior : Prior := .empty
  /-- Names and texts, in order. -/
  texts : List (TargetFile × String) := []
  /-- The paths that failed. -/
  failed : List String := []
  deriving Inhabited

namespace Targets

/-- Reads one more target file from a directory. -/
def loadFile (host : Host m) (dir : String) (targets : Targets) (file : TargetFile) :
    m Targets := do
  let path := joinPath dir file.name
  match ← host.loadText path with
  | .error e =>
    host.fault ("[patch] cannot read " ++ path ++ ": " ++ e.message)
    return { targets with failed := targets.failed ++ [path] }
  | .ok text =>
    match targets.prior.readTarget file.name text with
    | (prior, some e) =>
      host.fault ("[patch] " ++ path ++ ": " ++ e.message)
      return { targets with prior, failed := targets.failed ++ [path] }
    | (prior, none) => return { targets with prior, texts := targets.texts ++ [(file, text)] }

/-- Reads every target file from a directory. -/
def load (host : Host m) (dir : String) : m Targets :=
  TargetFile.all.foldlM (loadFile host dir) {}

end Targets

/-- How the target files fared. -/
structure Tally where
  written : Nat := 0
  unchanged : Nat := 0
  /-- The paths that failed. -/
  failed : List String := []
  deriving DecidableEq, Repr, Inhabited

namespace Tally

def fail (tally : Tally) (host : Host m) (path complaint : String) : m Tally := do
  host.fault ("[patch] " ++ complaint)
  return { tally with failed := tally.failed ++ [path] }

/-- Brings the file at a path to a new text, unless it has that text already. A rehearsed change is
counted and not made. -/
def update (tally : Tally) (host : Host m) (dryRun : Bool) (path patched : String) :
    m Tally := do
  match ← host.loadText path with
  | .ok current =>
    if current = patched then return { tally with unchanged := tally.unchanged + 1 }
    else change
  | .error .notFound => change
  | .error e => tally.fail host path ("cannot read " ++ path ++ ": " ++ e.message)
where
  /-- Writes the file, or only says so. -/
  change : m Tally := do
    if dryRun then
      host.info ("[patch] would update " ++ path)
      return { tally with written := tally.written + 1 }
    else
      match ← host.store path (Text.Utf8.encode patched) with
      | .error e => tally.fail host path ("cannot write " ++ path ++ ": " ++ e.message)
      | .ok () =>
        host.info ("[patch] updated " ++ path)
        return { tally with written := tally.written + 1 }

/-- Patches one target file and brings its path in a directory to the new text. -/
def patchFile (host : Host m) (generated : Generated) (dryRun : Bool) (dir : String)
    (tally : Tally) (target : TargetFile × String) : m Tally := do
  let (file, text) := target
  let path := joinPath dir file.name
  match generated.patchFile file.name text with
  | .error e => tally.fail host path (path ++ ": " ++ e.message)
  | .ok patched => tally.update host dryRun path patched

def summary (tally : Tally) (dryRun : Bool) : String :=
  "[patch] " ++ toString tally.written ++ " files "
    ++ (if dryRun then "would change" else "written") ++ ", "
    ++ toString tally.unchanged ++ " unchanged"

end Tally

def Targets.patch (targets : Targets) (host : Host m) (generated : Generated) (dryRun : Bool)
    (dir : String) : m Tally :=
  targets.texts.foldlM (Tally.patchFile host generated dryRun dir)
    { failed := targets.failed }

end TypeLang.Command
