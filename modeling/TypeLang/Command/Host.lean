import TypeLang.Command.FileTree
import TypeLang.Text.Utf8

/-!
# Hosts

What a run needs of its surroundings: files, a server, an output and a log. A run is written against
a host, so that it is one definition whether it works on a disk or in memory.
-/
namespace TypeLang.Command

/-- How grave a log entry is. -/
inductive Level where
  | info
  | error
  deriving DecidableEq, Repr, Inhabited

def Level.name : Level → String
  | info => "INFO"
  | error => "ERROR"

/-- An entry of the log. -/
structure LogEntry where
  level : Level
  message : String
  deriving DecidableEq, Repr, Inhabited

def LogEntry.line (entry : LogEntry) : String := entry.level.name ++ " " ++ entry.message

/-- The answer of a server. -/
structure Response where
  status : Nat
  body : List UInt8
  deriving DecidableEq, Repr, Inhabited

/-- Whether the body is what was asked for. -/
def Response.isSuccess (response : Response) : Bool :=
  200 ≤ response.status && response.status < 300

/-- The surroundings of a run, as effects of a monad. -/
structure Host (m : Type → Type) where
  /-- Reads a file. -/
  load : String → m (Except FileError (List UInt8))
  /-- Writes a file. -/
  store : String → List UInt8 → m (Except FileError Unit)
  /-- Asks a server, which may fail to answer. -/
  fetch : String → m (Except String Response)
  /-- Prints a text. -/
  print : String → m Unit
  /-- Adds to the log. -/
  log : LogEntry → m Unit

namespace Host

variable {m : Type → Type} [Monad m] (host : Host m)

def info (message : String) : m Unit := host.log ⟨.info, message⟩

def fault (message : String) : m Unit := host.log ⟨.error, message⟩

/-- Reads a file that must be text. -/
def loadText (path : String) : m (Except FileError String) := do
  match ← host.load path with
  | .error e => return .error e
  | .ok bytes =>
    match Text.Utf8.decode? bytes with
    | none => return .error .malformedText
    | some text => return .ok text

end Host

/-- A run in memory: the files so far, what was logged and what was printed. -/
structure Rehearsal where
  tree : FileTree
  log : List LogEntry := []
  output : String := ""
  deriving Repr, Inhabited

/-- A host in memory. No server answers. -/
def Rehearsal.host : Host (StateM Rehearsal) where
  load path := do return (← get).tree.read path
  store path bytes := do
    match (← get).tree.write path bytes with
    | .error e => return .error e
    | .ok tree =>
      modify fun r => { r with tree }
      return .ok ()
  fetch _ := return .error "no server answers in memory"
  print text := modify fun r => { r with output := r.output ++ text }
  log entry := modify fun r => { r with log := r.log ++ [entry] }

end TypeLang.Command
