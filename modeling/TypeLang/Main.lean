import TypeLang.Command.Run

/-!
# The program

The host that is the operating system. It has no transport for downloads, so that a fetch ends as
one that no server answers. The log goes to the error stream.
-/
namespace TypeLang.Command

/-- What an error of the system means for a file. -/
def FileError.ofSystem : IO.Error → FileError
  | .noFileOrDirectory .. => .notFound
  | .inappropriateType _ _ "not a directory" => .notDirectory
  | .inappropriateType _ _ _ => .isDirectory
  | .invalidArgument _ _ "name too long" => .nameTooLong
  | e => .other (toString e)

/-- Works on a file, and tells how that failed. -/
def attempt {α : Type} (work : IO α) : IO (Except FileError α) := do
  match ← work.toBaseIO with
  | .ok a => return .ok a
  | .error e => return .error (.ofSystem e)

/-- The operating system. -/
def system : Host IO where
  load path := attempt do return (← IO.FS.readBinFile path).toList
  store path bytes := attempt (IO.FS.writeBinFile path bytes.toByteArray)
  fetch _ := return .error "no transport"
  print text := IO.print text
  log entry := IO.eprintln entry.line

end TypeLang.Command

open TypeLang.Command in
def main (arguments : List String) : IO UInt32 := do
  let ending ← perform system arguments
  IO.eprint ending.complaint
  return ending.code.toUInt32
