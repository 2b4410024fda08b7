import TypeLang.Text.Split

/-!
# File trees

Files and directories below the root of a system, reached by path texts from the root or from a
working directory, and why a path cannot be read or written. Every name of a path but the last must
lead to a directory. A path that ends with a slash means a directory, so that no file is read or
written there.
-/
namespace TypeLang.Command

open Text

/-- Why a file cannot be read or written. -/
inductive FileError where
  | notFound
  /-- A part of the path that must be a directory is a file. -/
  | notDirectory
  | isDirectory
  /-- The path, or one of its names, has too many bytes. -/
  | nameTooLong
  /-- The bytes are no text. -/
  | malformedText
  /-- Any other cause, as the system words it. -/
  | other (message : String)
  deriving DecidableEq, Repr, Inhabited

def FileError.message : FileError → String
  | .notFound => "No such file or directory (os error 2)"
  | .notDirectory => "Not a directory (os error 20)"
  | .isDirectory => "Is a directory (os error 21)"
  | .nameTooLong => "File name too long (os error 36)"
  | .malformedText => "stream did not contain valid UTF-8"
  | .other message => message

def joinPath (dir file : String) : String :=
  if dir.endsWith "/" then dir ++ file else dir ++ "/" ++ file

/-- What stands at a place. -/
inductive FileEntry where
  | directory
  | file (bytes : List UInt8)
  /-- The null device: it reads as empty, and loses what is written to it. -/
  | sink
  deriving DecidableEq, Repr, Inhabited

/-- A place in a tree: the names on the way from the root. -/
abbrev Place := List String

/-- Files and directories below a root. -/
structure FileTree where
  /-- Where paths that do not begin with a slash begin. -/
  workingDirectory : Place := []
  /-- What stands where; the first of two entries for one place counts. -/
  entries : List (Place × FileEntry) := []
  deriving Repr, Inhabited

namespace FileTree

/-- What stands at a place. The root is a directory. -/
def find? (tree : FileTree) : Place → Option FileEntry
  | [] => some .directory
  | place => tree.entries.lookup place

def insert (tree : FileTree) (place : Place) (entry : FileEntry) : FileTree :=
  { tree with entries := (place, entry) :: tree.entries.filter fun e => e.1 != place }

theorem find?_insert (tree : FileTree) (place other : Place) (entry : FileEntry)
    (h : other ≠ []) :
    (tree.insert place entry).find? other = if other = place then some entry
      else tree.find? other := by
  cases other with
  | nil => exact absurd rfl h
  | cons name names =>
    simp only [find?, insert, List.lookup_cons]
    by_cases hp : name :: names = place
    · simp [hp]
    · rw [if_neg hp, beq_false_of_ne hp]
      induction tree.entries with
      | nil => rfl
      | cons e entries ih =>
        obtain ⟨p, entry⟩ := e
        by_cases he : p = place
        · subst he
          simp [List.lookup_cons, beq_false_of_ne hp, ih]
        · simp [he, List.lookup_cons, ih]

/-- The most bytes that a name in a directory may have. -/
def maxNameBytes : Nat := 255

/-- The most bytes that a path may have. -/
def maxPathBytes : Nat := 4095

/-- The names of a path, as they stand between its slashes. -/
def names (path : String) : List String :=
  ((splitWhere (· == '/') path.toList).filter (!·.isEmpty)).map String.ofList

/-- Where the names of a path begin. -/
def start (tree : FileTree) (path : String) : Place :=
  if path.startsWith "/" then [] else tree.workingDirectory

/-- What stands at a place, looked up by its last name in the directory above. -/
def lookUp (tree : FileTree) (place : Place) : Except FileError (Option FileEntry) :=
  if place.getLast?.any fun name => maxNameBytes < name.utf8ByteSize then .error .nameTooLong
  else .ok (tree.find? place)

/-- Follows names from a directory to the place they lead to. The last is not looked up, so that it
may lead to nothing. The root is its own parent. -/
def follow (tree : FileTree) (place : Place) : List String → Except FileError Place
  | [] => .ok place
  | "." :: rest => tree.follow place rest
  | ".." :: rest => tree.follow place.dropLast rest
  | name :: rest =>
    let next := place ++ [name]
    if rest.isEmpty then .ok next
    else
      match tree.lookUp next with
      | .error e => .error e
      | .ok none => .error .notFound
      | .ok (some .directory) => tree.follow next rest
      | .ok (some (.file _)) | .ok (some .sink) => .error .notDirectory

/-- The place that a path leads to. -/
def place (tree : FileTree) (path : String) : Except FileError Place :=
  if path.isEmpty then .error .notFound
  else if maxPathBytes < path.utf8ByteSize then .error .nameTooLong
  else tree.follow (tree.start path) (names path)

def read (tree : FileTree) (path : String) : Except FileError (List UInt8) := do
  match ← tree.lookUp (← tree.place path) with
  | none => .error .notFound
  | some .directory => .error .isDirectory
  | some (.file bytes) => if path.endsWith "/" then .error .notDirectory else .ok bytes
  | some .sink => if path.endsWith "/" then .error .notDirectory else .ok []

def write (tree : FileTree) (path : String) (bytes : List UInt8) : Except FileError FileTree := do
  let place ← tree.place path
  if path.endsWith "/" then .error .isDirectory
  else
    match ← tree.lookUp place with
    | some .directory => .error .isDirectory
    | some .sink => .ok tree
    | some (.file _) | none => .ok (tree.insert place (.file bytes))

/-- The place that a path names when every directory on the way is there, or will be. -/
def nominal (tree : FileTree) (path : String) : Place :=
  (names path).foldl (fun place name =>
    if name = "." then place else if name = ".." then place.dropLast else place ++ [name])
    (tree.start path)

/-- Puts directories at a place and above it, where nothing stands yet. -/
def ensureDirectory (tree : FileTree) (place : Place) : FileTree :=
  (List.range (place.length + 1)).foldl (fun tree n =>
    if (tree.find? (place.take n)).isSome then tree else tree.insert (place.take n) .directory) tree

def addDirectory (tree : FileTree) (path : String) : FileTree :=
  tree.ensureDirectory (tree.nominal path)

def addFile (tree : FileTree) (path : String) (bytes : List UInt8) : FileTree :=
  let place := tree.nominal path
  (tree.ensureDirectory place.dropLast).insert place (.file bytes)

/-- The files below the working directory, by path from there, that are not in an older tree or
hold other bytes there. -/
def changes (tree older : FileTree) : List (String × List UInt8) :=
  tree.entries.filterMap fun (place, entry) =>
    match entry with
    | .file bytes =>
      if older.find? place = some entry || !tree.workingDirectory.isPrefixOf place then none
      else some ("/".intercalate (place.drop tree.workingDirectory.length), bytes)
    | .directory | .sink => none

/-- The directories below the root of every system. -/
def systemDirectories : List String :=
  ["bin", "boot", "dev", "etc", "home", "lib", "media", "mnt", "opt", "proc", "root", "run", "sbin",
    "srv", "sys", "tmp", "usr", "var"]

/-- A system with the null device and an empty working directory among its temporary files. -/
def fresh : FileTree :=
  { workingDirectory := ["tmp", "work"]
    entries := (["dev", "null"], .sink) :: (["tmp", "work"], .directory) ::
      systemDirectories.map fun name => ([name], .directory) }

end FileTree

end TypeLang.Command
