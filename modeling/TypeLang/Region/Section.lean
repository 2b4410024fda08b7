import TypeLang.Region.Marker

/-!
# Sections

The seventeen regions that generated code goes to, and the nine files they lie in. No two sections
of one file have the same marker.
-/
namespace TypeLang

/-- A file with generated regions. -/
inductive TargetFile where
  | values
  | types
  | streamHeader
  | streamSource
  | connectionHeader
  | connectionSource
  | debugHeader
  | debugSource
  | requestDump
  deriving DecidableEq, Repr, Inhabited

namespace TargetFile

def all : List TargetFile :=
  [values, types, streamHeader, streamSource, connectionHeader, connectionSource, debugHeader,
    debugSource, requestDump]

def name : TargetFile → String
  | values => "TLValues.hpp"
  | types => "TLTypes.hpp"
  | streamHeader => "CTelegramStream.hpp"
  | streamSource => "CTelegramStream.cpp"
  | connectionHeader => "CTelegramConnection.hpp"
  | connectionSource => "CTelegramConnection.cpp"
  | debugHeader => "TLTypesDebug.hpp"
  | debugSource => "TLTypesDebug.cpp"
  | requestDump => "TLRpcDebug.cpp"

end TargetFile

/-- What is generated into one region. -/
inductive Section where
  /-- The tag constants. -/
  | values
  /-- The structs. -/
  | types
  | readDeclarations
  | writeDeclarations
  | readDefinitions
  | writeDefinitions
  /-- The explicit vector instantiations of the read operator. -/
  | readInstances
  /-- The explicit vector instantiations of the write operator. -/
  | writeInstances
  /-- The functions that send a request. -/
  | stubDeclarations
  /-- The functions that take a result. -/
  | handlerDeclarations
  | stubDefinitions
  /-- The handlers; their bodies are written by hand. -/
  | handlerDefinitions
  /-- The cases that call the handlers. -/
  | resultCases
  /-- The case labels of methods with a common handler. -/
  | updatesCases
  | debugDeclarations
  | debugDefinitions
  /-- The cases that print a request. -/
  | requestCases
  deriving DecidableEq, Repr, Inhabited

namespace Section

/-- Every section, in the order they are generated in. -/
def all : List Section :=
  [values, types, readDeclarations, writeDeclarations, readDefinitions, writeDefinitions,
    readInstances, writeInstances, stubDeclarations, handlerDeclarations, stubDefinitions,
    handlerDefinitions, resultCases, updatesCases, debugDeclarations, debugDefinitions,
    requestCases]

def file : Section → TargetFile
  | values => .values
  | types => .types
  | readDeclarations | writeDeclarations => .streamHeader
  | readDefinitions | writeDefinitions | readInstances | writeInstances => .streamSource
  | stubDeclarations | handlerDeclarations => .connectionHeader
  | stubDefinitions | handlerDefinitions | resultCases | updatesCases => .connectionSource
  | debugDeclarations => .debugHeader
  | debugDefinitions => .debugSource
  | requestCases => .requestDump

def markerName : Section → String
  | values => "TLValues"
  | types => "TLTypes"
  | readDeclarations | readDefinitions => "read operators"
  | writeDeclarations | writeDefinitions => "write operators"
  | readInstances => "vector read templates"
  | writeInstances => "vector write templates"
  | stubDeclarations | stubDefinitions => "Telegram API methods"
  | handlerDeclarations | handlerDefinitions => "Telegram API RPC process methods"
  | resultCases => "Telegram API RPC process switch cases"
  | updatesCases => "Telegram API updates switch cases"
  | debugDeclarations | debugDefinitions => "TLTypes debug operators"
  | requestCases => "RPC debug cases"

/-- Handler definitions share their region with hand-written lines. -/
def ownership : Section → Ownership
  | handlerDefinitions => .shared
  | _ => .generated

def marker (s : Section) : Marker := ⟨s.markerName, s.ownership⟩

/-- The file and the name in the marker. -/
def title (s : Section) : String := s.file.name ++ " (" ++ s.markerName ++ ")"

/-- The sections of a file, by the file's name. -/
def inFile (name : String) : List Section := all.filter (·.file.name == name)

/-- Every section is listed. -/
theorem mem_all (s : Section) : s ∈ all := by cases s <;> decide

/-- A section is known by its file and its marker. -/
theorem eq_of_file_of_marker {s t : Section} (hfile : s.file = t.file)
    (hmarker : s.marker = t.marker) : s = t := by
  revert hfile hmarker
  cases s <;> cases t <;> decide

end Section

end TypeLang
