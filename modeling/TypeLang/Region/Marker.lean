/-!
# Markers

A region of a hand-maintained file stands between two comment lines that name it. The wording of
the lines tells whether the whole region is generated or hand-written lines are kept in it.
-/
namespace TypeLang

/-- Who writes the lines of a region. -/
inductive Ownership where
  /-- All lines are generated. -/
  | generated
  /-- Hand-written lines are kept among the generated ones. -/
  | shared
  deriving DecidableEq, Repr, Inhabited

/-- A pair of marker lines. -/
structure Marker where
  name : String
  ownership : Ownership
  deriving DecidableEq, Repr, Inhabited

namespace Marker

def beginLine (m : Marker) : String :=
  match m.ownership with
  | .generated => "// Generated " ++ m.name
  | .shared => "// Partially generated " ++ m.name

def endLine (m : Marker) : String :=
  match m.ownership with
  | .generated => "// End of generated " ++ m.name
  | .shared => "// End of partially generated " ++ m.name

end Marker

/-- A begin line without an end line after it. -/
structure UnclosedRegion where
  marker : String
  /-- The line of the begin line, counted from one. -/
  line : Nat
  deriving DecidableEq, Repr, Inhabited

def UnclosedRegion.message (e : UnclosedRegion) : String :=
  "`" ++ e.marker ++ "` at line " ++ toString e.line ++ " has no matching end marker"

end TypeLang
