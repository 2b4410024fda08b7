import TypeLang.Region.Basic
import TypeLang.Region.Section

/-!
# Prior contents

What the sections hold before they are generated anew. Sections that merge old lines with new ones
read it.
-/
namespace TypeLang

/-- The contents found, and the indentation of their markers. -/
structure Prior where
  content? : Section → Option String
  indent : Section → String

namespace Prior

def empty : Prior := ⟨fun _ => none, fun _ => ""⟩

instance : Inhabited Prior := ⟨empty⟩

/-- Records the content of a section. -/
def insert (p : Prior) (s : Section) (content : String) : Prior :=
  { p with content? := fun t => if t = s then some content else p.content? t }

/-- Records the content of a section and the indentation of its marker. -/
def insertAt (p : Prior) (s : Section) (content indent : String) : Prior :=
  { content? := (p.insert s content).content?
    indent := fun t => if t = s then indent else p.indent t }

/-- Reads sections out of a text up to the first that is not closed; what was read before it is
kept. -/
def readSections (p : Prior) (text : List Char) : List Section → Prior × Option UnclosedRegion
  | [] => (p, none)
  | s :: rest =>
    match s.marker.read text with
    | .error e => (p, some e)
    | .ok none => p.readSections text rest
    | .ok (some (content, indent)) =>
      (p.insertAt s (String.ofList content) (String.ofList indent)).readSections text rest

def readTarget (p : Prior) (file text : String) : Prior × Option UnclosedRegion :=
  p.readSections text.toList (Section.inFile file)

end Prior

end TypeLang
