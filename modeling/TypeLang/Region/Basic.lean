import TypeLang.Region.Marker
import TypeLang.Text.Indentation

/-!
# Regions

The place of a marker pair in a text: what stands before the region, in it and behind it. Marker
lines are recognised whole, without the blanks around them. Replacing the content leaves everything
else alone.
-/
namespace TypeLang

open Text

/-- A text around a region. -/
structure Region where
  /-- The text through the begin line. -/
  before : List Char
  content : List Char
  /-- The text from the end line on. -/
  after : List Char
  /-- The blanks in front of the begin line. -/
  indent : List Char
  deriving DecidableEq, Repr, Inhabited

namespace Region

def start (r : Region) : Nat := (String.ofList r.before).utf8ByteSize

def stop (r : Region) : Nat := r.start + (String.ofList r.content).utf8ByteSize

def text (r : Region) : List Char := r.before ++ r.content ++ r.after

def isMarkerLine (marker : String) (line : List Char) : Bool := trim line == marker.toList

/-- Finds the region of a marker: it begins behind the first begin line and ends before the first
end line after that. -/
def locate (m : Marker) (text : List Char) : Except UnclosedRegion (Option Region) :=
  match cutLines? (isMarkerLine m.beginLine) (inclusiveLines text) with
  | none => .ok none
  | some (before, beginLine, rest) =>
    match cutLines? (isMarkerLine m.endLine) rest with
    | none => .error ⟨m.beginLine, before.length + 1⟩
    | some (content, endLine, after) => .ok <| some
      { before := before.flatten ++ beginLine
        content := content.flatten
        after := endLine ++ after.flatten
        indent := beginLine.takeWhile isBlank }

/-- A region that is found is one of the text. -/
theorem text_of_locate {m : Marker} {text : List Char} {r : Region}
    (h : locate m text = .ok (some r)) : r.text = text := by
  simp only [locate] at h
  split at h
  · simp at h
  · next before beginLine rest hbegin =>
    split at h
    · simp at h
    · next content endLine after hend =>
      simp only [Except.ok.injEq, Option.some.injEq] at h
      subst h
      have hlines := congrArg List.flatten (append_of_cutLines? hbegin)
      rw [← append_of_cutLines? hend] at hlines
      simpa [Region.text] using hlines

/-- The content as it reads at the margin. Hand-written lines are not touched. -/
def readContent (m : Marker) (r : Region) : List Char :=
  match m.ownership with
  | .generated => dedentBlock r.indent r.content
  | .shared => r.content

/-- New content as it stands in the region. -/
def writtenContent (m : Marker) (r : Region) (content : List Char) : List Char :=
  match m.ownership with
  | .generated => indentBlock r.indent content
  | .shared => closeLine content

end Region

namespace Marker

/-- The content of the marker's region and the indentation of its begin line. -/
def read (m : Marker) (text : List Char) :
    Except UnclosedRegion (Option (List Char × List Char)) :=
  (Region.locate m text).map fun region? => region?.map fun r => (r.readContent m, r.indent)

/-- Replaces the content of the marker's region. -/
def replace (m : Marker) (text content : List Char) :
    Except UnclosedRegion (Option (List Char)) :=
  (Region.locate m text).map fun region? => region?.map fun r =>
    ({ r with content := r.writtenContent m content } : Region).text

end Marker

/-- Replaces the content of several regions in turn. Markers that are absent are passed over. -/
def patch (sections : List (Marker × List Char)) (text : List Char) :
    Except UnclosedRegion (List Char) :=
  sections.foldlM (fun text entry => do
    return (← entry.1.replace text entry.2).getD text) text

end TypeLang
