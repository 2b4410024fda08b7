import TypeLang.Emit.Stream
import TypeLang.Text.Lines

/-!
# Instantiations

The vector operators are templates with explicit instantiations, one line for each vector type.
Lines keep the order they have in the file, so that regenerating moves none of them.
-/
namespace TypeLang

namespace Emit

/-- Merges wanted lines into prior ones: first the wanted lines among the prior ones, in the order
of their first occurrences, then the others. -/
def mergeLines (prior wanted : List String) : List String :=
  let kept := distinct (prior.filter (· ∈ wanted))
  kept ++ distinct (wanted.filter (· ∉ kept))

/-- The lines of a text that say something, without the blanks around them. -/
def statedLines (text : String) : List String :=
  let trimmed := (Text.lines text.toList).map Text.trim
  (trimmed.filter fun line => !line.isEmpty).map String.ofList

/-- The instantiation of an operator for a vector type. -/
def instanceLine (d : Direction) (vector : String) : String :=
  "template CTelegramStream &CTelegramStream::operator" ++ d.operator
    ++ "(" ++ d.argument vector "v" ++ ");"

/-- The instantiations for vector types, in alphabetical order where nothing is there yet. -/
def instancesCode (d : Direction) (prior : Option String) (vectors : List TargetType) : Code :=
  let spelled := (vectors.map TargetType.text).mergeSort fun a b => decide (a ≤ b)
  let present := (prior.map statedLines).getD []
  (mergeLines present (spelled.map (instanceLine d))).flatMap Code.line

end Emit

end TypeLang
