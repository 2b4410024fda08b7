import TypeLang.Text.Lines
import TypeLang.Text.Split

/-!
# Indentation

Moving a block of lines to the indentation of a marker and back. Blank lines stay bare.
-/
namespace TypeLang.Text

/-- Ends a text that is not empty with a line feed. -/
def closeLine (cs : List Char) : List Char :=
  if cs.isEmpty || endsLine cs then cs else cs ++ ['\n']

/-- Indents one line; of a blank line only the line feed is left. -/
def indentLine (indent line : List Char) : List Char :=
  if (trim line).isEmpty then (if endsLine line then ['\n'] else []) else indent ++ line

/-- Indents every line of a block, and ends the last one. -/
def indentBlock (indent block : List Char) : List Char :=
  closeLine ((inclusiveLines block).flatMap (indentLine indent))

/-- Takes the indentation off a line. A line that does not start with it loses its leading spaces
and tabs. -/
def dedentLine (indent line : List Char) : List Char :=
  (dropStart? indent line).getD (line.dropWhile fun c => c == ' ' || c == '\t')

/-- Takes the indentation off every line of a block. -/
def dedentBlock (indent block : List Char) : List Char :=
  (inclusiveLines block).flatMap (dedentLine indent)

end TypeLang.Text
