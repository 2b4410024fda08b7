import TypeLang.Model.Basic

/-!
# Code

Emitted code is a list of lines with their depths. Blocks nest it, and `Code.text` is the one place
where it becomes text.
-/
namespace TypeLang

inductive CodeLine where
  | blank
  | code (depth : Nat) (text : String)
  deriving DecidableEq, Repr, Inhabited

abbrev Code := List CodeLine

namespace CodeLine

/-- One level of depth. -/
def indentation : String := "    "

/-- The text of a line, with its line feed. -/
def text : CodeLine → String
  | blank => "\n"
  | code depth text => String.join (List.replicate depth indentation) ++ text ++ "\n"

/-- The line one level deeper; blank lines stay bare. -/
def nest : CodeLine → CodeLine
  | blank => blank
  | code depth text => code (depth + 1) text

end CodeLine

namespace Code

def text (code : Code) : String := String.join (code.map CodeLine.text)

def line (text : String) : Code := [.code 0 text]

def blank : Code := [.blank]

/-- Code one level deeper. -/
def nest (code : Code) : Code := code.map CodeLine.nest

/-- A head with a brace at its end, a nested body, and the closing brace with what follows it. -/
def braced (head : String) (body : Code) (trailer : String := "") : Code :=
  line (head ++ " \x7b") ++ nest body ++ line ("\x7d" ++ trailer)

/-- A function definition: the signature, and the body in braces of their own lines. -/
def function (signature : String) (body : Code) : Code :=
  line signature ++ line "\x7b" ++ nest body ++ line "\x7d"

/-- A label and the code that it leads to. -/
def arm (label : String) (body : Code) : Code := line label ++ nest body

/-- A switch with its arms, which stand at the depth of the switch, and what happens otherwise. -/
def switch (scrutinee : String) (arms : Code) (otherwise : Code) : Code :=
  line ("switch (" ++ scrutinee ++ ") \x7b") ++ arms ++ arm "default:" otherwise ++ line "\x7d"

/-- The expression that tells the bit of a gate; `owner` stands in front of the flags word. -/
def bit (owner : String) (g : FieldGate) : String :=
  owner ++ g.member ++ " & 1 << " ++ toString g.bit.val

/-- Code under the condition of a gate; `owner` stands in front of the flags word. -/
def gated (owner : String) (gate : Option FieldGate) (body : Code) : Code :=
  match gate with
  | none => body
  | some g => braced ("if (" ++ bit owner g ++ ")") body

/-- The schema text as a comment, when there is one and it is asked for. -/
def source (shown : Bool) (source : Option String) : Code :=
  if shown then source.toList.flatMap fun text => line ("// " ++ text) else []

/-- Blocks of code with a blank line between neighbours; empty blocks are left out. -/
def blocks (bs : List Code) : Code := [.blank].intercalate (bs.filter fun b => !b.isEmpty)

@[simp] theorem text_nil : text [] = "" := rfl

@[simp] theorem blocks_nil : blocks [] = [] := rfl

end Code

end TypeLang
