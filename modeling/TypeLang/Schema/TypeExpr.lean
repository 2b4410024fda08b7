import TypeLang.Schema.Error
import TypeLang.Text.Split

/-!
# Qualified names and type expressions

A qualified name is a dotted path of non-empty parts. A type expression is a qualified name,
possibly applied to one argument in angle brackets, as in `Vector<auth.Session>`.
-/
namespace TypeLang

open Text

/-- A name in a namespace; the namespace of a global name is the empty path. -/
structure QualifiedName where
  path : List String
  base : String
  deriving DecidableEq, Repr, Inhabited

namespace QualifiedName

def text (name : QualifiedName) : String :=
  name.path.foldr (fun part rest => part ++ "." ++ rest) name.base

def namespaceText (name : QualifiedName) : String := String.intercalate "." name.path

/-- Reads a dotted name; none of its parts may be empty. -/
def read? (cs : List Char) : Option QualifiedName :=
  let parts := splitWhere (· == '.') cs
  if parts.any List.isEmpty then none
  else
    let names := parts.map String.ofList
    some ⟨names.dropLast, names.getLastD ""⟩

end QualifiedName

/-- A type as written in a schema. -/
inductive TypeExpr where
  | named (name : QualifiedName)
  | applied (name : QualifiedName) (argument : TypeExpr)
  deriving DecidableEq, Repr, Inhabited

namespace TypeExpr

/-- The name, without the argument. -/
def name : TypeExpr → QualifiedName
  | named name => name
  | applied name _ => name

/-- What stands in the angle brackets. -/
def argument? : TypeExpr → Option TypeExpr
  | named _ => none
  | applied _ argument => some argument

/-- A type is bare when its own name starts with a lowercase ASCII letter. -/
def isBare (type : TypeExpr) : Bool := type.name.base.toList.head?.any Char.isLower

/-- Vectors are the global types called `vector`, in any mixture of cases. -/
def isVector (type : TypeExpr) : Bool :=
  type.name.path.isEmpty && type.name.base.toList.map Char.toLower == "vector".toList

def text : TypeExpr → String
  | named name => name.text
  | applied name argument => name.text ++ "<" ++ argument.text ++ ">"

private def readName (cs : List Char) : Except ParameterError QualifiedName :=
  match QualifiedName.read? cs with
  | none => .error .empty
  | some name => .ok name

theorem readName_eq_ok {cs : List Char} {name : QualifiedName} :
    readName cs = .ok name ↔ QualifiedName.read? cs = some name := by
  simp only [readName]
  split <;> simp_all

/-- Reads a type expression. The argument runs from the first opening bracket to the closing
bracket at the very end, and is read before the name. References to type variables, which start
with `!`, are no types. -/
def read (cs : List Char) : Except ParameterError TypeExpr :=
  if cs.head? = some '!' then .error .malformedArgument
  else match _hcut : cut? '<' cs with
    | none => (readName cs).map named
    | some (head, rest) =>
      match _hlast : dropLast? '>' rest with
      | none => .error .malformedArgument
      | some inner => do
        let argument ← read inner
        return applied (← readName head) argument
termination_by cs.length
decreasing_by
  have := length_cutWhere? _hcut
  have := length_dropLast? _hlast
  omega

end TypeExpr

end TypeLang
