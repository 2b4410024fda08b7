import TypeLang.Naming.Case
import TypeLang.Schema.TypeExpr

/-!
# Target types

The types of the emitted code: a named type, a vector of a type, or a pointer to a type. The
written form nests names in angle brackets; `TargetType.ofText` takes it apart again, one template
and one closing bracket at a time.
-/
namespace TypeLang

/-- A type of the emitted code. -/
inductive TargetType where
  | plain (name : String)
  | vector (item : TargetType)
  | pointer (target : TargetType)
  deriving DecidableEq, Repr, Inhabited

namespace TargetType

open Naming

def vectorName : String := "TLVector"

def pointerName : String := "TLPtr"

/-- What the names of generated types start with. -/
def initials : String := "TL"

/-- The schema primitives and what they map to. The type `true` occurs behind gates only. -/
def primitives : List (String × String) :=
  [("Bool", "bool"), ("true", "bool"), ("#", "quint32"), ("int", "quint32"), ("long", "quint64"),
    ("double", "double"), ("string", "QString"), ("bytes", "QByteArray"),
    ("int128", "TLNumber128"), ("int256", "TLNumber256")]

def primitive? (name : String) : Option String := primitives.lookup name

/-- The target types that exist before anything is generated. -/
def builtins : List String :=
  ["bool", "quint32", "quint64", "double", "QString", "QByteArray", "TLNumber128", "TLNumber256",
    vectorName]

def isBuiltin (name : String) : Bool := builtins.contains name

/-- The name of the generated type for a schema type name. -/
def generatedName (name : String) : String := initials ++ pascal name

/-- The target of a schema type. Arguments of anything but a vector are dropped. -/
def ofTypeExpr (type : TypeExpr) : TargetType :=
  match type with
  | .applied name argument =>
    if (TypeExpr.applied name argument).isVector then vector (ofTypeExpr argument)
    else named name
  | .named name => if (TypeExpr.named name).isVector then plain vectorName else named name
where
  /-- The target of a type that is no vector. -/
  named (name : QualifiedName) : TargetType :=
    plain ((primitive? name.text).getD (generatedName name.text))

def applyText (template argument : String) : String := template ++ "<" ++ argument ++ ">"

def text : TargetType → String
  | plain name => name
  | vector item => applyText vectorName item.text
  | pointer target => applyText pointerName target.text

/-- The argument of a template application, without the closing bracket. -/
def argumentChars? (template : String) (cs : List Char) : Option (List Char) :=
  match Text.dropStart? (template ++ "<").toList cs with
  | none => none
  | some rest => Text.dropLast? '>' rest

/-- The argument of a template in a written type. -/
def argument? (template type : String) : Option String :=
  (argumentChars? template type.toList).map String.ofList

/-- The item type of a written vector type. -/
def vectorItem? (type : String) : Option String := argument? vectorName type

/-- The type that a written pointer type points to. -/
def pointerTarget? (type : String) : Option String := argument? pointerName type

/-- The argument of a template is shorter than the whole. -/
theorem length_argumentChars? {template : String} {cs rest : List Char}
    (h : argumentChars? template cs = some rest) : rest.length < cs.length := by
  simp only [argumentChars?] at h
  split at h
  · simp at h
  · next after hafter =>
    have hlast := Text.length_dropLast? h
    have := congrArg List.length (Text.append_of_dropStart? hafter)
    simp only [List.length_append] at this
    omega

/-- Reads the written form; every text is one, since whatever is no template application is the
name of a plain type. -/
def ofChars (cs : List Char) : TargetType :=
  match _hvector : argumentChars? vectorName cs with
  | some item => vector (ofChars item)
  | none =>
    match _hpointer : argumentChars? pointerName cs with
    | some target => pointer (ofChars target)
    | none => plain (String.ofList cs)
termination_by cs.length
decreasing_by
  · exact length_argumentChars? _hvector
  · exact length_argumentChars? _hpointer

def ofText (type : String) : TargetType := ofChars type.toList

/-- The named type behind any number of vectors and pointers. -/
def base : TargetType → String
  | plain name => name
  | vector item => item.base
  | pointer target => target.base

/-- Whether a pointer stands between a type and its base. -/
def isIndirect : TargetType → Bool
  | plain _ => false
  | vector item => item.isIndirect
  | pointer _ => true

/-- The value that numbers and truth values start with; other types have none. -/
def zero? : TargetType → Option String
  | plain "bool" => some "false"
  | plain "quint32" | plain "quint64" | plain "double" => some "0"
  | _ => none

/-- The local variable that holds a value of a generated type. -/
def valueVariable (name : String) : String :=
  let bare := (Text.dropStart? initials.toList name.toList).map String.ofList
  camel (bare.getD name) ++ "Value"

/-- A function argument: numbers are passed by value, the rest by constant reference. -/
def argumentText (type : TargetType) (name : String) : String :=
  if type.zero?.isSome then type.text ++ " " ++ name else "const " ++ type.text ++ " &" ++ name

/-- What is appended to a member name to tell it from one of another type: the words of the type
without the initials, and without those that repeat the member name. -/
def disambiguation (type : TargetType) (member : String) : String :=
  let parts := (Text.splitWhere (fun c => !c.isAlphanum) type.text.toList).filter (!·.isEmpty)
  let words := parts.flatMap fun part =>
    capitalRuns (joinWords true ((Text.dropStart? initials.toList part).getD part))
  let folded := member.toList.map Char.toLower
  String.ofList (words.filter fun word => word.map Char.toLower != folded).flatten

end TargetType

end TypeLang
