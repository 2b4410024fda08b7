import TypeLang.Crc32
import TypeLang.Schema.Parameter
import TypeLang.Text.Utf8

/-!
# Definitions

A definition is `name#id parameters = Type;`, a constructor of its result type or a method that
returns it. Without an id it gets the checksum of its own text. Template lines, which declare type
variables in braces, keep their name, id and result; their parameters are not modelled.
-/
namespace TypeLang

open Text

/-- Which half of a schema a definition stands in. -/
inductive Category where
  | types
  | functions
  deriving DecidableEq, Repr, Inhabited

/-- A constructor or a method of a schema. -/
structure Definition where
  name : QualifiedName
  id : UInt32
  /-- The parameters in wire order. -/
  parameters : List Parameter
  result : TypeExpr
  category : Category
  /-- Whether the line declares type variables. -/
  template : Bool
  /-- The schema text this was read from. -/
  source : Option String
  deriving DecidableEq, Repr, Inhabited

namespace Definition

/-- The written form, with the id made explicit. -/
def text (d : Definition) : String :=
  d.name.text ++ "#" ++ hexWord d.id
    ++ String.join (d.parameters.map fun p => " " ++ p.text)
    ++ " = " ++ d.result.text ++ ";"

/-- The words that the id of an unnumbered definition is derived from: braces and opening brackets
count as blanks, closing brackets as nothing. -/
def idWords (cs : List Char) : List (List Char) :=
  words ((cs.filter (· != '>')).map fun c => if c = '\x7b' ∨ c = '\x7d' ∨ c = '<' then ' ' else c)

/-- The id of an unnumbered definition: the checksum of its words with one space between them. -/
def derivedId (cs : List Char) : UInt32 :=
  Crc32.checksum (Utf8.encode (String.ofList (joinWith [' '] (idWords cs))))

/-- Reads an explicit id: the hexadecimal digits in front; what follows them is an annotation. -/
def readId (cs : List Char) : Except DefinitionError UInt32 :=
  (readWord 16 ((trim cs).takeWhile isHexDigit)).mapError .invalidId

/-- Reads parameter tokens from the left; `words` are the flags words declared so far. A gate
must refer to one of these. -/
def readParameters (words : List String) :
    List (List Char) → Except DefinitionError (List Parameter)
  | [] => .ok []
  | token :: tokens =>
    match Parameter.read token with
    | .error cause => .error (.parameter cause)
    | .ok p =>
      match p.type with
      | .flags => do return p :: (← readParameters (words ++ [p.name]) tokens)
      | .value _ (some gate) =>
        if gate.word ∈ words then do return p :: (← readParameters words tokens)
        else .error (.parameter (.undeclaredWord gate.word))
      | .value _ none => do return p :: (← readParameters words tokens)

/-- Reads a result type. On a template line only the first word names the type. -/
def readResult (template : Bool) (cs : List Char) : Except DefinitionError TypeExpr :=
  let type := if template then (words cs).headD [] else cs
  if type.isEmpty then .error .missingType
  else (TypeExpr.read type).mapError fun _ => .missingType

/-- The first word of a trimmed text, and the rest. -/
def cutHead (cs : List Char) : List Char × List Char := (cutWhere? isBlank cs).getD (cs, [])

/-- A name, and what follows its first number sign. -/
def cutId (cs : List Char) : List Char × Option (List Char) :=
  match cut? '#' cs with
  | none => (cs, none)
  | some (name, id) => (name, some id)

/-- The text without surrounding blanks and closing semicolons. -/
def body (cs : List Char) : List Char := trim (dropEndWhile (· == ';') (trim cs))

/-- Reads one definition. Of several faults the result type's is reported first, then the name's,
the id's and the parameters'. -/
def read (cs : List Char) : Except DefinitionError Definition := do
  let cs := body cs
  if cs.isEmpty then throw .empty
  let some (left, right) := cut? '=' cs | throw .missingType
  let left := trim left
  let right := trim right
  let template := has '\x7b' left
  let result ← readResult template right
  let (head, rest) := cutHead left
  let (fullName, id?) := cutId head
  let some name := QualifiedName.read? fullName | throw .missingName
  let id ← match id? with
    | some id => readId id
    | none => pure (derivedId (fullName ++ ' ' :: rest ++ ' ' :: '=' :: ' ' :: right))
  let parameters ← if template then pure [] else readParameters [] (words rest)
  return { name, id, parameters, result, category := .types, template, source := none }

end Definition

end TypeLang
