import TypeLang.Text.Integer

/-!
# Schema errors

Why a parameter, a definition or a whole schema is refused, and the wording of each cause.
-/
namespace TypeLang

/-- Why a parameter or its type is refused. -/
inductive ParameterError where
  /-- A name or a type is missing. -/
  | empty
  /-- A gate is not of the form `word.bit?type` with a bit below 32. -/
  | malformedGate
  /-- A gate names a flags word that is not declared before it. -/
  | undeclaredWord (word : String)
  /-- An argument in angle brackets is not closed, or refers to a type variable. -/
  | malformedArgument
  /-- A gate stands where the dialect has none. -/
  | unexpectedGate
  /-- A parameter has no colon. -/
  | missingColon
  deriving DecidableEq, Repr

def ParameterError.message : ParameterError → String
  | .empty => "empty token"
  | .malformedGate => "invalid flag expression"
  | .undeclaredWord word => "flag refers to undeclared field `" ++ word ++ "`"
  | .malformedArgument => "invalid generic argument (unclosed `<`)"
  | .unexpectedGate => "conditional fields are not supported in this dialect"
  | .missingColon => "parameter without `:type` is not supported"

/-- Why a definition is refused. -/
inductive DefinitionError where
  | empty
  | missingType
  | missingName
  | invalidId (cause : Text.IntegerError)
  /-- A numeric id outside the signed and the unsigned 32-bit range. -/
  | idOutOfRange (value : Int)
  | parameter (cause : ParameterError)
  /-- The text ended before the closing semicolon. -/
  | unterminated
  deriving DecidableEq, Repr

def DefinitionError.message : DefinitionError → String
  | .empty => "empty definition"
  | .missingType => "missing `= Type`"
  | .missingName => "missing or malformed name"
  | .invalidId cause => "invalid constructor ID: " ++ cause.message
  | .idOutOfRange value => "constructor ID " ++ toString value ++ " does not fit 32 bits"
  | .parameter cause => "invalid parameter: " ++ cause.message
  | .unterminated => "definition is not terminated with `;`"

/-- A definition error with its place in a schema text. -/
structure LineError where
  /-- The line the definition starts on, counted from one. -/
  line : Nat
  /-- The text of the definition. -/
  content : String
  cause : DefinitionError
  deriving DecidableEq, Repr

def LineError.message (e : LineError) : String :=
  "line " ++ toString e.line ++ ": " ++ e.cause.message ++ " (`" ++ e.content ++ "`)"

/-- Why a whole schema is refused. -/
inductive SchemaError where
  | line (error : LineError)
  /-- The document is no JSON, or not of the shape of a schema. -/
  | document
  /-- An entry of the document is no definition. -/
  | entry (name : String) (cause : DefinitionError)
  /-- Two ids of the document are spelled in different radices. -/
  | mixedIds (first second : String)
  deriving DecidableEq, Repr

def SchemaError.message : SchemaError → String
  | .line error => "TL syntax error at " ++ error.message
  | .document => "JSON schema error: the document is not a schema"
  | .entry name cause => "invalid schema entry `" ++ name ++ "`: " ++ cause.message
  | .mixedIds first second =>
    "ids of `" ++ first ++ "` and `" ++ second ++ "` use different spellings (hex vs. decimal)"

end TypeLang
