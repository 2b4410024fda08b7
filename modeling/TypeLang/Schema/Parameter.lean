import TypeLang.Schema.TypeExpr

/-!
# Parameters

A parameter is `name:type`. Its type is `#` for a flags word, else a type expression, which may be
gated by one bit of a flags word as in `flags.3?string`.
-/
namespace TypeLang

open Text

/-- The condition that a bit of a flags word is set. -/
structure Gate where
  /-- The parameter that holds the word. -/
  word : String
  bit : Fin 32
  deriving DecidableEq, Repr, Inhabited

/-- What a parameter holds. -/
inductive ParameterType where
  | flags
  | value (type : TypeExpr) (gate : Option Gate)
  deriving DecidableEq, Repr, Inhabited

namespace ParameterType

/-- The gate of a gated value. -/
def gate? : ParameterType → Option Gate
  | flags => none
  | value _ gate => gate

def text : ParameterType → String
  | flags => "#"
  | value type none => type.text
  | value type (some gate) => gate.word ++ "." ++ toString gate.bit.val ++ "?" ++ type.text

/-- Reads what stands before the question mark: the word up to the first dot, then the bit. -/
def readGate (cs : List Char) : Except ParameterError Gate :=
  match cut? '.' cs with
  | none => .error .malformedGate
  | some (word, bit) =>
    if word.isEmpty then .error .malformedGate
    else match readUnsigned 10 maxWord bit with
      | .error _ => .error .malformedGate
      | .ok n =>
        if h : n < 32 then .ok ⟨String.ofList word, ⟨n, h⟩⟩ else .error .malformedGate

/-- Reads a parameter type; everything before the first question mark is the gate. -/
def read (cs : List Char) : Except ParameterError ParameterType :=
  if cs = ['#'] then .ok flags
  else match cut? '?' cs with
    | none => (TypeExpr.read cs).map (value · none)
    | some (gate, type) => do
      let gate ← readGate gate
      return value (← TypeExpr.read type) (some gate)

/-- Reads a parameter type in a dialect without gates. -/
def readUngated (cs : List Char) : Except ParameterError ParameterType :=
  if has '?' cs then .error .unexpectedGate else read cs

end ParameterType

/-- A named parameter. -/
structure Parameter where
  name : String
  type : ParameterType
  deriving DecidableEq, Repr, Inhabited

namespace Parameter

def text (p : Parameter) : String := p.name ++ ":" ++ p.type.text

/-- Reads `name:type`, cut at the first colon. -/
def read (cs : List Char) : Except ParameterError Parameter :=
  match cut? ':' cs with
  | none => .error .missingColon
  | some (name, type) =>
    if name.isEmpty || type.isEmpty then .error .empty
    else (ParameterType.read type).map (⟨String.ofList name, ·⟩)

end Parameter

end TypeLang
