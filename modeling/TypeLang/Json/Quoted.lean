import TypeLang.Text.Hex
import TypeLang.Text.Utf8

/-!
# Quoted text

What stands between the quotes of a string. As written it is a sequence of bytes and of code units
given in hexadecimal, which need not make a text; `Quoted.text?` tells the text when they do.
Writing escapes the quote, the backslash and the control characters, and nothing else.
-/
namespace TypeLang.Json

open Text

/-- A piece of a written string: a byte, or a 16-bit code unit. -/
inductive QuotedUnit where
  | byte (b : UInt8)
  | code (n : Nat)
  deriving DecidableEq, Repr, Inhabited

/-- A string as written. -/
abbrev Quoted := List QuotedUnit

namespace Quoted

/-- Whether a code unit is the first half of a pair. -/
def isLeading (n : Nat) : Bool := 0xD800 ≤ n && n ≤ 0xDBFF

/-- Whether a code unit is the second half of a pair. -/
def isTrailing (n : Nat) : Bool := 0xDC00 ≤ n && n ≤ 0xDFFF

/-- The character of a pair. -/
def pairChar (leading trailing : Nat) : Char :=
  Char.ofNat (0x10000 + (leading - 0xD800) * 0x400 + (trailing - 0xDC00))

/-- The bytes of a written string; a half without its partner has none. -/
def bytes? : Quoted → Option (List UInt8)
  | [] => some []
  | .byte b :: units => (bytes? units).map (b :: ·)
  | .code n :: units =>
    if isTrailing n then none
    else if isLeading n then
      match units with
      | .code m :: rest =>
        if isTrailing m then (bytes? rest).map (String.utf8EncodeChar (pairChar n m) ++ ·)
        else none
      | _ => none
    else (bytes? units).map (String.utf8EncodeChar (Char.ofNat n) ++ ·)

/-- The text of a written string. -/
def text? (units : Quoted) : Option String := (bytes? units).bind Utf8.decode?

/-- The characters with an escape of one letter, and the letters. -/
def letters : List (Char × Char) :=
  [('"', '"'), ('\\', '\\'), ('\x08', 'b'), ('\x0c', 'f'), ('\n', 'n'), ('\r', 'r'), ('\t', 't')]

/-- The character that a letter stands for behind a backslash. A slash stands for itself. -/
def ofLetter? (letter : Char) : Option Char :=
  if letter = '/' then some '/' else (letters.find? (·.2 == letter)).map (·.1)

/-- Writes a character inside quotes. -/
def escape (c : Char) : List Char :=
  match letters.lookup c with
  | some letter => ['\\', letter]
  | none => if c.toNat < 0x20 then '\\' :: 'u' :: hexDigits 4 c.toNat else [c]

def write (s : String) : List Char := '"' :: s.toList.flatMap escape ++ ['"']

end Quoted

end TypeLang.Json
