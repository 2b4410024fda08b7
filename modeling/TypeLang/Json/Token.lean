import TypeLang.Json.Numeral
import TypeLang.Json.Quoted

/-!
# Tokens

A document is scanned byte by byte into brackets, separators and scalars. The scanner is a machine
with one state; nothing is lost when its input is cut in two.
-/
namespace TypeLang.Json

open Text

/-- The smallest parts of a document. -/
inductive Token where
  | listOpen
  | listClose
  | recordOpen
  | recordClose
  | comma
  | colon
  | null
  | truth (value : Bool)
  | number (numeral : Numeral)
  | text (quoted : Quoted)
  deriving DecidableEq, Repr, Inhabited

namespace Token

/-- What the scanner is in the middle of. What it has read of a token is kept last first. -/
inductive State where
  | between
  /-- A keyword, and what is still owed of it. -/
  | keyword (token : Token) (owed : List Char)
  | numeral (read : List Char)
  | quoted (read : Quoted)
  /-- Behind a backslash. -/
  | escaped (read : Quoted)
  /-- In a code unit with this many digits still owed. -/
  | code (read : Quoted) (owed : Nat) (value : Nat)
  deriving DecidableEq, Repr, Inhabited

/-- The tokens scanned, last first, and the state. -/
structure Scan where
  tokens : List Token
  state : State
  deriving DecidableEq, Repr, Inhabited

namespace Scan

def isBlank (c : Char) : Bool := c == ' ' || c == '\n' || c == '\r' || c == '\t'

def isNumeralPart (c : Char) : Bool := c.isDigit || "+-.eE".toList.contains c

/-- Takes a character in front of which no token is open. -/
def start (tokens : List Token) (c : Char) : Option Scan :=
  if isBlank c then some ⟨tokens, .between⟩
  else if isNumeralPart c then some ⟨tokens, .numeral [c]⟩
  else match c with
    | '[' => some ⟨.listOpen :: tokens, .between⟩
    | ']' => some ⟨.listClose :: tokens, .between⟩
    | '\x7b' => some ⟨.recordOpen :: tokens, .between⟩
    | '\x7d' => some ⟨.recordClose :: tokens, .between⟩
    | ',' => some ⟨.comma :: tokens, .between⟩
    | ':' => some ⟨.colon :: tokens, .between⟩
    | 'n' => some ⟨tokens, .keyword .null "ull".toList⟩
    | 't' => some ⟨tokens, .keyword (.truth true) "rue".toList⟩
    | 'f' => some ⟨tokens, .keyword (.truth false) "alse".toList⟩
    | '"' => some ⟨tokens, .quoted []⟩
    | _ => none

def closeNumeral (tokens : List Token) (read : List Char) : Option (List Token) :=
  (Numeral.read? read.reverse).map fun numeral => .number numeral :: tokens

/-- Takes the next byte. Bytes that are no ASCII characters occur inside quotes only. -/
def step (scan : Scan) (b : UInt8) : Option Scan :=
  let c := Char.ofNat b.toNat
  match scan.state with
  | .between => start scan.tokens c
  | .keyword token owed =>
    match owed with
    | [] => none
    | [last] => if c = last then some ⟨token :: scan.tokens, .between⟩ else none
    | next :: rest => if c = next then some ⟨scan.tokens, .keyword token rest⟩ else none
  | .numeral read =>
    if isNumeralPart c then some ⟨scan.tokens, .numeral (c :: read)⟩
    else (closeNumeral scan.tokens read).bind fun tokens => start tokens c
  | .quoted read =>
    if c = '"' then some ⟨.text read.reverse :: scan.tokens, .between⟩
    else if c = '\\' then some ⟨scan.tokens, .escaped read⟩
    else if b < 0x20 then none
    else some ⟨scan.tokens, .quoted (.byte b :: read)⟩
  | .escaped read =>
    if c = 'u' then some ⟨scan.tokens, .code read 4 0⟩
    else (Quoted.ofLetter? c).map fun d =>
      ⟨scan.tokens, .quoted (.byte (.ofNat d.toNat) :: read)⟩
  | .code read owed value =>
    (digitValue? 16 c).map fun digit =>
      let next := 16 * value + digit
      if owed ≤ 1 then ⟨scan.tokens, .quoted (.code next :: read)⟩
      else ⟨scan.tokens, .code read (owed - 1) next⟩

/-- The tokens at the end of the input, when none is left open. -/
def finish (scan : Scan) : Option (List Token) :=
  match scan.state with
  | .between => some scan.tokens.reverse
  | .numeral read => (closeNumeral scan.tokens read).map List.reverse
  | _ => none

end Scan

def ofBytes? (bytes : List UInt8) : Option (List Token) :=
  (bytes.foldlM Scan.step ⟨[], .between⟩).bind Scan.finish

end Token

end TypeLang.Json
