import TypeLang.Json.Token

/-!
# Documents

The tree of a document as it is written: strings may be no text, numbers may be out of range,
records keep every entry, and nesting has no limit. The tokens are read by a machine with a stack
of the lists and records that are open.
-/
namespace TypeLang.Json

/-- A document as written. -/
inductive Node where
  | null
  | truth (value : Bool)
  | number (numeral : Numeral)
  | text (quoted : Quoted)
  | list (items : List Node)
  | record (entries : List (Quoted × Node))
  deriving Repr, Inhabited

namespace Node

/-- A list or a record around the node being read, with what it holds so far, last first. -/
inductive Frame where
  | list (items : List Node)
  | record (entries : List (Quoted × Node)) (key : Quoted)
  deriving Repr, Inhabited

/-- What comes next, inside the open lists and records, innermost first. -/
inductive Place where
  | node (stack : List Frame)
  /-- Right behind the opening bracket of a list. -/
  | firstItem (stack : List Frame)
  | afterItem (items : List Node) (stack : List Frame)
  /-- Right behind the opening brace of a record. -/
  | firstKey (stack : List Frame)
  | nextKey (entries : List (Quoted × Node)) (stack : List Frame)
  | colon (entries : List (Quoted × Node)) (key : Quoted) (stack : List Frame)
  | afterEntry (entries : List (Quoted × Node)) (stack : List Frame)
  | done (root : Node)
  deriving Repr, Inhabited

namespace Place

/-- Puts a node that has been read where it belongs. -/
def put (node : Node) : List Frame → Place
  | [] => .done node
  | .list items :: stack => .afterItem (node :: items) stack
  | .record entries key :: stack => .afterEntry ((key, node) :: entries) stack

/-- Takes the first token of a node. -/
def beginNode (stack : List Frame) : Token → Option Place
  | .null => some (put .null stack)
  | .truth value => some (put (.truth value) stack)
  | .number numeral => some (put (.number numeral) stack)
  | .text quoted => some (put (.text quoted) stack)
  | .listOpen => some (.firstItem stack)
  | .recordOpen => some (.firstKey stack)
  | _ => none

/-- Takes the next token. -/
def step : Place → Token → Option Place
  | .node stack, token => beginNode stack token
  | .firstItem stack, .listClose => some (put (.list []) stack)
  | .firstItem stack, token => beginNode (.list [] :: stack) token
  | .afterItem items stack, .comma => some (.node (.list items :: stack))
  | .afterItem items stack, .listClose => some (put (.list items.reverse) stack)
  | .firstKey stack, .recordClose => some (put (.record []) stack)
  | .firstKey stack, .text key => some (.colon [] key stack)
  | .nextKey entries stack, .text key => some (.colon entries key stack)
  | .colon entries key stack, .colon => some (.node (.record entries key :: stack))
  | .afterEntry entries stack, .comma => some (.nextKey entries stack)
  | .afterEntry entries stack, .recordClose => some (put (.record entries.reverse) stack)
  | _, _ => none

end Place

def ofTokens? (tokens : List Token) : Option Node :=
  match tokens.foldlM Place.step (.node []) with
  | some (.done node) => some node
  | _ => none

def read? (bytes : List UInt8) : Option Node := (Token.ofBytes? bytes).bind ofTokens?

end Node

end TypeLang.Json
