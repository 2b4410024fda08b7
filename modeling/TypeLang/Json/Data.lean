import TypeLang.Json.Node

/-!
# Data

What a document says. Every string of it is a text, every number is in range, at most 127 lists and
records are inside each other, and the entries of a record are in the order of their keys; of
several with one key the last counts.
-/
namespace TypeLang.Json

/-- The content of a document. -/
inductive Data where
  | null
  | truth (value : Bool)
  | number (value : Number)
  | text (value : String)
  | list (items : List Data)
  | record (entries : List (String × Data))
  deriving Repr, Inhabited

namespace Data

/-- Enters a value into a record under its key, in place of the one that is there. -/
def enter {α : Type} (key : String) (value : α) : List (String × α) → List (String × α)
  | [] => [(key, value)]
  | (other, old) :: rest =>
    if key < other then (key, value) :: (other, old) :: rest
    else if key = other then (key, value) :: rest
    else (other, old) :: enter key value rest

/-- The record of entries in the order they are written in. -/
def ofEntries {α : Type} (entries : List (String × α)) : List (String × α) :=
  entries.foldl (fun record entry => enter entry.1 entry.2 record) []

/-- How many lists and records may be inside each other. -/
def maxDepth : Nat := 127

mutual

/-- The content of a node, with at most `depth` lists and records inside each other. -/
def ofNode? : Nat → Node → Option Data
  | _, .null => some .null
  | _, .truth value => some (.truth value)
  | _, .number numeral => numeral.number?.map .number
  | _, .text quoted => quoted.text?.map .text
  | 0, .list _ => none
  | 0, .record _ => none
  | depth + 1, .list items => (ofItems? depth items).map .list
  | depth + 1, .record entries => (ofRecord? depth entries).map fun es => .record (ofEntries es)

/-- The contents of the items of a list. -/
def ofItems? : Nat → List Node → Option (List Data)
  | _, [] => some []
  | depth, node :: nodes => do
    let data ← ofNode? depth node
    return data :: (← ofItems? depth nodes)

/-- The contents of the entries of a record, as written. -/
def ofRecord? : Nat → List (Quoted × Node) → Option (List (String × Data))
  | _, [] => some []
  | depth, (quoted, node) :: entries => do
    let key ← quoted.text?
    let data ← ofNode? depth node
    return (key, data) :: (← ofRecord? depth entries)

end

def read? (bytes : List UInt8) : Option Data := (Node.read? bytes).bind (ofNode? maxDepth)

/-! ## Writing -/

/-- The blanks in front of a line at a depth, with the line feed before them. -/
def newLine (depth : Nat) : List Char := '\n' :: List.replicate (2 * depth) ' '

mutual

/-- Writes data at a depth, one item or entry a line. -/
def write (depth : Nat) : Data → List Char
  | .null => "null".toList
  | .truth value => (if value then "true" else "false").toList
  | .number value => value.text.toList
  | .text value => Quoted.write value
  | .list [] => "[]".toList
  | .list (item :: items) =>
    '[' :: newLine (depth + 1) ++ write (depth + 1) item ++ writeItems (depth + 1) items
      ++ newLine depth ++ [']']
  | .record [] => "\x7b\x7d".toList
  | .record ((key, value) :: entries) =>
    '\x7b' :: newLine (depth + 1) ++ Quoted.write key ++ ": ".toList ++ write (depth + 1) value
      ++ writeEntries (depth + 1) entries ++ newLine depth ++ ['\x7d']

def writeItems (depth : Nat) : List Data → List Char
  | [] => []
  | item :: items => ',' :: newLine depth ++ write depth item ++ writeItems depth items

def writeEntries (depth : Nat) : List (String × Data) → List Char
  | [] => []
  | (key, value) :: entries =>
    ',' :: newLine depth ++ Quoted.write key ++ ": ".toList ++ write depth value
      ++ writeEntries depth entries

end

end Data

/-- Writes a document anew: records ordered, two blanks a level. -/
def format? (bytes : List UInt8) : Option String :=
  (Data.read? bytes).map fun data => String.ofList (data.write 0 ++ ['\n'])

end TypeLang.Json
