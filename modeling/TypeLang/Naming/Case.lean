/-!
# Letter case

Turning schema names into identifiers. Only ASCII letters change case; dots and underscores are
word boundaries and disappear.
-/
namespace TypeLang.Naming

/-- The characters between words of a schema name. -/
def isBoundary (c : Char) : Bool := c == '_' || c == '.'

/-- Drops the boundaries and capitalises the letter after each; `upper` says whether the next
letter is to be capitalised. -/
def joinWords : Bool → List Char → List Char
  | _, [] => []
  | upper, c :: cs =>
    if isBoundary c then joinWords true cs
    else (if upper then c.toUpper else c) :: joinWords false cs

/-- Changes the first character. -/
def mapFirst (f : Char → Char) (s : String) : String :=
  match s.toList with
  | [] => s
  | c :: cs => String.ofList (f c :: cs)

/-- Capitalises the first letter and leaves the others alone. -/
def upperFirst (s : String) : String := mapFirst Char.toUpper s

/-- `auth.sendCode` to `AuthSendCode`. Capitals already there stay. -/
def pascal (name : String) : String := String.ofList (joinWords true name.toList)

/-- `auth.sendCode` to `authSendCode`. -/
def camel (name : String) : String := mapFirst Char.toLower (pascal name)

/-- The pieces of a word list that each start at a capital; the first piece starts anywhere. -/
def capitalRuns (cs : List Char) : List (List Char) :=
  cs.foldr (fun c runs =>
    match runs with
    | (d :: run) :: rest => if d.isUpper then [c] :: runs else (c :: d :: run) :: rest
    | _ => [c] :: runs) []

theorem capitalRuns_cons (c : Char) (cs : List Char) :
    capitalRuns (c :: cs) = match capitalRuns cs with
      | (d :: run) :: rest => if d.isUpper then [c] :: capitalRuns cs else (c :: d :: run) :: rest
      | _ => [c] :: capitalRuns cs := rfl

end TypeLang.Naming
