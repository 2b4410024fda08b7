import TypeLang.Text.Blank

/-!
# Lines

A line ends with its line feed; the last one may lack it. `inclusiveLines` keeps the ends, so that
concatenation gives the text back, and `lines` drops them together with one carriage return.
-/
namespace TypeLang.Text

/-- The lines of a text, each with its line feed. -/
def inclusiveLines (cs : List Char) : List (List Char) :=
  cs.foldr (fun c lines =>
    if c = '\n' then [c] :: lines
    else match lines with
      | [] => [[c]]
      | line :: rest => (c :: line) :: rest) []

@[simp] theorem inclusiveLines_nil : inclusiveLines [] = [] := rfl

@[simp] theorem flatten_inclusiveLines (cs : List Char) : (inclusiveLines cs).flatten = cs := by
  induction cs with
  | nil => rfl
  | cons c cs ih =>
    simp only [inclusiveLines, List.foldr_cons] at ih ⊢
    split
    · simpa using ih
    · split
      · next h => rw [h] at ih; simp_all
      · next h => rw [h] at ih; simp_all

/-- A line without its line feed and without the carriage return in front of that line feed. -/
def stripLineEnd (line : List Char) : List Char :=
  match line.reverse with
  | '\n' :: '\r' :: rest => rest.reverse
  | '\n' :: rest => rest.reverse
  | _ => line

def lines (cs : List Char) : List (List Char) := (inclusiveLines cs).map stripLineEnd

/-- The lines up to the first that satisfies `p`, that line, and the lines after it. -/
def cutLines? {α : Type} (p : α → Bool) : List α → Option (List α × α × List α)
  | [] => none
  | line :: rest =>
    if p line then some ([], line, rest)
    else (cutLines? p rest).map fun cut => (line :: cut.1, cut.2)

theorem append_of_cutLines? {α : Type} {p : α → Bool} {lines before after : List α} {line : α}
    (h : cutLines? p lines = some (before, line, after)) : before ++ line :: after = lines := by
  induction lines generalizing before with
  | nil => simp [cutLines?] at h
  | cons first rest ih =>
    simp only [cutLines?] at h
    split at h
    · simp_all
    · simp only [Option.map_eq_some_iff, Prod.mk.injEq, Prod.exists] at h
      obtain ⟨b, l, a, hcut, rfl, rfl, rfl⟩ := h
      rw [List.cons_append, ih hcut]

theorem length_cutLines? {α : Type} {p : α → Bool} {lines before after : List α} {line : α}
    (h : cutLines? p lines = some (before, line, after)) : after.length < lines.length := by
  rw [← append_of_cutLines? h]
  simp only [List.length_append, List.length_cons]
  omega

def endsLine (cs : List Char) : Bool := cs.getLast? == some '\n'

end TypeLang.Text
