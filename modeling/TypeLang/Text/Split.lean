import TypeLang.Text.Blank

/-!
# Cutting text at characters

Cutting at the first, the last or every character of a kind, and into blank-separated words. The
separators are dropped; `splitWhere` keeps empty pieces, `words` does not.
-/
namespace TypeLang.Text

/-- The pieces between the characters that satisfy `p`; one more piece than there are of these. -/
def splitWhere (p : Char → Bool) (cs : List Char) : List (List Char) :=
  cs.foldr (fun c pieces =>
    if p c then [] :: pieces
    else match pieces with
      | [] => [[c]]
      | piece :: rest => (c :: piece) :: rest) [[]]

@[simp] theorem splitWhere_nil (p : Char → Bool) : splitWhere p [] = [[]] := rfl

theorem splitWhere_cons (p : Char → Bool) (c : Char) (cs : List Char) :
    splitWhere p (c :: cs) = if p c then [] :: splitWhere p cs
      else match splitWhere p cs with
        | [] => [[c]]
        | piece :: rest => (c :: piece) :: rest := rfl

theorem splitWhere_ne_nil (p : Char → Bool) (cs : List Char) : splitWhere p cs ≠ [] := by
  cases cs with
  | nil => simp [splitWhere]
  | cons c cs =>
    simp only [splitWhere, List.foldr_cons]
    split
    · simp
    · split <;> simp

/-- The words of a text: its maximal runs of characters that are not blank. -/
def words (cs : List Char) : List (List Char) :=
  (splitWhere isBlank cs).filter fun word => !word.isEmpty

/-- What stands before and after the first character that satisfies `p`. -/
def cutWhere? (p : Char → Bool) : List Char → Option (List Char × List Char)
  | [] => none
  | c :: cs => if p c then some ([], cs) else (cutWhere? p cs).map fun cut => (c :: cut.1, cut.2)

/-- What stands before and after the first `mark`. -/
def cut? (mark : Char) (cs : List Char) : Option (List Char × List Char) :=
  cutWhere? (· == mark) cs

/-- A cut takes one character out. -/
theorem length_cutWhere? {p : Char → Bool} {cs before after : List Char}
    (h : cutWhere? p cs = some (before, after)) :
    before.length + after.length + 1 = cs.length := by
  induction cs generalizing before after with
  | nil => simp [cutWhere?] at h
  | cons c cs ih =>
    simp only [cutWhere?] at h
    split at h
    · simp_all
    · simp only [Option.map_eq_some_iff, Prod.mk.injEq, Prod.exists] at h
      obtain ⟨b, a, hcut, rfl, rfl⟩ := h
      have := ih hcut
      simp only [List.length_cons]
      omega

/-- The text behind `start`, when it begins with that. -/
def dropStart? (start cs : List Char) : Option (List Char) := start.isPrefixOf? cs

@[simp] theorem dropStart?_nil (cs : List Char) : dropStart? [] cs = some cs := rfl

@[simp] theorem dropStart?_cons_nil (c : Char) (start : List Char) :
    dropStart? (c :: start) [] = none := rfl

@[simp] theorem dropStart?_cons_cons (c d : Char) (start cs : List Char) :
    dropStart? (c :: start) (d :: cs) = if c == d then dropStart? start cs else none := rfl

/-- A start that can be dropped is in front of the rest. -/
theorem append_of_dropStart? {start cs rest : List Char} (h : dropStart? start cs = some rest) :
    start ++ rest = cs := by
  induction start generalizing cs with
  | nil => simp_all
  | cons c start ih =>
    cases cs with
    | nil => simp at h
    | cons d cs =>
      rw [dropStart?_cons_cons] at h
      split at h
      · next hcd => rw [List.cons_append, ih h, eq_of_beq hcd]
      · simp at h

@[simp] theorem dropStart?_append (start rest : List Char) :
    dropStart? start (start ++ rest) = some rest := by
  induction start with
  | nil => rfl
  | cons c start ih => simp [ih]

/-- The text without its last character, when that character is `mark`. -/
def dropLast? (mark : Char) (cs : List Char) : Option (List Char) :=
  if cs.getLast? = some mark then some cs.dropLast else none

theorem length_dropLast? {mark : Char} {cs rest : List Char} (h : dropLast? mark cs = some rest) :
    rest.length < cs.length := by
  simp only [dropLast?] at h
  split at h
  · next hlast =>
    cases cs with
    | nil => simp at hlast
    | cons c cs => simp_all; subst h; simp
  · simp at h

def has (mark : Char) (cs : List Char) : Bool := cs.contains mark

/-- Joins pieces with one separator between neighbours. -/
def joinWith (separator : List Char) (pieces : List (List Char)) : List Char :=
  separator.intercalate pieces

end TypeLang.Text
