import TypeLang.Text.Split

/-!
# Splitting and joining

Splitting a text at every character of a kind is the library's `List.splitOnP`, so its laws hold:
splitting is undone by joining, and a separator splits what stands before it and what stands behind
it apart.
-/
namespace TypeLang.Text

variable {p : Char → Bool} {c : Char} {cs : List Char}

/-- Splitting is the splitting of the library. -/
theorem splitWhere_eq_splitOnP (p : Char → Bool) (cs : List Char) :
    splitWhere p cs = cs.splitOnP p := by
  induction cs with
  | nil => rfl
  | cons c cs ih =>
    rw [splitWhere_cons, List.splitOnP_cons_eq_if_modifyHead, ih]
    cases hpieces : cs.splitOnP p with
    | nil => exact absurd hpieces (List.splitOnP_ne_nil p cs)
    | cons piece rest => rfl

theorem splitWhere_append_cons (hc : p c) (xs ys : List Char) :
    splitWhere p (xs ++ c :: ys) = splitWhere p xs ++ splitWhere p ys := by
  simp only [splitWhere_eq_splitOnP, List.splitOnP_append_cons xs ys hc]

theorem splitWhere_of_forall (h : ∀ c ∈ cs, p c = false) : splitWhere p cs = [cs] := by
  rw [splitWhere_eq_splitOnP, List.splitOnP_eq_singleton h]

/-- There is one more piece than there are separators. -/
theorem length_splitWhere (p : Char → Bool) (cs : List Char) :
    (splitWhere p cs).length = cs.countP p + 1 := by
  induction cs with
  | nil => rfl
  | cons c cs ih =>
    rw [splitWhere_cons, List.countP_cons]
    split
    · rw [List.length_cons, ih]
    · split
      · next hnil => exact absurd hnil (splitWhere_ne_nil p cs)
      · next piece rest hsplit =>
        rw [hsplit, List.length_cons] at ih
        rw [List.length_cons, ih, Nat.add_zero]

theorem splitWhere_eq_splitOn (mark : Char) (cs : List Char) :
    splitWhere (· == mark) cs = cs.splitOn mark := splitWhere_eq_splitOnP _ cs

/-- Joining the pieces with the separator gives the text back. -/
theorem joinWith_splitWhere (mark : Char) (cs : List Char) :
    joinWith [mark] (splitWhere (· == mark) cs) = cs := by
  rw [splitWhere_eq_splitOn, joinWith, List.intercalate_splitOn]

end TypeLang.Text
