import TypeLang.Text.Hex

/-!
# Texts on one line

Texts without line feeds. Whatever is put together from such texts, or cut out of one, is such a
text, and so are numerals.
-/
namespace TypeLang

/-- A text on one line. -/
structure Unbroken (s : String) : Prop where
  newline_notMem : '\n' ∉ s.toList

/-- A text is on one line exactly when it has no line feed. -/
theorem unbroken_iff {s : String} : Unbroken s ↔ '\n' ∉ s.toList :=
  ⟨Unbroken.newline_notMem, Unbroken.mk⟩

instance (s : String) : Decidable (Unbroken s) := decidable_of_iff _ unbroken_iff.symm

variable {s t : String} {cs ds : List Char}

@[simp] theorem unbroken_append : Unbroken (s ++ t) ↔ Unbroken s ∧ Unbroken t := by
  simp [unbroken_iff, String.toList_append, not_or]

@[simp] theorem unbroken_ofList : Unbroken (String.ofList cs) ↔ '\n' ∉ cs := by
  simp [unbroken_iff]

theorem newline_notMem_of_subset (hds : '\n' ∉ ds) (h : cs ⊆ ds) : '\n' ∉ cs := fun hc => hds (h hc)

@[simp] theorem unbroken_repr (n : Nat) : Unbroken n.repr := by
  rw [unbroken_iff, Nat.toList_repr]
  intro h
  simpa using Nat.isDigit_of_mem_toDigits (by decide) (by decide) h

/-- Pieces on one line with a separator on one line are on one line. -/
theorem unbroken_intercalate {separator : String} (hseparator : Unbroken separator)
    {pieces : List String} (h : ∀ piece ∈ pieces, Unbroken piece) :
    Unbroken (separator.intercalate pieces) := by
  induction pieces with
  | nil => simp [unbroken_iff]
  | cons first rest ih =>
    have hfirst := h first List.mem_cons_self
    have hrest := ih fun piece hpiece => h piece (List.mem_cons_of_mem _ hpiece)
    by_cases hempty : rest = []
    · rw [hempty, String.intercalate_singleton]
      exact hfirst
    · rw [String.intercalate_cons_of_ne_nil hempty]
      simp [hfirst, hseparator, hrest]

namespace Text

theorem hexDigit_ne_newline {n : Nat} (h : n < 16) : hexDigit n ≠ '\n' := by
  revert n
  decide

@[simp] theorem unbroken_hexConstant (id : UInt32) : Unbroken (hexConstant id) := by
  have hdigits : ∀ count n, '\n' ∉ hexDigits count n := by
    intro count
    induction count with
    | zero => simp [hexDigits]
    | succ count ih =>
      intro n
      have hlast := hexDigit_ne_newline (Nat.mod_lt n (by decide : 0 < 16))
      simp [hexDigits, ih, Ne.symm hlast]
  simp [hexConstant, hexWord, hdigits, unbroken_iff]

end Text

end TypeLang
