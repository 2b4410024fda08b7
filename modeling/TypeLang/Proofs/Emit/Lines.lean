import TypeLang.Proofs.Emit.Punctuated
import TypeLang.Proofs.Text.Indentation

/-!
# Emitted text

The text of code has the lines of the code, and at any indentation none of them is a marker line of
a section: marker lines end with a name, and emitted lines with punctuation.
-/
namespace TypeLang

open Text

/-- A line that is blank or ends with punctuation. -/
def IsCodeLine (l : List Char) : Prop :=
  trim l = [] ∨ ∃ c ∈ punctuation, (trim l).getLast? = some c

theorem isCodeLine_newline : IsCodeLine ['\n'] := .inl (by decide)

theorem isBlank_of_mem_punctuation : ∀ c ∈ punctuation, isBlank c = false := by
  have hall : punctuation.all fun c => !isBlank c := by decide
  simpa only [List.all_eq_true, Bool.not_eq_true'] using hall

/-- Text that ends with punctuation is a line of code between any blanks. -/
theorem isCodeLine_of_punctuated {text : String} (h : Punctuated text) {front : List Char}
    (hfront : ∀ c ∈ front, isBlank c) : IsCodeLine (front ++ (text.toList ++ ['\n'])) := by
  have hlast := h.last
  cases hc : text.toList.getLast? with
  | none => simp [hc] at hlast
  | some c =>
    simp only [hc, Option.any_some, decide_eq_true_eq] at hlast
    refine .inr ⟨c, hlast, ?_⟩
    rw [trim_blank_append hfront, trim_append_newline]
    exact getLast?_trim hc (isBlank_of_mem_punctuation c hlast)

namespace Section

theorem getLast?_markerName (s : Section) : s.markerName.toList.getLast? = some 's' := by
  cases s <;> decide +kernel

theorem getLast?_beginLine (s : Section) : s.marker.beginLine.toList.getLast? = some 's' := by
  cases h : s.ownership <;>
    simp [Marker.beginLine, h, marker, List.getLast?_cons, getLast?_markerName]

theorem getLast?_endLine (s : Section) : s.marker.endLine.toList.getLast? = some 's' := by
  cases h : s.ownership <;>
    simp [Marker.endLine, h, marker, List.getLast?_cons, getLast?_markerName]

/-- Lines of code are no marker lines. -/
theorem not_isMarkerLine {l : List Char} (h : IsCodeLine l) (s : Section) :
    Region.isMarkerLine s.marker.beginLine l = false ∧
      Region.isMarkerLine s.marker.endLine l = false := by
  have hlast : (trim l).getLast? ≠ some 's' := by
    rcases h with h | ⟨c, hc, h⟩
    · simp [h]
    · rw [h]
      rintro ⟨⟩
      revert hc
      decide
  constructor
  · rw [Region.isMarkerLine, beq_eq_false_iff_ne]
    exact fun heq => hlast (heq ▸ getLast?_beginLine s)
  · rw [Region.isMarkerLine, beq_eq_false_iff_ne]
    exact fun heq => hlast (heq ▸ getLast?_endLine s)

end Section

namespace Code

variable {code : Code} {indent : List Char}

/-- The characters in front of a line at a depth. -/
def margin (depth : Nat) : List Char :=
  (List.replicate depth CodeLine.indentation).flatMap String.toList

theorem isBlank_of_mem_margin {depth : Nat} {c : Char} (h : c ∈ margin depth) : c = ' ' := by
  simp only [margin, List.mem_flatMap, List.mem_replicate] at h
  obtain ⟨_, ⟨-, rfl⟩, hc⟩ := h
  have hblanks : CodeLine.indentation.toList = List.replicate 4 ' ' := by decide
  rw [hblanks] at hc
  exact List.eq_of_mem_replicate hc

theorem toList_text_code (depth : Nat) (text : String) :
    (CodeLine.code depth text).text.toList = margin depth ++ (text.toList ++ ['\n']) := by
  simp [CodeLine.text, margin, String.toList_append, String.toList_join]

/-- Every line of punctuated code is a line of code in a text. -/
theorem isLine_of_mem (h : code.IsPunctuated) {line : CodeLine} (hline : line ∈ code) :
    IsLine line.text.toList ∧ IsCodeLine line.text.toList := by
  cases line with
  | blank => exact ⟨⟨[], by simp, rfl⟩, isCodeLine_newline⟩
  | code depth text =>
    have htext := h depth text hline
    have hmargin : '\n' ∉ margin depth := fun hmem => by
      have := isBlank_of_mem_margin hmem
      simp at this
    rw [toList_text_code]
    refine ⟨⟨margin depth ++ text.toList, ?_, by simp⟩, isCodeLine_of_punctuated htext ?_⟩
    · simp [hmargin, htext.unbroken.newline_notMem]
    · intro c hc
      rw [isBlank_of_mem_margin hc]
      decide

/-- The text of code has the lines of the code. -/
theorem inclusiveLines_text (h : code.IsPunctuated) :
    inclusiveLines code.text.toList = code.map fun line => line.text.toList := by
  have hlines : ∀ l ∈ code.map fun line : CodeLine => line.text.toList, IsLine l := by
    simp only [List.forall_mem_map]
    exact fun line hline => (isLine_of_mem h hline).1
  rw [← inclusiveLines_flatten hlines]
  simp [Code.text, String.toList_join, List.flatMap_def, Function.comp_def]

/-- Code that is written at an indentation has lines of code only. -/
theorem of_mem_indentBlock (h : code.IsPunctuated) (hindent : ∀ c ∈ indent, isBlank c)
    (hbreak : '\n' ∉ indent) :
    ∀ l ∈ inclusiveLines (indentBlock indent code.text.toList), IsLine l ∧ IsCodeLine l := by
  have hlines : ∀ l ∈ inclusiveLines code.text.toList, IsLine l ∧ IsCodeLine l := by
    rw [inclusiveLines_text h]
    simp only [List.forall_mem_map]
    exact fun line hline => isLine_of_mem h hline
  rw [inclusiveLines_indentBlock hbreak fun l hl => (hlines l hl).1]
  simp only [List.forall_mem_map]
  intro l hl
  refine ⟨isLine_indentLine hbreak (hlines l hl).1, ?_⟩
  rw [IsCodeLine, trim_indentLine hindent (hlines l hl).1]
  exact (hlines l hl).2

end Code

end TypeLang
