import TypeLang.Proofs.Text.Lines
import TypeLang.Proofs.Text.Trimming
import TypeLang.Text.Indentation

/-!
# Indented blocks

The lines of an indented block are the indented lines of the block, and taking the indentation off
again leaves what each line says. Indentation is blank and on one line, as it is in front of a
marker.
-/
namespace TypeLang.Text

variable {indent line block : List Char}

theorem closeLine_of_isLine {ls : List (List Char)} (h : ∀ l ∈ ls, IsLine l) :
    closeLine ls.flatten = ls.flatten := by
  rcases List.eq_nil_or_concat ls with rfl | ⟨front, last, rfl⟩
  · rfl
  · obtain ⟨body, -, rfl⟩ := h last (by simp)
    simp [closeLine, endsLine]

/-- Every line of a closed text is closed. -/
theorem isLine_of_mem_closeLine (cs : List Char) :
    ∀ l ∈ inclusiveLines (closeLine cs), IsLine l := by
  obtain ⟨ls, tail, rfl, hls, htail⟩ := exists_lines_append cs
  by_cases hne : tail = []
  · subst hne
    rw [List.append_nil, closeLine_of_isLine hls, inclusiveLines_flatten hls]
    exact hls
  · have hopen : endsLine (ls.flatten ++ tail) = false := by
      rw [endsLine, List.getLast?_append_of_ne_nil _ hne, beq_eq_false_iff_ne]
      exact fun hlast => htail (List.mem_of_getLast? hlast)
    have hlast : IsLine (tail ++ ['\n']) := ⟨tail, htail, rfl⟩
    have hclosed : ∀ l ∈ ls ++ [tail ++ ['\n']], IsLine l := by
      simp only [List.forall_mem_append, List.forall_mem_singleton]
      exact ⟨hls, hlast⟩
    have htext : closeLine (ls.flatten ++ tail) = (ls ++ [tail ++ ['\n']]).flatten := by
      simp [closeLine, hopen, hne]
    rw [htext, inclusiveLines_flatten hclosed]
    exact hclosed

theorem endsLine_of_isLine (h : IsLine line) : endsLine line := by
  obtain ⟨body, -, rfl⟩ := h
  simp [endsLine]

/-! ## Lines of an indented block -/

theorem indentLine_of_blank (hline : IsLine line) (h : trim line = []) :
    indentLine indent line = ['\n'] := by
  simp [indentLine, h, endsLine_of_isLine hline]

theorem indentLine_of_not_blank (h : trim line ≠ []) :
    indentLine indent line = indent ++ line := by
  simp [indentLine, h]

theorem isLine_indentLine (hindent : '\n' ∉ indent) (hline : IsLine line) :
    IsLine (indentLine indent line) := by
  by_cases hblank : trim line = []
  · rw [indentLine_of_blank hline hblank]
    exact ⟨[], by simp, rfl⟩
  · rw [indentLine_of_not_blank hblank]
    obtain ⟨body, hbody, rfl⟩ := hline
    exact ⟨indent ++ body, by simp [hindent, hbody], by simp⟩

/-- The lines of an indented block are its lines, indented. -/
theorem inclusiveLines_indentBlock (hindent : '\n' ∉ indent)
    (hblock : ∀ l ∈ inclusiveLines block, IsLine l) :
    inclusiveLines (indentBlock indent block) = (inclusiveLines block).map (indentLine indent) := by
  have hlines : ∀ l ∈ (inclusiveLines block).map (indentLine indent), IsLine l := by
    simp only [List.forall_mem_map]
    exact fun l hl => isLine_indentLine hindent (hblock l hl)
  rw [indentBlock, List.flatMap_def, closeLine_of_isLine hlines, inclusiveLines_flatten hlines]

/-- Indentation does not matter to what a line says. -/
theorem trim_indentLine (hindent : ∀ c ∈ indent, isBlank c) (hline : IsLine line) :
    trim (indentLine indent line) = trim line := by
  by_cases hblank : trim line = []
  · rw [indentLine_of_blank hline hblank, hblank]
    decide
  · rw [indentLine_of_not_blank hblank, trim_blank_append hindent]

/-! ## Taking the indentation off -/

/-- What is left of a line behind some of its characters is a line. -/
theorem isLine_append {front rest : List Char} (hfront : '\n' ∉ front) :
    IsLine (front ++ rest) ↔ IsLine rest := by
  constructor
  · rintro ⟨body, hbody, heq⟩
    rcases List.eq_nil_or_concat rest with rfl | ⟨start, last, rfl⟩
    · have hmem : '\n' ∈ front := by simpa using congrArg ('\n' ∈ ·) heq
      exact absurd hmem hfront
    · rw [List.concat_eq_append, ← List.append_assoc] at heq
      obtain ⟨rfl, hlast⟩ := List.append_inj' heq rfl
      refine ⟨start, fun hmem => hbody (List.mem_append_right _ hmem), ?_⟩
      rw [List.concat_eq_append, hlast]
  · rintro ⟨body, hbody, rfl⟩
    exact ⟨front ++ body, by simp [hfront, hbody], by simp⟩

/-- Only blanks are taken off a line. -/
theorem exists_append_dedentLine (hindent : ∀ c ∈ indent, isBlank c) (hbreak : '\n' ∉ indent)
    (line : List Char) : ∃ front, line = front ++ dedentLine indent line ∧
      (∀ c ∈ front, isBlank c) ∧ '\n' ∉ front := by
  simp only [dedentLine]
  cases hdrop : dropStart? indent line with
  | some rest => exact ⟨indent, (append_of_dropStart? hdrop).symm, hindent, hbreak⟩
  | none =>
    refine ⟨line.takeWhile fun c => c == ' ' || c == '\t', List.takeWhile_append_dropWhile.symm,
      fun c hc => ?_, fun hmem => ?_⟩
    · have hspace := List.mem_takeWhile_imp hc
      simp only [Bool.or_eq_true, beq_iff_eq] at hspace
      rcases hspace with rfl | rfl <;> decide
    · have hspace := List.mem_takeWhile_imp hmem
      simp at hspace

theorem isLine_dedentLine (hindent : ∀ c ∈ indent, isBlank c) (hbreak : '\n' ∉ indent)
    (hline : IsLine line) : IsLine (dedentLine indent line) := by
  obtain ⟨front, heq, -, hfront⟩ := exists_append_dedentLine hindent hbreak line
  rw [heq] at hline
  exact (isLine_append hfront).mp hline

theorem trim_dedentLine (hindent : ∀ c ∈ indent, isBlank c) (hbreak : '\n' ∉ indent)
    (line : List Char) : trim (dedentLine indent line) = trim line := by
  obtain ⟨front, heq, hfront, -⟩ := exists_append_dedentLine hindent hbreak line
  rw [← trim_blank_append hfront, ← heq]

theorem inclusiveLines_dedentBlock (hindent : ∀ c ∈ indent, isBlank c) (hbreak : '\n' ∉ indent)
    (hblock : ∀ l ∈ inclusiveLines block, IsLine l) :
    inclusiveLines (dedentBlock indent block) = (inclusiveLines block).map (dedentLine indent) := by
  rw [dedentBlock, List.flatMap_def, inclusiveLines_flatten]
  simp only [List.forall_mem_map]
  exact fun l hl => isLine_dedentLine hindent hbreak (hblock l hl)

/-- Indenting a block and taking the indentation off again leaves what its lines say. -/
theorem map_trim_lines_dedentBlock (hindent : ∀ c ∈ indent, isBlank c) (hbreak : '\n' ∉ indent)
    (hblock : ∀ l ∈ inclusiveLines block, IsLine l) :
    (lines (dedentBlock indent (indentBlock indent block))).map trim =
      (inclusiveLines block).map trim := by
  have hindented := inclusiveLines_indentBlock hbreak hblock
  have hlines : ∀ l ∈ inclusiveLines (indentBlock indent block), IsLine l := by
    rw [hindented, List.forall_mem_map]
    exact fun l hl => isLine_indentLine hbreak (hblock l hl)
  rw [lines, inclusiveLines_dedentBlock hindent hbreak hlines, hindented]
  simp only [List.map_map]
  refine List.map_congr_left fun l hl => ?_
  simp only [Function.comp_apply]
  rw [trim_stripLineEnd, trim_dedentLine hindent hbreak, trim_indentLine hindent (hblock l hl)]

end TypeLang.Text
