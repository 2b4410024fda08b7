import TypeLang.Text.Lines

/-!
# Lines of a text

Cutting a text into lines and joining lines to a text undo each other, as long as every line but
the last is closed. Texts are put together from lines below, and these laws say which lines the
result has.
-/
namespace TypeLang.Text

/-- A closed line: one line feed, at its end. -/
def IsLine (line : List Char) : Prop := ∃ body, '\n' ∉ body ∧ line = body ++ ['\n']

theorem inclusiveLines_newline (cs : List Char) :
    inclusiveLines ('\n' :: cs) = ['\n'] :: inclusiveLines cs := by
  simp [inclusiveLines]

theorem inclusiveLines_cons {c : Char} (hc : c ≠ '\n') {cs line : List Char}
    {rest : List (List Char)} (h : inclusiveLines cs = line :: rest) :
    inclusiveLines (c :: cs) = (c :: line) :: rest := by
  simp only [inclusiveLines, List.foldr_cons, hc, if_false] at h ⊢
  rw [h]

/-- A closed line in front of a text is its first line. -/
theorem inclusiveLines_line_append {line : List Char} (h : IsLine line) (rest : List Char) :
    inclusiveLines (line ++ rest) = line :: inclusiveLines rest := by
  obtain ⟨body, hbody, rfl⟩ := h
  induction body with
  | nil => exact inclusiveLines_newline rest
  | cons c body ih =>
    simp only [List.mem_cons, not_or] at hbody
    exact inclusiveLines_cons (Ne.symm hbody.1) (ih hbody.2)

/-- A text without line feeds is one line. -/
theorem inclusiveLines_of_notMem {cs : List Char} (h : '\n' ∉ cs) (hne : cs ≠ []) :
    inclusiveLines cs = [cs] := by
  induction cs with
  | nil => exact absurd rfl hne
  | cons c cs ih =>
    simp only [List.mem_cons, not_or] at h
    cases cs with
    | nil => simp [inclusiveLines, Ne.symm h.1]
    | cons d cs => exact inclusiveLines_cons (Ne.symm h.1) (ih h.2 (by simp))

/-- Closed lines in front of a text are its first lines. -/
theorem inclusiveLines_flatten_append {ls : List (List Char)} (h : ∀ l ∈ ls, IsLine l)
    (rest : List Char) : inclusiveLines (ls.flatten ++ rest) = ls ++ inclusiveLines rest := by
  induction ls with
  | nil => rfl
  | cons l ls ih =>
    rw [List.flatten_cons, List.append_assoc,
      inclusiveLines_line_append (h l List.mem_cons_self),
      ih fun k hk => h k (List.mem_cons_of_mem _ hk), List.cons_append]

theorem inclusiveLines_flatten {ls : List (List Char)} (h : ∀ l ∈ ls, IsLine l) :
    inclusiveLines ls.flatten = ls := by
  simpa using inclusiveLines_flatten_append h []

/-- Every text is a sequence of closed lines and what follows its last line feed. -/
theorem exists_lines_append (cs : List Char) :
    ∃ ls tail, cs = List.flatten ls ++ tail ∧ (∀ l ∈ ls, IsLine l) ∧ '\n' ∉ tail := by
  induction cs with
  | nil => exact ⟨[], [], rfl, by simp, by simp⟩
  | cons c cs ih =>
    obtain ⟨ls, tail, rfl, hls, htail⟩ := ih
    by_cases hc : c = '\n'
    · refine ⟨[c] :: ls, tail, by simp, ?_, htail⟩
      rintro l (_ | ⟨_, hl⟩)
      · exact ⟨[], by simp, by simp [hc]⟩
      · exact hls l hl
    · cases ls with
      | nil => exact ⟨[], c :: tail, by simp, by simp, by simp [htail, Ne.symm hc]⟩
      | cons l ls =>
        obtain ⟨body, hbody, rfl⟩ := hls l List.mem_cons_self
        refine ⟨(c :: (body ++ ['\n'])) :: ls, tail, by simp, ?_, htail⟩
        rintro k (_ | ⟨_, hk⟩)
        · exact ⟨c :: body, by simp [hbody, Ne.symm hc], by simp⟩
        · exact hls k (List.mem_cons_of_mem _ hk)

/-- Only the last line may lack its line feed. -/
theorem isLine_or_notMem {cs line : List Char} (h : line ∈ inclusiveLines cs) :
    IsLine line ∨ '\n' ∉ line := by
  obtain ⟨ls, tail, rfl, hls, htail⟩ := exists_lines_append cs
  rw [inclusiveLines_flatten_append hls, List.mem_append] at h
  rcases h with h | h
  · exact .inl (hls line h)
  · by_cases hne : tail = []
    · simp [hne] at h
    · rw [inclusiveLines_of_notMem htail hne, List.mem_singleton] at h
      exact .inr (h ▸ htail)

/-- Of the lines of a text all in front of some others are closed, and the others are lines of a
text themselves. -/
theorem isLine_of_append {cs : List Char} {front back : List (List Char)}
    (h : inclusiveLines cs = front ++ back) (hback : back ≠ []) :
    (∀ l ∈ front, IsLine l) ∧ inclusiveLines back.flatten = back := by
  obtain ⟨ls, tail, rfl, hls, htail⟩ := exists_lines_append cs
  rw [inclusiveLines_flatten_append hls] at h
  have hlast : inclusiveLines tail = [] ∨ inclusiveLines tail = [tail] := by
    by_cases hne : tail = []
    · exact .inl (by simp [hne])
    · exact .inr (inclusiveLines_of_notMem htail hne)
  rcases List.append_eq_append_iff.mp h with ⟨mid, rfl, hmid⟩ | ⟨mid, rfl, rfl⟩
  · -- The front holds all closed lines, so only the unclosed one is left for the back.
    have hshort : mid = [] := by
      have hlength := congrArg List.length hmid
      have hpos := List.length_pos_iff.mpr hback
      rw [List.length_append] at hlength
      rcases hlast with hlast | hlast <;> rw [hlast] at hlength <;>
        exact List.length_eq_zero_iff.mp (by simp at hlength; omega)
    subst hshort
    refine ⟨by simpa using hls, ?_⟩
    rw [List.nil_append] at hmid
    rw [← hmid, flatten_inclusiveLines]
  · refine ⟨fun l hl => hls l (List.mem_append_left _ hl), ?_⟩
    rw [List.flatten_append, flatten_inclusiveLines,
      inclusiveLines_flatten_append fun l hl => hls l (List.mem_append_right _ hl)]

/-! ## Cuts at a line -/

section Cut

variable {α : Type} {p : α → Bool} {ls before after : List α} {l : α}

/-- Lines cannot be cut exactly when no line has the property. -/
theorem cutLines?_eq_none_iff : cutLines? p ls = none ↔ ∀ l ∈ ls, p l = false := by
  induction ls with
  | nil => simp [cutLines?]
  | cons l ls ih =>
    by_cases hl : p l
    · simp [cutLines?, hl]
    · simp [cutLines?, hl, ih]

/-- Lines are cut at the first one that has the property. -/
theorem of_cutLines? (h : cutLines? p ls = some (before, l, after)) :
    (∀ k ∈ before, p k = false) ∧ p l := by
  induction ls generalizing before with
  | nil => cases h
  | cons k ls ih =>
    by_cases hk : p k
    · simp only [cutLines?, hk, if_true] at h
      cases h
      exact ⟨by simp, hk⟩
    · simp only [cutLines?, hk] at h
      obtain ⟨⟨b, d⟩, hcut, heq⟩ := Option.map_eq_some_iff.mp h
      cases heq
      obtain ⟨hbefore, hl⟩ := ih hcut
      exact ⟨List.forall_mem_cons.mpr ⟨Bool.eq_false_iff.mpr hk, hbefore⟩, hl⟩

theorem cutLines?_append (hbefore : ∀ k ∈ before, p k = false) (hl : p l) :
    cutLines? p (before ++ l :: after) = some (before, l, after) := by
  induction before with
  | nil => simp [cutLines?, hl]
  | cons k before ih =>
    have hk := hbefore k List.mem_cons_self
    have hrest := ih fun k hk => hbefore k (List.mem_cons_of_mem _ hk)
    simp [cutLines?, hk, hrest]

/-- A cut is made at the first line that satisfies the condition. -/
theorem cutLines?_eq_some_iff : cutLines? p ls = some (before, l, after) ↔
    ls = before ++ l :: after ∧ (∀ k ∈ before, p k = false) ∧ p l := by
  constructor
  · exact fun h => ⟨(append_of_cutLines? h).symm, of_cutLines? h⟩
  · rintro ⟨rfl, hbefore, hl⟩
    exact cutLines?_append hbefore hl

end Cut

/-! ## Lines without their ends -/

theorem stripLineEnd_sublist (line : List Char) : (stripLineEnd line).Sublist line := by
  simp only [stripLineEnd]
  split
  · next rest h =>
    rw [← List.reverse_reverse line, h]
    simp
  · next rest h =>
    rw [← List.reverse_reverse line, h]
    simp
  · exact .refl line

theorem stripLineEnd_line_sublist (body : List Char) :
    (stripLineEnd (body ++ ['\n'])).Sublist body := by
  simp only [stripLineEnd, List.reverse_append, List.reverse_singleton, List.singleton_append]
  split
  · next rest h =>
    simp only [List.cons.injEq, true_and] at h
    rw [← List.reverse_reverse body, h]
    simp
  · next rest _ h =>
    simp only [List.cons.injEq, true_and] at h
    have hbody : rest.reverse = body := by rw [← h, List.reverse_reverse]
    exact hbody ▸ List.Sublist.refl _
  · next h => exact absurd rfl (h body.reverse)

/-- No line feed is left in lines without their ends. -/
theorem newline_notMem_of_mem_lines {cs line : List Char} (h : line ∈ lines cs) : '\n' ∉ line := by
  simp only [lines, List.mem_map] at h
  obtain ⟨full, hfull, rfl⟩ := h
  rcases isLine_or_notMem hfull with ⟨body, hbody, rfl⟩ | hnone
  · exact fun hmem => hbody ((stripLineEnd_line_sublist body).subset hmem)
  · exact fun hmem => hnone ((stripLineEnd_sublist full).subset hmem)

end TypeLang.Text
