import Mathlib.Data.List.DropRight
import TypeLang.Text.Lines

/-!
# Trimming

Blanks around a text do not matter to what trimming leaves of it. A text that ends with a character
that is not blank still ends with it when it is trimmed.
-/
namespace TypeLang.Text

variable {cs ws front back : List Char} {c : Char}

theorem trimStart_append_of_blank (h : ∀ c ∈ ws, isBlank c) (cs : List Char) :
    trimStart (ws ++ cs) = trimStart cs := by
  have hnone : ws.dropWhile isBlank = [] := List.dropWhile_eq_nil_iff.mpr h
  simp [trimStart, List.dropWhile_append, hnone]

theorem trimEnd_append_of_blank (h : ∀ c ∈ ws, isBlank c) (cs : List Char) :
    trimEnd (cs ++ ws) = trimEnd cs := by
  have hnone : ws.reverse.dropWhile isBlank = [] :=
    List.dropWhile_eq_nil_iff.mpr fun c hc => h c (List.mem_reverse.mp hc)
  simp [trimEnd, dropEndWhile, List.dropWhile_append, hnone]

theorem trim_blank_append (h : ∀ c ∈ ws, isBlank c) (cs : List Char) :
    trim (ws ++ cs) = trim cs := by
  rw [trim, trim, trimStart_append_of_blank h]

/-- Blanks at the end are trimmed away. -/
theorem trim_append_blank (h : ∀ c ∈ ws, isBlank c) (cs : List Char) :
    trim (cs ++ ws) = trim cs := by
  have hnone : ws.dropWhile isBlank = [] := List.dropWhile_eq_nil_iff.mpr h
  simp only [trim, trimStart, List.dropWhile_append, hnone]
  split
  · next hempty => rw [List.isEmpty_iff.mp hempty]
  · exact trimEnd_append_of_blank h _

theorem trimEnd_cons (hc : isBlank c = false) (cs : List Char) :
    trimEnd (c :: cs) = c :: trimEnd cs := by
  simp only [trimEnd, dropEndWhile, List.reverse_cons, List.dropWhile_append]
  split <;> simp_all

/-- Trimming takes away the blanks at the end, whether they are taken away before or not. -/
theorem trim_trimEnd (cs : List Char) : trim (trimEnd cs) = trim cs := by
  have hws : ∀ c ∈ (cs.reverse.takeWhile isBlank).reverse, isBlank c := fun c hc =>
    List.mem_takeWhile_imp (List.mem_reverse.mp hc)
  have hcs : cs = trimEnd cs ++ (cs.reverse.takeWhile isBlank).reverse := by
    rw [trimEnd, dropEndWhile, ← List.reverse_append, List.takeWhile_append_dropWhile,
      List.reverse_reverse]
  conv => rhs; rw [hcs, trim_append_blank hws]

theorem trimEnd_of_getLast? (hlast : cs.getLast? = some c) (hc : isBlank c = false) :
    trimEnd cs = cs := by
  obtain ⟨front, rfl⟩ := List.getLast?_eq_some_iff.mp hlast
  simp [trimEnd, dropEndWhile, hc]

theorem trimStart_of_head? (hhead : cs.head? = some c) (hc : isBlank c = false) :
    trimStart cs = cs := by
  cases cs with
  | nil => cases hhead
  | cons d cs =>
    cases hhead
    simp [trimStart, hc]

/-- A text that neither starts nor ends blank is left as it is. -/
theorem trim_of_head?_of_getLast? {d : Char} (hhead : cs.head? = some c)
    (hc : isBlank c = false) (hlast : cs.getLast? = some d) (hd : isBlank d = false) :
    trim cs = cs := by
  rw [trim, trimStart_of_head? hhead hc, trimEnd_of_getLast? hlast hd]

/-- Blanks are all that trimming takes away. -/
theorem filter_trim (cs : List Char) :
    (trim cs).filter (fun c => !isBlank c) = cs.filter fun c => !isBlank c := by
  have hstart : ∀ cs, (trimStart cs).filter (fun c => !isBlank c) =
      cs.filter fun c => !isBlank c := by
    intro cs
    induction cs with
    | nil => rfl
    | cons c cs ih =>
      simp only [trimStart, List.dropWhile_cons] at ih ⊢
      split
      · next hc => rw [ih, List.filter_cons_of_neg (by simp [hc])]
      · rfl
  have hreverse : (trim cs).filter (fun c => !isBlank c) =
      ((trimStart (trimStart cs).reverse).filter fun c => !isBlank c).reverse := by
    rw [← List.filter_reverse]
    rfl
  rw [hreverse, hstart, ← List.filter_reverse, List.reverse_reverse, hstart]

theorem mem_trim (h : c ∈ cs) (hc : isBlank c = false) : c ∈ trim cs := by
  have hkept : c ∈ (trim cs).filter fun c => !isBlank c := by
    rw [filter_trim, List.mem_filter, hc]
    exact ⟨h, rfl⟩
  exact (List.mem_filter.mp hkept).1

theorem trimStart_append (hlast : front.getLast? = some c) (hc : isBlank c = false)
    (back : List Char) : trimStart (front ++ back) = trimStart front ++ back := by
  obtain ⟨start, rfl⟩ := List.getLast?_eq_some_iff.mp hlast
  simp only [trimStart, List.dropWhile_append]
  split <;> simp [hc]

theorem trimEnd_append (hhead : back.head? = some c) (hc : isBlank c = false)
    (front : List Char) : trimEnd (front ++ back) = front ++ trimEnd back := by
  obtain ⟨rest, rfl⟩ := List.head?_eq_some_iff.mp hhead
  simp only [trimEnd, dropEndWhile, List.reverse_append, List.reverse_cons, List.dropWhile_append]
  split <;> simp [hc]

theorem getLast?_trimStart (hlast : cs.getLast? = some c) (hc : isBlank c = false) :
    (trimStart cs).getLast? = some c := by
  obtain ⟨front, rfl⟩ := List.getLast?_eq_some_iff.mp hlast
  simp only [trimStart, List.dropWhile_append]
  split
  · simp [hc]
  · simp

theorem getLast?_trim (hlast : cs.getLast? = some c) (hc : isBlank c = false) :
    (trim cs).getLast? = some c := by
  have hstart := getLast?_trimStart hlast hc
  rw [trim, trimEnd_of_getLast? hstart hc, hstart]

theorem trimEnd_prefix_self (cs : List Char) : trimEnd cs <+: cs :=
  List.rdropWhile_prefix isBlank cs

/-- What trimming leaves does not end with a blank. -/
theorem exists_getLast?_trim (h : trim cs ≠ []) :
    ∃ c, (trim cs).getLast? = some c ∧ isBlank c = false :=
  ⟨_, List.getLast?_eq_some_getLast h,
    Bool.eq_false_iff.mpr (List.rdropWhile_last_not isBlank (trimStart cs) h)⟩

/-- What trimming leaves does not start with a blank. -/
theorem exists_head?_trim (h : trim cs ≠ []) :
    ∃ c, (trim cs).head? = some c ∧ isBlank c = false := by
  obtain ⟨c, rest, hcs⟩ := List.exists_cons_of_ne_nil h
  obtain ⟨back, hback⟩ := trimEnd_prefix_self (trimStart cs)
  have hhead : (cs.dropWhile isBlank).head? = some c := by
    rw [← trimStart, ← hback, ← trim, hcs]
    rfl
  have hc := List.head?_dropWhile_not isBlank cs
  rw [hhead] at hc
  exact ⟨c, by rw [hcs]; rfl, hc⟩

theorem trim_trim (cs : List Char) : trim (trim cs) = trim cs := by
  by_cases hempty : trim cs = []
  · rw [hempty, trim_nil]
  · obtain ⟨c, hhead, hc⟩ := exists_head?_trim hempty
    obtain ⟨d, hlast, hd⟩ := exists_getLast?_trim hempty
    exact trim_of_head?_of_getLast? hhead hc hlast hd

/-- What stands between two characters that are not blank is left as it is. -/
theorem trim_append {d : Char} (hlast : front.getLast? = some c) (hc : isBlank c = false)
    (hhead : back.head? = some d) (hd : isBlank d = false) (mid : List Char) :
    trim (front ++ mid ++ back) = trim front ++ mid ++ trim back := by
  have hfront : trim front = trimStart front := trimEnd_of_getLast? (getLast?_trimStart hlast hc) hc
  have hback : trim back = trimEnd back := by rw [trim, trimStart_of_head? hhead hd]
  rw [hfront, hback, trim, List.append_assoc, trimStart_append hlast hc, ← List.append_assoc,
    trimEnd_append hhead hd]

@[simp] theorem trim_append_newline (cs : List Char) : trim (cs ++ ['\n']) = trim cs :=
  trim_append_blank (List.forall_mem_singleton.mpr (by decide)) cs

theorem trimEnd_append_newline (cs : List Char) : trimEnd (cs ++ ['\n']) = trimEnd cs :=
  trimEnd_append_of_blank (List.forall_mem_singleton.mpr (by decide)) cs

theorem trimEnd_trimEnd (cs : List Char) : trimEnd (trimEnd cs) = trimEnd cs :=
  List.rdropWhile_idempotent isBlank cs

/-- The end of a line is blank. -/
theorem exists_stripLineEnd_append (line : List Char) :
    ∃ ws, (∀ c ∈ ws, isBlank c) ∧ line = stripLineEnd line ++ ws := by
  simp only [stripLineEnd]
  split
  · next rest h =>
    have hblank : ['\r', '\n'].all isBlank := by decide
    refine ⟨['\r', '\n'], List.all_eq_true.mp hblank, ?_⟩
    rw [← List.reverse_reverse line, h]
    simp
  · next rest _ h =>
    refine ⟨['\n'], List.forall_mem_singleton.mpr (by decide), ?_⟩
    rw [← List.reverse_reverse line, h]
    simp
  · exact ⟨[], by simp, by simp⟩

/-- Whether a line has its end does not matter to what it says. -/
theorem trim_stripLineEnd (line : List Char) : trim (stripLineEnd line) = trim line := by
  obtain ⟨ws, hws, heq⟩ := exists_stripLineEnd_append line
  conv => rhs; rw [heq, trim_append_blank hws]

end TypeLang.Text
