import TypeLang.Proofs.Schema.Legible
import TypeLang.Proofs.Schema.Segments
import TypeLang.Proofs.Schema.Unbroken

/-!
# Definitions on one line each

A text may have every definition on a line of its own. Then a line is read as the definition that
it spells, whatever lines stand around it, and a separator line only says which category comes next.
The written form of a legible definition is such a line when no comment starts in it.
-/
namespace TypeLang

open Text

namespace Document

/-! ## Texts without comments -/

/-- No comment starts in the text. -/
def Uncommented (cs : List Char) : Prop := ¬['/', '/'] <:+: cs

section Uncommented

variable {cs ds xs ys : List Char} {c : Char}

/-- Nothing is stripped from a text without comments only. -/
theorem stripComment_eq_iff : stripComment cs = cs ↔ Uncommented cs := by
  fun_induction stripComment cs with
  | case1 => simp [Uncommented]
  | case2 cs => simp [Uncommented, List.infix_cons_iff]
  | case3 c cs hslash ih =>
    have hstart : ¬['/', '/'] <+: c :: cs := by
      rintro ⟨rest, hrest⟩
      obtain ⟨rfl, rfl⟩ := List.cons.inj hrest
      exact hslash rest rfl rfl
    rw [List.cons.injEq, ih, Uncommented, Uncommented, List.infix_cons_iff]
    simp [hstart]

theorem Uncommented.of_isInfix (h : Uncommented cs) (hds : ds <:+: cs) : Uncommented ds :=
  fun hmem => h (hmem.trans hds)

theorem uncommented_of_notMem (h : '/' ∉ cs) : Uncommented cs :=
  stripComment_eq_iff.mp (stripComment_of_notMem h)

/-- A comment does not start across a character that is no slash. -/
theorem Uncommented.append_cons (hxs : Uncommented xs) (hc : c ≠ '/') (hys : Uncommented ys) :
    Uncommented (xs ++ c :: ys) := by
  rw [← stripComment_eq_iff] at hxs hys ⊢
  have hhead : (c :: ys).head? ≠ some '/' := by simpa using hc
  rw [stripComment_append hhead, if_pos hxs, stripComment, hys]
  rintro rest rfl
  exact absurd rfl hc

/-- A stripped text has no comments. -/
theorem uncommented_stripComment (cs : List Char) : Uncommented (stripComment cs) := by
  rw [← stripComment_eq_iff]
  fun_induction stripComment cs with
  | case1 => rfl
  | case2 => rfl
  | case3 c cs hslash ih =>
    rw [stripComment, ih]
    rintro rest rfl hrest
    obtain ⟨back, hback⟩ := isPrefix_stripComment cs
    rw [hrest] at hback
    exact hslash (rest ++ back) rfl hback.symm

theorem Uncommented.append_spaced {tokens : List (List Char)} (hcs : Uncommented cs)
    (h : ∀ token ∈ tokens, Uncommented token) : Uncommented (cs ++ spaced tokens) := by
  induction tokens generalizing cs with
  | nil => simpa using hcs
  | cons token tokens ih =>
    obtain ⟨htoken, htokens⟩ := List.forall_mem_cons.mp h
    rw [spaced_cons, ← List.append_assoc]
    exact ih (hcs.append_cons (by decide) htoken) htokens

/-- A respelled text has no comments when the text has none. -/
theorem Uncommented.of_respelled (hcs : Uncommented cs) (h : Respelled cs ds) : Uncommented ds := by
  cases h with
  | same => exact hcs
  | number front spelled back n =>
    have hfront : Uncommented front := hcs.of_isInfix ⟨[], '.' :: spelled ++ '?' :: back, by simp⟩
    have hback : Uncommented back := hcs.of_isInfix ⟨front ++ '.' :: spelled ++ ['?'], [], by simp⟩
    have hdigits : Uncommented (Nat.toDigits 10 n) := uncommented_of_notMem fun hmem =>
      forall_mem_toDigits (P := (· ≠ '/')) (by decide) n _ hmem rfl
    exact (hfront.append_cons (by decide) hdigits).append_cons (by decide) hback

end Uncommented

/-! ## Lines -/

/-- A line that says one closed statement, and nothing around it. -/
structure IsClosedLine (line : List Char) : Prop where
  content_eq : content line = line
  closed : line.getLast? = some ';'

/-- The line that switches to a category. -/
def separatorLine : Category → String
  | .types => "---types---"
  | .functions => "---functions---"

section Lines

variable {category : Category} {line : List Char} {n : Nat} {ls : List (List Char)}
  {ds : List Definition}

theorem isClosedLine_of_uncommented {c : Char} (h : Uncommented line) (hhead : line.head? = some c)
    (hc : isBlank c = false) (hclosed : line.getLast? = some ';') : IsClosedLine line := by
  refine ⟨?_, hclosed⟩
  rw [content, stripComment_eq_iff.mpr h]
  exact trim_of_head?_of_getLast? hhead hc hclosed (by decide)

theorem IsClosedLine.separator?_eq_none (h : IsClosedLine line) : separator? line = none := by
  cases hseparator : separator? line with
  | none => rfl
  | some category =>
    exact absurd (List.mem_of_getLast? h.closed) (semicolon_notMem_separator hseparator)

/-- A closed line is read by itself, and the lines behind it are read as they would be without. -/
theorem read_closedLine (h : IsClosedLine line) :
    (⟨category, none⟩ : State).read (statementsFrom n (line :: ls)) = ⟨ds, none⟩ ↔
      ∃ d rest, readStatement category line = .ok d ∧
        (⟨category, none⟩ : State).read (statementsFrom (n + 1) ls) = ⟨rest, none⟩ ∧
        d :: rest = ds := by
  have hne : (content line).isEmpty = false := by
    rw [h.content_eq]
    obtain ⟨front, rfl⟩ := List.getLast?_eq_some_iff.mp h.closed
    simp
  rw [statementsFrom_cons, hne, h.content_eq]
  simp only [Bool.false_eq_true, if_false, List.singleton_append, read_cons, step,
    h.separator?_eq_none, State.take, extend, h.closed, if_true]
  cases readStatement category line with
  | error cause => simp
  | ok d =>
    simp only [Reading.prepend]
    rcases (⟨category, none⟩ : State).read (statementsFrom (n + 1) ls) with ⟨definitions, error⟩
    simp [and_comm]

/-- Closed lines are read one by one, in front of what follows. -/
theorem read_closedLines {closed : List (List Char)} (h : ∀ line ∈ closed, IsClosedLine line) :
    (⟨category, none⟩ : State).read (statementsFrom n (closed ++ ls)) = ⟨ds, none⟩ ↔
      ∃ front back, closed.mapM (readStatement category) = .ok front ∧
        (⟨category, none⟩ : State).read (statementsFrom (n + closed.length) ls) = ⟨back, none⟩ ∧
        front ++ back = ds := by
  induction closed generalizing n ds with
  | nil => simp
  | cons line closed ih =>
    obtain ⟨hline, hclosed⟩ := List.forall_mem_cons.mp h
    have hlength : n + (line :: closed).length = n + 1 + closed.length := by
      rw [List.length_cons]
      omega
    rw [List.cons_append, read_closedLine hline, hlength]
    simp only [ih hclosed, List.mapM_cons, bind_eq_ok, pure_eq_ok]
    constructor
    · rintro ⟨d, rest, hd, ⟨front, back, hfront, hback, rfl⟩, rfl⟩
      exact ⟨d :: front, back, ⟨d, hd, front, hfront, rfl⟩, hback, rfl⟩
    · rintro ⟨-, back, ⟨d, hd, front, hfront, rfl⟩, hback, rfl⟩
      exact ⟨d, front ++ back, hd, ⟨front, back, hfront, hback, rfl⟩, rfl⟩

/-- At the end of a text nothing else is read. -/
theorem read_closedLines_end (h : ∀ line ∈ ls, IsClosedLine line) :
    (⟨category, none⟩ : State).read (statementsFrom n ls) = ⟨ds, none⟩ ↔
      ls.mapM (readStatement category) = .ok ds := by
  rw [← List.append_nil ls, read_closedLines h, List.append_nil]
  simp [State.read, readStatements]

/-- A separator sets the category for what follows. -/
theorem read_separatorLine (category' : Category) :
    (⟨category, none⟩ : State).read (statementsFrom n ((separatorLine category').toList :: ls)) =
      (⟨category', none⟩ : State).read (statementsFrom (n + 1) ls) := by
  have hcontent : content (separatorLine category').toList = (separatorLine category').toList := by
    cases category' <;> decide
  have hne : (separatorLine category').toList.isEmpty = false := by cases category' <;> decide
  have hseparator : separator? (separatorLine category').toList = some category' := by
    cases category' <;> decide
  rw [statementsFrom_cons, hcontent, hne]
  simp only [Bool.false_eq_true, if_false, List.singleton_append, read_cons, step, hseparator]
  rfl

end Lines

/-! ## Texts -/

def unlines (ls : List String) : String := String.join (ls.map (· ++ "\n"))

theorem readSchema_eq_ok_iff {text : String} {ds : List Definition} :
    readSchema text = .ok ds ↔ readDocument text = ⟨ds, none⟩ := by
  rw [readSchema]
  rcases readDocument text with ⟨definitions, _ | error⟩ <;> simp

/-- A text of lines on their own is read line by line. -/
theorem readSchema_unlines {ls : List String} (hls : ∀ line ∈ ls, Unbroken line)
    (ds : List Definition) : readSchema (unlines ls) = .ok ds ↔
      start.read (statementsFrom 1 (ls.map String.toList)) = ⟨ds, none⟩ := by
  have hlines : ∀ l ∈ ls.map fun line => line.toList ++ ['\n'], IsLine l := by
    rintro l hl
    obtain ⟨line, hline, rfl⟩ := List.mem_map.mp hl
    exact ⟨line.toList, (hls line hline).newline_notMem, rfl⟩
  have htext : (unlines ls).toList = (ls.map fun line => line.toList ++ ['\n']).flatten := by
    rw [unlines, String.toList_join, List.flatMap_map, List.flatMap_def]
    simp
  obtain ⟨front, hfront, hcontent⟩ := exists_splitWhere_newline hlines List.not_mem_nil
  have hbreak : ∀ c ∈ ['\n'], isBlank c := List.forall_mem_singleton.mpr (by decide)
  have hsame : front.map content = (ls.map String.toList).map content := by
    rw [hcontent, List.map_map, List.map_map]
    exact List.map_congr_left fun line _ => content_append_blank hbreak line.toList
  have hraw : rawLines (unlines ls) = front ++ [[]] := by
    rw [rawLines, htext, ← hfront, List.append_nil]
  have hempty : ∀ n, statementsFrom n [[]] = [] :=
    statementsFrom_eq_nil (List.forall_mem_singleton.mpr rfl)
  rw [readSchema_eq_ok_iff, readDocument_eq_read, hraw, statementsFrom_append,
    statementsFrom_congr hsame, hempty, List.append_nil]

end Document

namespace Row

open Document

variable {row : Row}

/-- No comment starts in a row when none starts in its parts. -/
theorem uncommented_text (hname : Uncommented row.name)
    (htokens : ∀ token ∈ row.tokens, Uncommented token) (hresult : Uncommented row.result) :
    Uncommented row.text := by
  have hdigits : Uncommented (hexDigits 8 row.id.toNat) := uncommented_of_notMem fun hmem =>
    forall_mem_hexDigits (P := (· ≠ '/')) (by decide) _ _ _ hmem rfl
  have hempty : Uncommented [] := uncommented_of_notMem List.not_mem_nil
  have hleft : Uncommented row.left := (hname.append_cons (by decide) hdigits).append_spaced htokens
  have htext : row.text =
      (((row.left ++ ' ' :: []) ++ '=' :: []) ++ ' ' :: row.result) ++ ';' :: [] := by simp [text]
  rw [htext]
  exact (((hleft.append_cons (by decide) hempty).append_cons (by decide) hempty).append_cons
    (by decide) hresult).append_cons (by decide) hempty

theorem newline_notMem_text (hname : '\n' ∉ row.name) (htokens : ∀ token ∈ row.tokens, '\n' ∉ token)
    (hresult : '\n' ∉ row.result) : '\n' ∉ row.text := by
  have hdigits : '\n' ∉ hexDigits 8 row.id.toNat := fun hmem =>
    forall_mem_hexDigits (P := (· ≠ '\n')) (by decide) _ _ _ hmem rfl
  have hspaced : '\n' ∉ spaced row.tokens := by
    intro hmem
    obtain hspace | ⟨token, htoken, hmem⟩ := mem_spaced hmem
    · exact absurd hspace (by decide)
    · exact htokens token htoken hmem
  simp [text, left, head, hname, hdigits, hspaced, hresult]

theorem IsPlain.isClosedLine (h : row.IsPlain) (huncommented : Uncommented row.text) :
    IsClosedLine row.text := by
  obtain ⟨c, hhead, hc⟩ := h.head?_left
  exact isClosedLine_of_uncommented huncommented (by simp [text, hhead]) hc List.getLast?_concat

end Row

end TypeLang
