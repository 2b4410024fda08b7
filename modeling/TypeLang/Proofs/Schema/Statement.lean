import TypeLang.Proofs.Success
import TypeLang.Proofs.Text.Lines
import TypeLang.Proofs.Text.Pieces
import TypeLang.Schema.Document

/-!
# Statements

What is known of the definitions of a schema text. Each was read from a statement of its own, which
lies on one line and ends with a semicolon, and each of its parts was read from a part of that
statement.
-/
namespace TypeLang

open Text

namespace Definition

theorem isInfix_body (cs : List Char) : body cs <:+: cs :=
  (isInfix_trim _).trans ((isInfix_dropEndWhile _ _).trans (isInfix_trim cs))

theorem subset_body (cs : List Char) : body cs ⊆ cs := (isInfix_body cs).subset

theorem isInfix_cutHead (cs : List Char) : (cutHead cs).1 <:+: cs ∧ (cutHead cs).2 <:+: cs := by
  simp only [cutHead]
  cases hcut : cutWhere? isBlank cs with
  | none => exact ⟨List.infix_rfl, List.nil_infix⟩
  | some cut => exact isInfix_of_cutWhere? hcut

theorem isInfix_cutId (cs : List Char) : (cutId cs).1 <:+: cs := by
  simp only [cutId]
  split
  · exact List.infix_rfl
  · next hcut => exact (isInfix_of_cutWhere? hcut).1

/-- The parts of a definition and the parts of the text they were read from. -/
theorem read_eq_ok {cs : List Char} {d : Definition} (h : read cs = .ok d) :
    ∃ left right, cut? '=' (body cs) = some (left, right) ∧
      d.template = has '\x7b' (trim left) ∧
      readResult d.template (trim right) = .ok d.result ∧
      QualifiedName.read? (cutId (cutHead (trim left)).1).1 = some d.name ∧
      (d.template = true ∧ d.parameters = [] ∨
        readParameters [] (words (cutHead (trim left)).2) = .ok d.parameters) := by
  simp only [read] at h
  split at h
  · simp at h
  · split at h
    · next left right hcut =>
      simp only [bind_eq_ok] at h
      obtain ⟨result, hresult, h⟩ := h
      refine ⟨left, right, hcut, ?_⟩
      split at h
      · next name hname =>
        -- The id is written or derived; nothing below depends on which.
        split at h <;>
        · simp only [bind_eq_ok] at h
          obtain ⟨id, -, h⟩ := h
          split at h
          · next htemplate =>
            cases h
            exact ⟨rfl, hresult, hname, .inl ⟨htemplate, rfl⟩⟩
          · simp only [bind_eq_ok, pure_eq_ok] at h
            obtain ⟨parameters, hparameters, rfl⟩ := h
            exact ⟨rfl, hresult, hname, .inr hparameters⟩
      · simp at h
    · simp at h

end Definition

namespace Document

/-- A statement as it stands in a schema text: on one line, and closed. -/
structure IsStatement (text : List Char) : Prop where
  newline_notMem : '\n' ∉ text
  closed : text.getLast? = some ';'

theorem isPrefix_stripComment (cs : List Char) : stripComment cs <+: cs := by
  fun_induction stripComment cs with
  | case1 => exact List.prefix_rfl
  | case2 cs => exact List.nil_prefix
  | case3 c cs _ ih => exact (List.prefix_cons_inj c).mpr ih

/-- A statement is on one line. -/
theorem newline_notMem_of_mem_statements {cs : List Char} {entry : Nat × List Char}
    (h : entry ∈ statements cs) : '\n' ∉ entry.2 := by
  simp only [statements, List.mem_filter, List.mem_map] at h
  obtain ⟨⟨line, hline, rfl⟩, -⟩ := h
  have hmem : line.1 ∈ lines cs := List.fst_mem_of_mem_zipIdx hline
  intro hnewline
  apply newline_notMem_of_mem_lines hmem
  exact (isPrefix_stripComment line.1).subset ((trim_sublist _).subset hnewline)

/-- What lines have, and texts of lines put together with spaces, a definition that is left open
keeps when the next line joins it. -/
theorem of_extend {P : List Char → Prop} (hjoin : ∀ xs ys, P xs → P ys → P (xs ++ ' ' :: ys))
    {unclosed? : Option Unclosed} {line : Nat} {content : List Char}
    (hunclosed : ∀ unclosed ∈ unclosed?, P unclosed.text) (hcontent : P content) :
    P (extend unclosed? line content).text := by
  cases unclosed? with
  | none => exact hcontent
  | some unclosed => exact hjoin _ _ (hunclosed unclosed rfl) hcontent

theorem getLast?_extend {unclosed? : Option Unclosed} {line : Nat} {content : List Char} {c : Char}
    (h : content.getLast? = some c) : (extend unclosed? line content).text.getLast? = some c := by
  cases unclosed? with
  | none => exact h
  | some unclosed => simp [extend, List.getLast?_cons, h]

/-- Every definition is read from statements joined by blanks. -/
theorem mem_readStatements {P : List Char → Prop}
    (hjoin : ∀ xs ys, P xs → P ys → P (xs ++ ' ' :: ys))
    {category : Category} {unclosed? : Option Unclosed} {entries : List (Nat × List Char)}
    {d : Definition} (hentries : ∀ entry ∈ entries, P entry.2)
    (hunclosed : ∀ unclosed ∈ unclosed?, P unclosed.text)
    (hd : d ∈ (readStatements category unclosed? entries).definitions) :
    ∃ category text, P text ∧ text.getLast? = some ';' ∧ readStatement category text = .ok d := by
  fun_induction readStatements category unclosed? entries with
  | case1 => simp at hd
  | case2 => simp [Reading.stop] at hd
  | case3 _ line content rest _ _ ih =>
    exact ih (fun entry he => hentries entry (List.mem_cons_of_mem _ he)) (by simp) hd
  | case4 category unclosed? line content rest unclosed hlast d' hread _ ih =>
    simp only [hlast, if_true] at hd
    rw [hread] at hd
    rcases List.mem_cons.mp hd with rfl | hd
    · have hcontent := hentries (line, content) List.mem_cons_self
      exact ⟨category, unclosed.text, of_extend hjoin hunclosed hcontent, getLast?_extend hlast,
        hread⟩
    · exact ih (fun entry he => hentries entry (List.mem_cons_of_mem _ he)) (by simp) hd
  | case5 category unclosed? line content rest unclosed hlast cause hread _ =>
    simp only [hlast, if_true] at hd
    rw [hread] at hd
    simp [Reading.stop] at hd
  | case6 category unclosed? line content rest unclosed hlast _ ih =>
    simp only [hlast, if_false] at hd
    refine ih (fun entry he => hentries entry (List.mem_cons_of_mem _ he)) ?_ hd
    rintro _ ⟨⟩
    exact of_extend hjoin hunclosed (hentries (line, content) List.mem_cons_self)

end Document

/-- The definitions of a schema text; none when it is malformed. -/
def definitionsOf (text : String) : List Definition := (readSchema text).toOption.getD []

theorem readSchema_eq_ok_definitionsOf {text : String} (h : (readSchema text).isOk) :
    readSchema text = .ok (definitionsOf text) := by
  obtain ⟨ds, hds⟩ := exists_of_isOk h
  simp [definitionsOf, hds, Except.toOption]

/-- Every definition of a schema text was read from a statement, which has what the lines have. -/
theorem exists_text {P : List Char → Prop} (hjoin : ∀ xs ys, P xs → P ys → P (xs ++ ' ' :: ys))
    {text : String} {ds : List Definition} {d : Definition}
    (hlines : ∀ entry ∈ Document.statements text.toList, P entry.2)
    (h : readSchema text = .ok ds) (hd : d ∈ ds) :
    ∃ category statement, P statement ∧ statement.getLast? = some ';' ∧
      Document.readStatement category statement = .ok d := by
  simp only [readSchema] at h
  split at h
  · simp only [Except.ok.injEq] at h
    subst h
    exact Document.mem_readStatements hjoin hlines (by simp) hd
  · simp at h

/-- Every definition is read from a statement. -/
theorem exists_statement {text : String} {ds : List Definition} {d : Definition}
    (h : readSchema text = .ok ds) (hd : d ∈ ds) :
    ∃ category statement, Document.IsStatement statement ∧
      Document.readStatement category statement = .ok d := by
  obtain ⟨category, statement, hline, hclosed, hread⟩ := exists_text
    (P := fun cs => '\n' ∉ cs) (fun xs ys hxs hys => by simp [hxs, hys])
    (fun _ => Document.newline_notMem_of_mem_statements) h hd
  exact ⟨category, statement, ⟨hline, hclosed⟩, hread⟩

end TypeLang
