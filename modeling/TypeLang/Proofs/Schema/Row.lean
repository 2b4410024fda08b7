import TypeLang.Proofs.Schema.Statement
import TypeLang.Proofs.Text.Numerals
import TypeLang.Proofs.Text.Tokens

/-!
# Rows

A row is a definition with an explicit id as it is written on one line: a name, an id, the tokens
of the parameters and a result type. When no part has a character that would end it, reading the row
is reading its parts.
-/
namespace TypeLang

open Text

/-- The written parts of a definition. -/
structure Row where
  name : List Char
  id : UInt32
  tokens : List (List Char)
  result : List Char

namespace Row

def head (row : Row) : List Char := row.name ++ '#' :: hexDigits 8 row.id.toNat

/-- What stands in front of the equality sign. -/
def left (row : Row) : List Char := row.head ++ spaced row.tokens

def text (row : Row) : List Char := row.left ++ " = ".toList ++ row.result ++ [';']

/-- Reads the parts: of several faults the result type's is reported first, then the name's and the
parameters'. -/
def read (row : Row) : Except DefinitionError Definition := do
  let result ← Definition.readResult false row.result
  let some name := QualifiedName.read? row.name | throw .missingName
  let parameters ← Definition.readParameters [] row.tokens
  return { name, id := row.id, parameters, result, category := .types, template := false
           source := none }

/-- No part of the row has a character that ends it or is dropped around it. -/
structure IsPlain (row : Row) : Prop where
  name : ∀ c ∈ row.name, isBlank c = false ∧ c ≠ '#' ∧ c ≠ '=' ∧ c ≠ '\x7b'
  ne_nil : ∀ token ∈ row.tokens, token ≠ []
  tokens : ∀ token ∈ row.tokens, ∀ c ∈ token, isBlank c = false ∧ c ≠ '=' ∧ c ≠ '\x7b'
  trimmed : trim row.result = row.result
  unclosed : row.result.getLast? ≠ some ';'

end Row

theorem Text.isToken_hexDigits (id : UInt32) : IsToken (hexDigits 8 id.toNat) :=
  ⟨by simp [hexDigits], forall_mem_hexDigits (by decide) _ _⟩

namespace Definition

theorem readId_hexDigits (id : UInt32) : readId (hexDigits 8 id.toNat) = .ok id := by
  have hdigits : ∀ c ∈ hexDigits 8 id.toNat, isHexDigit c :=
    forall_mem_hexDigits (by decide) _ _
  rw [readId, (isToken_hexDigits id).trim_eq, List.takeWhile_eq_self_iff.mpr hdigits,
    readWord_hexDigits]
  rfl

/-- A semicolon behind a text that does not end with one is all that closes it. -/
theorem body_concat {cs : List Char} {c : Char} (hhead : cs.head? = some c) (hc : isBlank c = false)
    (hopen : cs.getLast? ≠ some ';') : body (cs ++ [';']) = trimEnd cs := by
  obtain ⟨rest, rfl⟩ := List.head?_eq_some_iff.mp hhead
  have hclosed : trim (c :: rest ++ [';']) = c :: rest ++ [';'] :=
    trim_of_head?_of_getLast? (by simp) hc List.getLast?_concat (by decide)
  have hdrop : dropEndWhile (· == ';') (c :: rest ++ [';']) = c :: rest := by
    obtain ⟨front, last, hconcat⟩ := List.eq_nil_or_concat' (c :: rest) |>.resolve_left (by simp)
    rw [hconcat] at hopen ⊢
    simp only [List.getLast?_concat, ne_eq, Option.some.injEq] at hopen
    simp [dropEndWhile, hopen]
  rw [body, hclosed, hdrop, trim, trimStart_of_head? hhead hc]

end Definition

namespace Row.IsPlain

open Definition

variable {row : Row}

theorem isToken_head (h : row.IsPlain) : IsToken row.head := by
  refine ⟨by simp [head], ?_⟩
  rw [head, List.forall_mem_append, List.forall_mem_cons]
  exact ⟨fun c hc => (h.name c hc).1, by decide, forall_mem_hexDigits (by decide) _ _⟩

theorem isToken (h : row.IsPlain) : ∀ token ∈ row.tokens, IsToken token := fun token htoken =>
  ⟨h.ne_nil token htoken, fun c hc => (h.tokens token htoken c hc).1⟩

/-- In front of the result there is neither an equals sign nor a brace. -/
theorem left_plain (h : row.IsPlain) : ∀ c ∈ row.left, c ≠ '=' ∧ c ≠ '\x7b' := by
  rw [left, head, List.forall_mem_append, List.forall_mem_append, List.forall_mem_cons]
  refine ⟨⟨fun c hc => (h.name c hc).2.2, by decide, ?_⟩, fun c hc => ?_⟩
  · exact forall_mem_hexDigits (by decide) _ _
  · rcases mem_spaced hc with rfl | ⟨token, htoken, hc⟩
    · decide
    · exact (h.tokens token htoken c hc).2

theorem head?_left (h : row.IsPlain) : ∃ c, row.left.head? = some c ∧ isBlank c = false := by
  obtain ⟨c, hhead, hc⟩ := h.isToken_head.head?
  exact ⟨c, by simp [left, hhead], hc⟩

theorem trim_left (h : row.IsPlain) : trim (row.left ++ [' ']) = row.left := by
  obtain ⟨c, hhead, hc⟩ := h.head?_left
  obtain ⟨d, hlast, hd⟩ := getLast?_append_spaced h.isToken_head h.isToken
  rw [trim_append_blank (List.forall_mem_singleton.mpr (by decide))]
  exact trim_of_head?_of_getLast? hhead hc hlast hd

/-- The sides of the row are the sides of the first equality sign. -/
theorem cut?_body_text (h : row.IsPlain) : ∃ right,
    cut? '=' (body row.text) = some (row.left ++ [' '], right) ∧ trim right = row.result := by
  have hequal : '=' ∉ row.left ++ [' '] := by
    rw [List.mem_append, not_or]
    exact ⟨fun hmem => (h.left_plain _ hmem).1 rfl, by simp⟩
  have hspace : ∀ c ∈ [' '], isBlank c := List.forall_mem_singleton.mpr (by decide)
  obtain ⟨c, hhead, hc⟩ := h.head?_left
  have htext : row.text = ((row.left ++ [' ']) ++ '=' :: (' ' :: row.result)) ++ [';'] := by
    simp [text]
  have hopen : ((row.left ++ [' ']) ++ '=' :: (' ' :: row.result)).getLast? ≠ some ';' := by
    have hresult := h.unclosed
    rcases List.eq_nil_or_concat' row.result with hnil | ⟨front, last, hconcat⟩
    · simp [hnil]
    · rw [hconcat] at hresult ⊢
      simpa [List.getLast?_append, List.getLast?_cons] using hresult
  rw [htext, body_concat (by simp [hhead]) hc hopen, trimEnd_append rfl (by decide),
    trimEnd_cons (by decide)]
  refine ⟨_, cut?_append hequal _, ?_⟩
  rw [trim_trimEnd, ← List.singleton_append, trim_blank_append hspace, h.trimmed]

theorem cutId_head (h : row.IsPlain) :
    cutId row.head = (row.name, some (hexDigits 8 row.id.toNat)) := by
  have hmark : '#' ∉ row.name := fun hmem => (h.name _ hmem).2.1 rfl
  rw [cutId, head, cut?_append hmark]

/-- The head is the first word, and the parameters are the words behind it. -/
theorem cutHead_left (h : row.IsPlain) :
    (cutHead row.left).1 = row.head ∧ words (cutHead row.left).2 = row.tokens := by
  have hwords := words_spaced h.isToken
  rw [left]
  cases htokens : row.tokens with
  | nil =>
    have hcut : cutWhere? isBlank row.head = none :=
      cutWhere?_eq_none_iff.mpr h.isToken_head.solid
    simp [cutHead, hcut, words]
  | cons token tokens =>
    rw [htokens, spaced_cons, List.cons_append, words_cons_blank (by decide)] at hwords
    rw [spaced_cons, List.cons_append, cutHead, cutWhere?_append h.isToken_head.solid (by decide)]
    exact ⟨rfl, hwords⟩

/-- Reading a plain row is reading its parts. -/
theorem read_text (h : row.IsPlain) : Definition.read row.text = row.read := by
  obtain ⟨right, hcut, hright⟩ := h.cut?_body_text
  have hsome : (body row.text).isEmpty = false := by
    rw [List.isEmpty_eq_false_iff]
    exact List.ne_nil_of_mem (mem_of_cut? hcut)
  have htemplate : has '\x7b' row.left = false := by
    rw [has, Bool.eq_false_iff, ne_eq, List.contains_iff_mem]
    exact fun hmem => (h.left_plain _ hmem).2 rfl
  obtain ⟨hhead, hwords⟩ := h.cutHead_left
  rw [Definition.read]
  simp only [hsome, hcut, h.trim_left, hright, htemplate, hhead, hwords, h.cutId_head,
    readId_hexDigits]
  rfl

end Row.IsPlain

end TypeLang
