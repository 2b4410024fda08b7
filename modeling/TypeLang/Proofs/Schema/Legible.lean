import TypeLang.Proofs.Schema.Gates
import TypeLang.Proofs.Schema.Row
import TypeLang.Proofs.Schema.Spelling

/-!
# Legible definitions

The written form of a definition is a row. The definition is legible when the row is plain and each
part of it is read as that part of the definition: then its written form is read as the definition.
Definitions that were read from a statement with one semicolon are legible, unless they are
templates.
-/
namespace TypeLang

open Text

namespace Definition

def row (d : Definition) : Row :=
  ⟨d.name.text.toList, d.id, d.parameters.map fun p => p.text.toList, d.result.text.toList⟩

theorem toList_text (d : Definition) : d.text.toList = d.row.text := by
  have hspaced : (String.join (d.parameters.map fun p => " " ++ p.text)).toList =
      spaced (d.parameters.map fun p => p.text.toList) := by
    rw [String.toList_join, spaced, List.flatMap_map, List.flatMap_map]
    simp
  simp [text, hspaced, row, Row.text, Row.left, Row.head, hexWord]

/-- The written form of the definition shows its parts. -/
structure IsLegible (d : Definition) : Prop where
  template : d.template = false
  plain : d.row.IsPlain
  name : QualifiedName.read? d.row.name = some d.name
  parameters : readParameters [] d.row.tokens = .ok d.parameters
  result : TypeExpr.read d.row.result = .ok d.result

/-- Without a template a result is a type. -/
theorem readResult_eq_ok {cs : List Char} {result : TypeExpr} :
    readResult false cs = .ok result ↔ TypeExpr.read cs = .ok result := by
  simp only [readResult, Bool.false_eq_true, if_false]
  split
  · next hempty =>
    refine ⟨nofun, fun h => ?_⟩
    exact absurd (List.isEmpty_iff.mp hempty) (TypeExpr.ne_nil_of_read h)
  · exact mapError_eq_ok

/-- The written form of a legible definition is read as the definition. -/
theorem IsLegible.read_text {d : Definition} (h : d.IsLegible) :
    read d.text.toList = .ok { d with category := .types, source := none } := by
  rw [toList_text, h.plain.read_text, Row.read]
  simp only [readResult_eq_ok.mpr h.result, h.name, h.parameters]
  rw [h.template]
  rfl

/-! ## Definitions that were read -/

section Read

variable {cs : List Char} {d : Definition}

/-- Parameters are read back from their texts. -/
theorem readParameters_text {scope : List String} {tokens : List (List Char)} {ps : List Parameter}
    (h : readParameters scope tokens = .ok ps) :
    readParameters scope (ps.map fun p => p.text.toList) = .ok ps ∧
      ∀ p ∈ ps, ∃ token ∈ tokens, Parameter.read token = .ok p := by
  induction tokens generalizing scope ps with
  | nil =>
    cases h
    exact ⟨rfl, by simp⟩
  | cons token tokens ih =>
    obtain ⟨p, rest, hp, hneeded, hrest, rfl⟩ := readParameters_cons.mp h
    obtain ⟨hagain, hmem⟩ := ih hrest
    constructor
    · exact readParameters_cons.mpr ⟨p, rest, Parameter.read_text hp, hneeded, hagain, rfl⟩
    · refine List.forall_mem_cons.mpr ⟨⟨token, List.mem_cons_self, hp⟩, fun q hq => ?_⟩
      obtain ⟨t, ht, hread⟩ := hmem q hq
      exact ⟨t, List.mem_cons_of_mem _ ht, hread⟩

/-- The only semicolon of a statement is not part of its body. -/
theorem semicolon_notMem_body (hclosed : cs.getLast? = some ';') (hcount : cs.count ';' = 1) :
    ';' ∉ body cs := by
  obtain ⟨front, hfront⟩ := List.getLast?_eq_some_iff.mp (getLast?_trim hclosed (by decide))
  have hle : (trim cs).count ';' ≤ 1 := hcount ▸ (trim_sublist cs).count_le ';'
  have hnone : ';' ∉ front := by
    rw [hfront, List.count_append, List.count_singleton_self] at hle
    exact List.count_eq_zero.mp (by omega)
  have hdrop : dropEndWhile (· == ';') (front ++ [';']) = dropEndWhile (· == ';') front := by
    simp [dropEndWhile]
  rw [body, hfront, hdrop]
  exact fun hmem => hnone
    ((dropEndWhile_sublist _ front).subset ((trim_sublist _).subset hmem))

theorem cutHead_solid (cs : List Char) : ∀ c ∈ (cutHead cs).1, isBlank c = false := by
  rw [cutHead]
  cases hcut : cutWhere? isBlank cs with
  | none => exact cutWhere?_eq_none_iff.mp hcut
  | some cut => exact not_of_cutWhere? hcut

theorem cutId_name (cs : List Char) : '#' ∉ (cutId cs).1 := by
  simp only [cutId]
  split
  · next hcut => exact cut?_eq_none_iff.mp hcut
  · next name id hcut => exact notMem_of_cut? hcut

/-- The parts of a definition that is no template and the parts of the text they were read from. -/
theorem exists_parts (h : read cs = .ok d) (htemplate : d.template = false) :
    ∃ left right, cut? '=' (body cs) = some (left, right) ∧ '\x7b' ∉ left ∧
      TypeExpr.read (trim right) = .ok d.result ∧
      QualifiedName.read? (cutId (cutHead (trim left)).1).1 = some d.name ∧
      readParameters [] (words (cutHead (trim left)).2) = .ok d.parameters := by
  obtain ⟨left, right, hcut, hbrace, hresult, hname, ⟨htrue, -⟩ | hparameters⟩ := read_eq_ok h
  · rw [htemplate] at htrue
    cases htrue
  · refine ⟨left, right, hcut, fun hmem => ?_, ?_, hname, hparameters⟩
    · rw [htemplate, eq_comm, has, Bool.eq_false_iff, ne_eq, List.contains_iff_mem] at hbrace
      exact hbrace (mem_trim hmem (by decide))
    · rw [htemplate] at hresult
      exact readResult_eq_ok.mp hresult

/-- A definition that was read from a text with one semicolon, at its end, is legible. -/
theorem isLegible_of_read (h : read cs = .ok d) (htemplate : d.template = false)
    (hclosed : cs.getLast? = some ';') (hcount : cs.count ';' = 1) : d.IsLegible := by
  obtain ⟨left, right, hcut, hbrace, hresult, hname, hparameters⟩ := exists_parts h htemplate
  obtain ⟨hagain, htokens⟩ := readParameters_text hparameters
  have hnameText : d.row.name = _ := QualifiedName.toList_text_of_read? hname
  have hresultText : d.row.result = _ := TypeExpr.toList_text_of_read hresult
  have hleft : ∀ c ∈ trim left, c ≠ '=' ∧ c ≠ '\x7b' := fun c hc =>
    have hmem := (trim_sublist left).subset hc
    ⟨ne_of_mem_of_not_mem hmem (notMem_of_cut? hcut), ne_of_mem_of_not_mem hmem hbrace⟩
  have hplain : d.row.IsPlain := by
    constructor
    case name =>
      rw [hnameText]
      intro c hc
      have hhead := (isInfix_cutId _).subset hc
      exact ⟨cutHead_solid _ c hhead, ne_of_mem_of_not_mem hc (cutId_name _),
        hleft c ((isInfix_cutHead _).1.subset hhead)⟩
    case ne_nil =>
      refine List.forall_mem_map.mpr fun p _ => ?_
      simp [Parameter.toList_text]
    case tokens =>
      refine List.forall_mem_map.mpr fun p hp => ?_
      obtain ⟨token, htoken, hread⟩ := htokens p hp
      refine (Parameter.respelled_of_read hread).forall_mem (by decide) fun c hc => ?_
      exact ⟨(isToken_of_mem_words htoken).solid c hc,
        hleft c ((isInfix_cutHead _).2.subset (subset_of_mem_words htoken hc))⟩
    case trimmed => rw [hresultText, trim_trim]
    case unclosed =>
      rw [hresultText]
      intro hlast
      have hmem := (trim_sublist right).subset (List.mem_of_getLast? hlast)
      exact semicolon_notMem_body hclosed hcount ((subset_of_cutWhere? hcut).2 hmem)
  exact ⟨htemplate, hplain, by rw [hnameText, hname], hagain, by rw [hresultText, hresult]⟩

end Read

end Definition

end TypeLang
