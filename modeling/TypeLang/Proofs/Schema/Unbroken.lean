import TypeLang.Proofs.Schema.Gates
import TypeLang.Proofs.Schema.Spelling
import TypeLang.Proofs.Text.Unbroken

/-!
# Definitions on one line

The written form of a definition that was read from a text on one line is on one line: nothing is
in a name, a type or a gate that was not in the text.
-/
namespace TypeLang

open Text

variable {cs : List Char}

namespace QualifiedName

theorem unbroken_of_read? {name : QualifiedName} (h : read? cs = some name) (hcs : '\n' ∉ cs) :
    Unbroken name.text := by
  rw [unbroken_iff, toList_text_of_read? h]
  exact hcs

end QualifiedName

namespace TypeExpr

theorem unbroken_of_read {type : TypeExpr} (h : read cs = .ok type) (hcs : '\n' ∉ cs) :
    Unbroken type.text := by
  rw [unbroken_iff, toList_text_of_read h]
  exact hcs

end TypeExpr

namespace Parameter

theorem unbroken_of_read {p : Parameter} (h : read cs = .ok p) (hcs : '\n' ∉ cs) :
    Unbroken p.text := by
  rw [unbroken_iff]
  intro hmem
  exact (respelled_of_read h).forall_mem (P := (· ≠ '\n')) (by decide)
    (fun c hc => ne_of_mem_of_not_mem hc hcs) _ hmem rfl

end Parameter

namespace Definition

/-- Every part of a definition is on one line, and its source is a statement. -/
structure IsUnbroken (d : Definition) : Prop where
  name : Unbroken d.name.text
  parameters : ∀ p ∈ d.parameters, Unbroken p.text
  result : Unbroken d.result.text
  source : ∀ source ∈ d.source, Document.IsStatement source.toList

/-- Parameters read from one line are on one line. -/
theorem unbroken_of_readParameters {scope : List String} {tokens : List (List Char)}
    {ps : List Parameter} (htokens : ∀ token ∈ tokens, '\n' ∉ token)
    (h : readParameters scope tokens = .ok ps) : ∀ p ∈ ps, Unbroken p.text := by
  induction tokens generalizing scope ps with
  | nil =>
    cases h
    simp
  | cons token tokens ih =>
    obtain ⟨htoken, htokens⟩ := List.forall_mem_cons.mp htokens
    obtain ⟨p, rest, hp, -, hrest, rfl⟩ := readParameters_cons.mp h
    exact List.forall_mem_cons.mpr ⟨Parameter.unbroken_of_read hp htoken, ih htokens hrest⟩

/-- A result read from one line is on one line. -/
theorem unbroken_of_readResult {template : Bool} {result : TypeExpr}
    (h : readResult template cs = .ok result) (hcs : '\n' ∉ cs) : Unbroken result.text := by
  have htype : '\n' ∉ (if template then (words cs).headD [] else cs) := by
    split
    · rw [List.headD_eq_head?_getD]
      cases hhead : (words cs).head? with
      | none => simp
      | some word =>
        exact newline_notMem_of_subset hcs (subset_of_mem_words (List.mem_of_head? hhead))
    · exact hcs
  simp only [readResult] at h
  generalize (if template then (words cs).headD [] else cs) = type at h htype
  split at h
  · cases h
  · exact TypeExpr.unbroken_of_read (mapError_eq_ok.mp h) htype

theorem unbroken_of_read {d : Definition} (h : read cs = .ok d) (hcs : '\n' ∉ cs) :
    Unbroken d.name.text ∧ (∀ p ∈ d.parameters, Unbroken p.text) ∧ Unbroken d.result.text := by
  obtain ⟨left, right, hcut, -, hresult, hname, hparameters⟩ := read_eq_ok h
  have hbody := subset_body cs
  obtain ⟨hleft, hright⟩ := subset_of_cutWhere? hcut
  have hleft' : '\n' ∉ trim left := newline_notMem_of_subset hcs
    (List.Subset.trans (trim_sublist left).subset (List.Subset.trans hleft hbody))
  have hright' : '\n' ∉ trim right := newline_notMem_of_subset hcs
    (List.Subset.trans (trim_sublist right).subset (List.Subset.trans hright hbody))
  have hhead := isInfix_cutHead (trim left)
  refine ⟨?_, ?_, unbroken_of_readResult hresult hright'⟩
  · exact QualifiedName.unbroken_of_read? hname
      (newline_notMem_of_subset hleft' (List.Subset.trans (isInfix_cutId _).subset hhead.1.subset))
  · rcases hparameters with ⟨-, hempty⟩ | hread
    · simp [hempty]
    · refine unbroken_of_readParameters (fun token htoken => ?_) hread
      exact newline_notMem_of_subset hleft'
        (List.Subset.trans (subset_of_mem_words htoken) hhead.2.subset)

end Definition

/-- The definitions of a schema text are on one line each. -/
theorem unbroken_of_readSchema {text : String} {ds : List Definition}
    (h : readSchema text = .ok ds) : ∀ d ∈ ds, d.IsUnbroken := by
  intro d hd
  obtain ⟨category, statement, hstatement, hread⟩ := exists_statement h hd
  simp only [Document.readStatement, map_eq_ok] at hread
  obtain ⟨read, hread, rfl⟩ := hread
  obtain ⟨hname, hparameters, hresult⟩ :=
    Definition.unbroken_of_read hread hstatement.newline_notMem
  refine ⟨hname, hparameters, hresult, ?_⟩
  rintro _ ⟨⟩
  rw [String.toList_ofList]
  exact hstatement

end TypeLang
