import TypeLang.Proofs.Model.Derived
import TypeLang.Proofs.Naming.Unbroken
import TypeLang.Proofs.Schema.Gates
import TypeLang.Proofs.Schema.Unbroken

/-!
# Template applications

A type expression is cut at its first opening bracket, so the name in it has none, and neither has
the name that is generated from it. The written form of a target type is a template application
only where the type is one, and for the definitions of a schema that template is the vector.
-/
namespace TypeLang

open Text

/-! ## Schema names -/

/-- No name of a type has an opening bracket. -/
theorem TypeExpr.bracket_notMem_of_read {cs : List Char} {type : TypeExpr}
    (h : read cs = .ok type) : '<' ∉ type.name.text.toList := by
  rw [read] at h
  split at h
  · cases h
  · split at h
    · next hcut =>
      obtain ⟨name, hname, rfl⟩ := map_eq_ok.mp h
      rw [TypeExpr.name, QualifiedName.toList_text_of_read? (readName_eq_ok.mp hname)]
      intro hmem
      simpa using cutWhere?_eq_none_iff.mp hcut '<' hmem
    · next head rest hcut =>
      split at h
      · cases h
      · simp only [bind_eq_ok, pure_eq_ok] at h
        obtain ⟨argument, -, name, hname, rfl⟩ := h
        rw [TypeExpr.name, QualifiedName.toList_text_of_read? (readName_eq_ok.mp hname)]
        intro hmem
        simpa using not_of_cutWhere? hcut '<' hmem

/-- A result that is read was read as a type. -/
theorem Definition.exists_read_of_readResult {template : Bool} {cs : List Char} {result : TypeExpr}
    (h : readResult template cs = .ok result) : ∃ type, TypeExpr.read type = .ok result := by
  simp only [readResult] at h
  generalize (if template then (words cs).headD [] else cs) = type at h
  split at h
  · cases h
  · exact ⟨type, mapError_eq_ok.mp h⟩

/-- The result of a listed entry was read as a type. -/
theorem Listing.exists_read_of_readEntry {spelling : Spelling} {category : Category}
    {entry : ListedEntry} {d : Definition} (h : readEntry spelling category entry = .ok d) :
    ∃ type, TypeExpr.read type = .ok d.result := by
  simp only [readEntry] at h
  split at h
  · simp only [bind_eq_ok] at h
    obtain ⟨result, hresult, h⟩ := h
    have hd : d.result = result := by
      split at h <;>
      · simp only [bind_eq_ok, pure_eq_ok] at h
        obtain ⟨parameters, -, id, -, rfl⟩ := h
        rfl
    simp only [readResult] at hresult
    split at hresult
    · cases hresult
    · next type _ _ => exact ⟨type, hd ▸ mapError_eq_ok.mp hresult⟩
  · simp at h

theorem Listing.exists_read_of_readEntries {spelling : Spelling} {category : Category}
    {entries : List ListedEntry} {ds : List Definition} {d : Definition}
    (h : readEntries spelling category entries = .ok ds) (hd : d ∈ ds) :
    ∃ type, TypeExpr.read type = .ok d.result := by
  obtain ⟨entry, -, hread⟩ := exists_of_mem_mapM h hd
  exact exists_read_of_readEntry (mapError_eq_ok.mp hread)

/-- The result type of every definition of a schema was read from a text. -/
theorem Parsed.exists_read_result {ds : List Definition} (h : Parsed ds) {d : Definition}
    (hd : d ∈ ds) : ∃ type, TypeExpr.read type = .ok d.result := by
  rcases h with ⟨text, h⟩ | ⟨bytes, h⟩
  · obtain ⟨category, statement, -, hread⟩ := exists_statement h hd
    simp only [Document.readStatement, map_eq_ok] at hread
    obtain ⟨d, hread, rfl⟩ := hread
    obtain ⟨left, right, -, -, hresult, -, -⟩ := Definition.read_eq_ok hread
    have hread := Definition.exists_read_of_readResult hresult
    exact hread
  · simp only [readListing] at h
    split at h
    · cases h
    · simp only [Listing.definitions, bind_eq_ok, pure_eq_ok] at h
      obtain ⟨spelling, -, constructors, hconstructors, methods, hmethods, rfl⟩ := h
      rcases List.mem_append.mp hd with hd | hd
      · exact Listing.exists_read_of_readEntries hconstructors hd
      · exact Listing.exists_read_of_readEntries hmethods hd

/-! ## Names of target types -/

namespace TargetType

/-- A generated name has no bracket when its source has none. -/
theorem bracket_notMem_generatedName {name : String} (h : '<' ∉ name.toList) :
    '<' ∉ (generatedName name).toList := by
  have hinitials : '<' ∉ initials.toList := by decide
  simp only [generatedName, String.toList_append, List.mem_append, not_or]
  refine ⟨hinitials, ?_⟩
  rw [Naming.pascal, String.toList_ofList]
  exact Naming.notMem_joinWords (by decide) true h

/-- Whatever is written without an opening bracket applies no template. -/
theorem argumentChars?_eq_none {template : String} {cs : List Char} (h : '<' ∉ cs) :
    argumentChars? template cs = none := by
  simp only [argumentChars?]
  split
  · rfl
  · next rest hrest =>
    refine absurd ?_ h
    rw [← append_of_dropStart? hrest]
    simp

/-- A text without a bracket is a plain type. -/
theorem ofText_of_bracket_notMem {name : String} (h : '<' ∉ name.toList) :
    ofText name = .plain name := by
  rw [ofText, ofChars]
  split
  · next item hitem => rw [argumentChars?_eq_none h] at hitem; cases hitem
  · split
    · next target htarget => rw [argumentChars?_eq_none h] at htarget; cases htarget
    · rw [String.ofList_toList]

/-- A template application is taken apart again. -/
theorem argumentChars?_applyText (template argument : String) :
    argumentChars? template (applyText template argument).toList = some argument.toList := by
  have htext : (applyText template argument).toList =
      (template ++ "<").toList ++ (argument.toList ++ ['>']) := by
    simp [applyText, String.toList_append]
  rw [argumentChars?, htext, dropStart?_append]
  simp [dropLast?]

/-- A written vector type is taken apart again. -/
theorem vectorItem?_text (item : TargetType) : vectorItem? (vector item).text = some item.text := by
  rw [vectorItem?, argument?, text, argumentChars?_applyText, Option.map_some, String.ofList_toList]

/-- The target of a schema type is a vector, or its name applies no template. -/
theorem plain_or_vector_ofTypeExpr {cs : List Char} {type : TypeExpr}
    (h : TypeExpr.read cs = .ok type) :
    (∃ item, ofTypeExpr type = vector item) ∨
      ∃ name, ofTypeExpr type = .plain name ∧ '<' ∉ name.toList := by
  have hname := TypeExpr.bracket_notMem_of_read h
  have hnamed : ∃ name, ofTypeExpr.named type.name = .plain name ∧ '<' ∉ name.toList := by
    refine ⟨_, rfl, ?_⟩
    cases hprimitive : primitive? type.name.text with
    | none => exact bracket_notMem_generatedName hname
    | some target =>
      obtain ⟨front, back, htable, -⟩ := List.lookup_eq_some_iff.mp hprimitive
      have hall : ∀ entry ∈ primitives, '<' ∉ entry.2.toList := by decide
      exact hall (type.name.text, target) (by simp [htable])
  have hvector : '<' ∉ vectorName.toList := by decide
  cases type with
  | named name =>
    simp only [ofTypeExpr]
    split
    · exact .inr ⟨vectorName, rfl, hvector⟩
    · exact .inr hnamed
  | applied name argument =>
    simp only [ofTypeExpr]
    split
    · exact .inl ⟨_, rfl⟩
    · exact .inr hnamed

end TargetType

/-- The name of a type stands for that type, unless the schema defines constructors of a vector
type. -/
theorem Model.Derived.ofText_name {ds : List Definition} {m : Model} (hds : Parsed ds)
    (hm : m.Derived ds) : ∀ t ∈ m.types, TargetType.vectorItem? t.name = none →
      TargetType.ofText t.name = .plain t.name := by
  refine hm.forall_types (P := fun t => TargetType.vectorItem? t.name = none →
    TargetType.ofText t.name = .plain t.name) ?_ ?_ ?_
  · intro t ht hvector
    obtain ⟨d, hd, -, hname, -⟩ := (Model.regroups_ofDefinitions ds).exists_first ht
    rw [hname] at hvector ⊢
    obtain ⟨cs, hread⟩ := hds.exists_read_result ((Model.kept_sublist ds).subset hd)
    rcases TargetType.plain_or_vector_ofTypeExpr hread with ⟨item, hitem⟩ | ⟨name, hname, hbracket⟩
    · simp only [Definition.target, hitem, TargetType.vectorItem?_text] at hvector
      cases hvector
    · simp only [Definition.target, hname]
      exact TargetType.ofText_of_bracket_notMem hbracket
  · intro e t ht
    rwa [Model.Edge.name_wrapType]
  · intro t ht
    exact ht

end TypeLang
