import TypeLang.Proofs.Model.Indirection

/-!
# Written target types

A target type can be told from its written form when no opening bracket stands in its base. The
bases of schema types have none, whatever other characters occur in the names, closing brackets
among them. So the vectors of a schema type are seen in the text one by one, and a pointer around
its base is seen as that and changes nothing else.
-/
namespace TypeLang

/-- The innermost argument reached through vectors. -/
def TypeExpr.core : TypeExpr → TypeExpr
  | .named name => .named name
  | .applied name argument =>
    if (TypeExpr.applied name argument).isVector then argument.core else .applied name argument

/-- The argument of a type that is read was read itself. -/
theorem TypeExpr.exists_read_argument {cs : List Char} {name : QualifiedName} {argument : TypeExpr}
    (h : read cs = .ok (.applied name argument)) : ∃ inner, read inner = .ok argument := by
  rw [read] at h
  split at h
  · cases h
  · split at h
    · obtain ⟨other, -, happlied⟩ := map_eq_ok.mp h
      cases happlied
    · split at h
      · cases h
      · next inner _ =>
        simp only [bind_eq_ok, pure_eq_ok] at h
        obtain ⟨read, hread, other, -, happlied⟩ := h
        cases happlied
        exact ⟨inner, hread⟩

namespace TargetType

variable {type : TargetType} {cs : List Char}

/-! ## Templates -/

/-- A vector is no pointer. -/
theorem argumentChars?_pointerName_vector (item : TargetType) :
    argumentChars? pointerName (vector item).text.toList = none := by
  have htext : (vector item).text.toList = "TLVector<".toList ++ (item.text.toList ++ ['>']) := by
    simp [text, applyText, vectorName, String.toList_append]
  rw [argumentChars?, htext]
  rfl

/-- A pointer is no vector. -/
theorem argumentChars?_vectorName_pointer (target : TargetType) :
    argumentChars? vectorName (pointer target).text.toList = none := by
  have htext : (pointer target).text.toList = "TLPtr<".toList ++ (target.text.toList ++ ['>']) := by
    simp [text, applyText, pointerName, String.toList_append]
  rw [argumentChars?, htext]
  rfl

/-- The written form is read back. -/
theorem ofText_text (h : '<' ∉ type.base.toList) : ofText type.text = type := by
  induction type with
  | plain name => exact ofText_of_bracket_notMem h
  | vector item ih =>
    have hitem : argumentChars? vectorName (vector item).text.toList = some item.text.toList :=
      argumentChars?_applyText vectorName item.text
    rw [ofText, ofChars]
    split
    · next found hfound =>
      obtain rfl : item.text.toList = found := Option.some.inj (hitem.symm.trans hfound)
      exact congrArg vector (ih h)
    · next hnone => cases hitem.symm.trans hnone
  | pointer target ih =>
    have htarget :
        argumentChars? pointerName (pointer target).text.toList = some target.text.toList :=
      argumentChars?_applyText pointerName target.text
    rw [ofText, ofChars]
    split
    · next found hfound => cases (argumentChars?_vectorName_pointer target).symm.trans hfound
    · split
      · next found hfound =>
        obtain rfl : target.text.toList = found := Option.some.inj (htarget.symm.trans hfound)
        exact congrArg pointer (ih h)
      · next hnone => cases htarget.symm.trans hnone

@[simp] theorem base_pointed (type : TargetType) : type.pointed.base = type.base := by
  induction type with
  | vector item ih => exact ih
  | _ => rfl

/-! ## Schema types -/

theorem ofTypeExpr_applied {name : QualifiedName} {argument : TypeExpr}
    (h : (TypeExpr.applied name argument).isVector) :
    ofTypeExpr (.applied name argument) = vector (ofTypeExpr argument) := by
  rw [ofTypeExpr, if_pos h]

/-- What is no vector with an argument has a plain target. -/
theorem exists_plain_ofTypeExpr {type : TypeExpr} (hread : TypeExpr.read cs = .ok type)
    (h : ¬(type.isVector ∧ type.argument?.isSome)) :
    ∃ name, ofTypeExpr type = plain name ∧ '<' ∉ name.toList := by
  refine (plain_or_vector_ofTypeExpr hread).resolve_left ?_
  rintro ⟨item, hitem⟩
  cases type with
  | named name =>
    rw [ofTypeExpr] at hitem
    split at hitem <;> cases hitem
  | applied name argument =>
    rw [ofTypeExpr] at hitem
    split at hitem
    · next hvector => exact h ⟨hvector, rfl⟩
    · cases hitem

theorem core_of_not_vector {type : TypeExpr} (h : ¬(type.isVector ∧ type.argument?.isSome)) :
    type.core = type := by
  cases type with
  | named name => rfl
  | applied name argument => exact if_neg fun hvector => h ⟨hvector, rfl⟩

/-- The target of a schema type holds the target of its core, which is plain, by value. -/
theorem base_ofTypeExpr {type : TypeExpr} (hread : TypeExpr.read cs = .ok type) :
    ∃ name, ofTypeExpr type.core = plain name ∧ '<' ∉ name.toList ∧
      (ofTypeExpr type).base = name ∧ (ofTypeExpr type).isIndirect = false := by
  -- Every type but a vector with an argument is its own core, so the induction ends there.
  have hplain : ∀ {type : TypeExpr} {cs : List Char}, TypeExpr.read cs = .ok type →
      ¬(type.isVector ∧ type.argument?.isSome) → ∃ name, ofTypeExpr type.core = plain name ∧
        '<' ∉ name.toList ∧ (ofTypeExpr type).base = name ∧
          (ofTypeExpr type).isIndirect = false := by
    intro type cs hread hvector
    obtain ⟨name, hname, hbracket⟩ := exists_plain_ofTypeExpr hread hvector
    refine ⟨name, ?_, hbracket, ?_, ?_⟩
    · rw [core_of_not_vector hvector, hname]
    · rw [hname, base]
    · rw [hname, isIndirect]
  induction type generalizing cs with
  | named name => exact hplain hread (by simp [TypeExpr.argument?])
  | applied name argument ih =>
    by_cases hvector : (TypeExpr.applied name argument).isVector
    · obtain ⟨inner, hinner⟩ := TypeExpr.exists_read_argument hread
      rw [ofTypeExpr_applied hvector, TypeExpr.core, if_pos hvector]
      exact ih hinner
    · exact hplain hread fun h => hvector h.1

/-- The target of a schema type can be told from its text. A vector with an argument shows as a
vector of the argument, anything else as no template. Behind its vectors stands its core by value;
with a pointer around the core, the text shows the same core behind that pointer. -/
theorem text_ofTypeExpr_shows {type : TypeExpr} (hread : TypeExpr.read cs = .ok type) :
    (∀ argument, type.isVector → type.argument? = some argument →
      vectorItem? (ofTypeExpr type).text = some (ofTypeExpr argument).text ∧
        pointerTarget? (ofTypeExpr type).text = none) ∧
    (¬(type.isVector ∧ type.argument?.isSome) →
      vectorItem? (ofTypeExpr type).text = none ∧ pointerTarget? (ofTypeExpr type).text = none) ∧
    (ofText (ofTypeExpr type).text = ofTypeExpr type ∧
      (ofText (ofTypeExpr type).text).base = (ofTypeExpr type.core).text ∧
      (ofText (ofTypeExpr type).text).isIndirect = false) ∧
    wrap? (ofTypeExpr type.core) (ofTypeExpr type) = some (ofTypeExpr type).pointed ∧
    ofText (ofTypeExpr type).pointed.text = (ofTypeExpr type).pointed ∧
    (ofText (ofTypeExpr type).pointed.text).base = (ofTypeExpr type.core).text ∧
    (ofText (ofTypeExpr type).pointed.text).isIndirect = true := by
  obtain ⟨name, hcore, hbracket, hbase, hdirect⟩ := base_ofTypeExpr hread
  have hbasePointed : (ofTypeExpr type).pointed.base = name := by rw [base_pointed, hbase]
  have hback : ofText (ofTypeExpr type).text = ofTypeExpr type := ofText_text (hbase ▸ hbracket)
  have hbackPointed : ofText (ofTypeExpr type).pointed.text = (ofTypeExpr type).pointed :=
    ofText_text (hbasePointed ▸ hbracket)
  rw [hback, hbackPointed, hcore, text, hbase, hbasePointed]
  refine ⟨fun argument hvector hargument => ?_, fun hplain => ?_, ⟨rfl, rfl, hdirect⟩, ?_, rfl, rfl,
    isIndirect_pointed _⟩
  · cases type with
    | named other => cases hargument
    | applied other found =>
      cases hargument
      rw [ofTypeExpr_applied hvector, vectorItem?_text, pointerTarget?, argument?,
        argumentChars?_pointerName_vector]
      exact ⟨rfl, rfl⟩
  · obtain ⟨other, hother, hno⟩ := exists_plain_ofTypeExpr hread hplain
    rw [hother, text, vectorItem?, pointerTarget?, argument?, argument?,
      argumentChars?_eq_none hno, argumentChars?_eq_none hno]
    exact ⟨rfl, rfl⟩
  · rw [wrap?_plain, if_pos ⟨hbase, hdirect⟩]

/-- Vectors of a type with a closing bracket in its name. -/
def strayVector : TypeExpr :=
  .applied ⟨[], "Vector"⟩ (.applied ⟨[], "vector"⟩ (.named ⟨["a"], "b>c"⟩))

theorem text_ofTypeExpr_shows_strayVector :
    TypeExpr.read "Vector<vector<a.b>c>>".toList = .ok strayVector ∧
    (ofTypeExpr strayVector).text = "TLVector<TLVector<TLAB>c>>" ∧
    vectorItem? (ofTypeExpr strayVector).text = some "TLVector<TLAB>c>" ∧
    (ofText (ofTypeExpr strayVector).text).base = "TLAB>c" ∧
    (ofTypeExpr strayVector).pointed.text = "TLVector<TLVector<TLPtr<TLAB>c>>>" ∧
    (ofText (ofTypeExpr strayVector).pointed.text).base = "TLAB>c" ∧
    (ofText (ofTypeExpr strayVector).pointed.text).isIndirect = true := by
  have hread : TypeExpr.read "Vector<vector<a.b>c>>".toList = .ok strayVector := by decide +kernel
  obtain ⟨hvector, -, ⟨-, hbase, -⟩, -, -, hbasePointed, hindirect⟩ := text_ofTypeExpr_shows hread
  have hitem := (hvector _ (by decide +kernel) rfl).1
  refine ⟨hread, by decide +kernel, hitem.trans (by decide +kernel),
    hbase.trans (by decide +kernel), by decide +kernel, hbasePointed.trans (by decide +kernel),
    hindirect⟩

end TargetType

end TypeLang
