import Mathlib
import TypeLang.Model.Indirection
import TypeLang.Proofs.Text.Pieces
import TypeLang.Proofs.Text.Unbroken

/-!
# Names on one line

Names of a schema become identifiers and types of the emitted code. Where the former have no line
feed the latter have none.
-/
namespace TypeLang

variable {s t : String} {cs : List Char}

namespace Naming

/-- Capitalising makes no character but capitals. -/
theorem toUpper_ne {c d : Char} (hd : d.isUpper = false) (h : c ≠ d) : c.toUpper ≠ d := by
  rintro rfl
  simp only [Char.toUpper] at h hd
  split at hd
  · next hlower =>
    simp only [Char.isUpper, decide_eq_false_iff_not, ge_iff_le, UInt32.le_iff_toNat_le,
      UInt32.toNat_add] at hlower hd
    simp only [Char.reduceVal, UInt32.reduceToNat, UInt32.reduceSub] at hlower hd
    omega
  · next hlower => exact h (by rw [dif_neg hlower])

theorem toUpper_ne_newline {c : Char} (h : c ≠ '\n') : c.toUpper ≠ '\n' := toUpper_ne (by decide) h

theorem toLower_ne_newline {c : Char} (h : c ≠ '\n') : c.toLower ≠ '\n' := by
  simp only [Char.toLower]
  split
  · next hupper =>
    intro heq
    have hval := congrArg (fun c : Char => c.val.toNat) heq
    simp only [ge_iff_le, UInt32.le_iff_toNat_le, UInt32.toNat_add] at hupper hval
    simp only [Char.reduceVal, UInt32.reduceToNat, UInt32.reduceSub] at hupper hval
    omega
  · exact h

/-- Joining words brings in no character that is not there and no capital. -/
theorem notMem_joinWords {d : Char} (hd : d.isUpper = false) (upper : Bool) (h : d ∉ cs) :
    d ∉ joinWords upper cs := by
  induction cs generalizing upper with
  | nil => exact h
  | cons c cs ih =>
    simp only [List.mem_cons, not_or] at h
    simp only [joinWords]
    split
    · exact ih true h.2
    · have hc : (if upper then c.toUpper else c) ≠ d := by
        split
        · exact toUpper_ne hd (Ne.symm h.1)
        · exact Ne.symm h.1
      simp [Ne.symm hc, ih false h.2]

theorem newline_notMem_joinWords (upper : Bool) (h : '\n' ∉ cs) : '\n' ∉ joinWords upper cs :=
  notMem_joinWords (by decide) upper h

theorem unbroken_mapFirst {f : Char → Char} (hf : ∀ c, c ≠ '\n' → f c ≠ '\n') (h : Unbroken s) :
    Unbroken (mapFirst f s) := by
  simp only [mapFirst]
  split
  · exact h
  · next c cs hs =>
    rw [unbroken_iff, hs, List.mem_cons, not_or] at h
    rw [unbroken_ofList, List.mem_cons, not_or]
    exact ⟨Ne.symm (hf c (Ne.symm h.1)), h.2⟩

theorem unbroken_pascal (h : Unbroken s) : Unbroken (pascal s) := by
  rw [pascal, unbroken_ofList]
  exact newline_notMem_joinWords true h.newline_notMem

theorem unbroken_camel (h : Unbroken s) : Unbroken (camel s) :=
  unbroken_mapFirst (fun _ => toLower_ne_newline) (unbroken_pascal h)

theorem unbroken_tag (h : Unbroken s) : Unbroken (tag s) :=
  unbroken_mapFirst (fun _ => toUpper_ne_newline) h

theorem unbroken_handler (h : Unbroken s) : Unbroken (handler s) :=
  unbroken_append.mpr ⟨by decide, unbroken_tag h⟩

/-- What a table has for a name, or what stands for the name otherwise. -/
theorem unbroken_lookup {entries : List (String × String)}
    (hentries : ∀ entry ∈ entries, Unbroken entry.2) (key : String) (h : Unbroken s) :
    Unbroken ((entries.lookup key).getD s) := by
  cases hlookup : entries.lookup key with
  | none => exact h
  | some value =>
    obtain ⟨front, back, rfl, -⟩ := List.lookup_eq_some_iff.mp hlookup
    exact hentries (key, value) (by simp)

theorem unbroken_member (h : Unbroken s) : Unbroken (member s) :=
  unbroken_lookup (by decide) _ (unbroken_camel h)

/-- A run of capitals has the characters of the word. -/
theorem subset_of_mem_capitalRuns {cs run : List Char} (h : run ∈ capitalRuns cs) : run ⊆ cs := by
  induction cs generalizing run with
  | nil => simp [capitalRuns] at h
  | cons c cs ih =>
    rw [capitalRuns_cons] at h
    have hkept : ∀ run ∈ capitalRuns cs, run ⊆ c :: cs := fun run hrun =>
      List.Subset.trans (ih hrun) (List.subset_cons_self c cs)
    have hsingle : [c] ⊆ c :: cs := by simp
    split at h
    · next d first rest hruns =>
      have hfirst : d :: first ∈ capitalRuns cs := by simp [hruns]
      have hrest : ∀ run ∈ rest, run ∈ capitalRuns cs := fun run hrun => by simp [hruns, hrun]
      split at h
      · rcases List.mem_cons.mp h with rfl | h
        · exact hsingle
        · exact hkept run h
      · simp only [List.mem_cons] at h
        rcases h with rfl | h
        · exact List.cons_subset_cons c (ih hfirst)
        · exact hkept _ (hrest run h)
    · rcases List.mem_cons.mp h with rfl | h
      · exact hsingle
      · exact hkept run h

end Naming

namespace TargetType

/-! ## Types -/

/-- A type is on one line when its base is. -/
theorem unbroken_text {type : TargetType} : Unbroken type.text ↔ Unbroken type.base := by
  have hbracket : Unbroken "<" ∧ Unbroken ">" := by decide
  induction type with
  | plain name => exact Iff.rfl
  | vector item ih =>
    have hname : Unbroken vectorName := by decide
    simp [text, base, applyText, hbracket, hname, ih]
  | pointer target ih =>
    have hname : Unbroken pointerName := by decide
    simp [text, base, applyText, hbracket, hname, ih]

theorem unbroken_generatedName (h : Unbroken s) : Unbroken (generatedName s) :=
  unbroken_append.mpr ⟨by decide, Naming.unbroken_pascal h⟩

theorem unbroken_named {name : QualifiedName} (h : Unbroken name.text) :
    Unbroken (ofTypeExpr.named name).base :=
  Naming.unbroken_lookup (by decide) _ (unbroken_generatedName h)

/-- A type expression on one line has a base on one line. -/
theorem unbroken_ofTypeExpr {type : TypeExpr} (h : Unbroken type.text) :
    Unbroken (ofTypeExpr type).base := by
  induction type with
  | named name =>
    simp only [ofTypeExpr]
    split
    · decide
    · exact unbroken_named h
  | applied name argument ih =>
    simp only [TypeExpr.text, unbroken_append] at h
    simp only [ofTypeExpr]
    split
    · exact ih h.1.2
    · exact unbroken_named h.1.1.1

theorem subset_of_argumentChars? {template : String} {rest : List Char}
    (h : argumentChars? template cs = some rest) : rest ⊆ cs := by
  simp only [argumentChars?] at h
  split at h
  · cases h
  · next after hafter =>
    rw [← Text.append_of_dropStart? hafter]
    exact List.Subset.trans (Text.subset_of_dropLast? h) (List.subset_append_right _ _)

/-- A text on one line has a base on one line. -/
theorem unbroken_ofText (h : Unbroken s) : Unbroken (ofText s).base := by
  have hchars : ∀ cs, '\n' ∉ cs → Unbroken (ofChars cs).base := by
    intro cs
    fun_induction ofChars cs with
    | case1 cs item hitem ih =>
      exact fun hcs => ih (newline_notMem_of_subset hcs (subset_of_argumentChars? hitem))
    | case2 cs _ target htarget ih =>
      exact fun hcs => ih (newline_notMem_of_subset hcs (subset_of_argumentChars? htarget))
    | case3 cs => exact unbroken_ofList.mpr
  exact hchars s.toList h.newline_notMem

/-- Wrapping a type in a pointer leaves the name in it alone. -/
theorem base_of_wrap? {member type wrapped : TargetType} (h : member.wrap? type = some wrapped) :
    wrapped.base = type.base := by
  fun_induction wrap? member type generalizing wrapped with
  | case1 =>
    cases h
    rfl
  | case2 item _ ih =>
    obtain ⟨inner, hinner, rfl⟩ := Option.map_eq_some_iff.mp h
    have hbase := ih hinner
    exact hbase
  | case3 => cases h

theorem unbroken_zero? {type : TargetType} {zero : String} (h : type.zero? = some zero) :
    Unbroken zero := by
  simp only [zero?] at h
  split at h <;> cases h <;> decide

theorem unbroken_valueVariable (h : Unbroken s) : Unbroken (valueVariable s) := by
  simp only [valueVariable, unbroken_append]
  refine ⟨Naming.unbroken_camel ?_, by decide⟩
  cases hbare : Text.dropStart? initials.toList s.toList with
  | none => exact h
  | some bare =>
    rw [Option.map_some, Option.getD_some, unbroken_ofList]
    apply newline_notMem_of_subset h.newline_notMem
    rw [← Text.append_of_dropStart? hbare]
    exact List.subset_append_right _ _

theorem unbroken_argumentText {type : TargetType} (htype : Unbroken type.base) (h : Unbroken s) :
    Unbroken (type.argumentText s) := by
  have htext := unbroken_text.mpr htype
  have hspace : Unbroken " " ∧ Unbroken "const " ∧ Unbroken " &" := by decide
  simp only [argumentText]
  split <;> simp [htext, h, hspace]

theorem unbroken_disambiguation {type : TargetType} (htype : Unbroken type.base) (member : String) :
    Unbroken (type.disambiguation member) := by
  simp only [disambiguation, unbroken_ofList, List.mem_flatten, List.mem_filter, List.mem_flatMap]
  rintro ⟨word, ⟨⟨part, hpart, hword⟩, -⟩, hnewline⟩
  -- Every word is a part of the written type, apart from the case of some letters.
  have hpart' : '\n' ∉ part :=
    newline_notMem_of_subset (unbroken_text.mpr htype).newline_notMem
      (Text.subset_of_mem_splitWhere hpart.1)
  have hbare : '\n' ∉ (Text.dropStart? initials.toList part).getD part := by
    cases hdrop : Text.dropStart? initials.toList part with
    | none => exact hpart'
    | some bare =>
      apply newline_notMem_of_subset hpart'
      rw [← Text.append_of_dropStart? hdrop]
      exact List.subset_append_right _ _
  exact Naming.newline_notMem_joinWords true hbare (Naming.subset_of_mem_capitalRuns hword hnewline)

end TargetType

end TypeLang
