import TypeLang.Proofs.Success
import TypeLang.Proofs.Text.Numerals
import TypeLang.Proofs.Text.Pieces
import TypeLang.Proofs.Text.Splitting
import TypeLang.Schema.Parameter

/-!
# Spellings

Names and types are written as they were read, character by character. A parameter is too, but for
the bit of its gate, which may have been written with a plus sign or with leading zeros. So what is
read and written can be read again, to the same.
-/
namespace TypeLang

open Text

variable {cs : List Char}

namespace QualifiedName

theorem toList_text (name : QualifiedName) :
    name.text.toList = joinWith ['.'] ((name.path ++ [name.base]).map String.toList) := by
  rcases name with ⟨path, base⟩
  induction path with
  | nil => simp [text, joinWith]
  | cons part path ih =>
    have htext : text ⟨part :: path, base⟩ = part ++ "." ++ text ⟨path, base⟩ := rfl
    rw [htext, String.toList_append, String.toList_append, ih]
    simp only [joinWith, List.cons_append, List.map_cons]
    rw [List.intercalate_cons_of_ne_nil (by simp)]
    rfl

/-- Reading a dotted name loses nothing. -/
theorem toList_text_of_read? {name : QualifiedName} (h : read? cs = some name) :
    name.text.toList = cs := by
  simp only [read?] at h
  split at h
  · cases h
  · cases h
    have hne : (splitWhere (· == '.') cs).map String.ofList ≠ [] := by
      simp [splitWhere_ne_nil]
    rw [toList_text, List.getLastD_eq_getLast?, List.getLast?_eq_some_getLast hne,
      Option.getD_some, List.dropLast_concat_getLast, List.map_map]
    simpa [Function.comp_def] using joinWith_splitWhere '.' cs

theorem ne_nil_of_read? {name : QualifiedName} (h : read? cs = some name) : cs ≠ [] := by
  rintro rfl
  cases h

end QualifiedName

namespace TypeExpr

/-- Reading a type loses nothing. -/
theorem toList_text_of_read {type : TypeExpr} (h : read cs = .ok type) :
    type.text.toList = cs := by
  fun_induction read cs generalizing type with
  | case1 => cases h
  | case2 cs =>
    obtain ⟨name, hread, rfl⟩ := map_eq_ok.mp h
    exact QualifiedName.toList_text_of_read? (readName_eq_ok.mp hread)
  | case3 => cases h
  | case4 cs _ head rest hcut inner hlast ih =>
    simp only [bind_eq_ok, pure_eq_ok] at h
    obtain ⟨argument, hargument, name, hread, rfl⟩ := h
    have hname := QualifiedName.toList_text_of_read? (readName_eq_ok.mp hread)
    rw [append_of_cut? hcut, append_of_dropLast? hlast, ← hname, ← ih hargument]
    simp [text]

/-- What was read is read back from its text. -/
theorem read_text {type : TypeExpr} (h : read cs = .ok type) :
    read type.text.toList = .ok type := by
  rw [toList_text_of_read h, h]

theorem ne_nil_of_read {type : TypeExpr} (h : read cs = .ok type) : cs ≠ [] := by
  rintro rfl
  simp only [read, cut?, cutWhere?] at h
  rw [if_neg (by simp)] at h
  obtain ⟨name, hread, -⟩ := map_eq_ok.mp h
  exact QualifiedName.ne_nil_of_read? (readName_eq_ok.mp hread) rfl

end TypeExpr

/-! ## Parameters -/

/-- A text in which a number between a dot and a question mark may be spelled differently, and is
in decimal digits now. -/
inductive Respelled : List Char → List Char → Prop
  | same (cs : List Char) : Respelled cs cs
  | number (front spelled back : List Char) (n : Nat) :
    Respelled (front ++ '.' :: spelled ++ '?' :: back)
      (front ++ '.' :: Nat.toDigits 10 n ++ '?' :: back)

/-- What holds of digits and of the characters of a text still holds when it is spelled anew. -/
theorem Respelled.forall_mem {P : Char → Prop} {ds : List Char} (h : Respelled cs ds)
    (hdigits : ∀ digit < 10, P digit.digitChar) (hcs : ∀ c ∈ cs, P c) : ∀ c ∈ ds, P c := by
  cases h with
  | same => exact hcs
  | number front spelled back n =>
    simp only [List.forall_mem_append, List.forall_mem_cons] at hcs ⊢
    exact ⟨⟨hcs.1.1, hcs.1.2.1, forall_mem_toDigits hdigits n⟩, hcs.2⟩

theorem Respelled.ne_nil {ds : List Char} (h : Respelled cs ds) (hcs : cs ≠ []) : ds ≠ [] := by
  cases h with
  | same => exact hcs
  | number => simp

theorem Respelled.append {ds : List Char} (h : Respelled cs ds) (front : List Char) :
    Respelled (front ++ cs) (front ++ ds) := by
  cases h with
  | same => exact .same _
  | number before spelled back n =>
    simpa only [List.append_assoc] using Respelled.number (front ++ before) spelled back n

namespace ParameterType

variable {type : ParameterType} {gate : Gate}

/-- A gate is a word, a dot and a bit. -/
theorem readGate_eq_ok (h : readGate cs = .ok gate) :
    ∃ bit, cut? '.' cs = some (gate.word.toList, bit) ∧ gate.word.toList ≠ [] := by
  simp only [readGate] at h
  split at h
  · cases h
  · next word bit hcut =>
    split at h
    · cases h
    · next hword =>
      split at h
      · cases h
      · split at h
        · cases h
          simpa [hcut] using hword
        · cases h

/-- A gate can be read again from its word and its bit. -/
theorem readGate_text (h : readGate cs = .ok gate) :
    readGate (gate.word.toList ++ '.' :: Nat.toDigits 10 gate.bit.val) = .ok gate := by
  obtain ⟨bit, hcut, hword⟩ := readGate_eq_ok h
  have hbit : readUnsigned 10 maxWord (Nat.toDigits 10 gate.bit.val) = .ok gate.bit.val := by
    rw [← Nat.toList_repr]
    exact readUnsigned_repr (Nat.le_trans (Nat.le_of_lt gate.bit.isLt) (by decide))
  simp [readGate, cut?_append (notMem_of_cut? hcut), hword, hbit]

/-- What was read respells its text. -/
theorem respelled_of_read (h : read cs = .ok type) : Respelled cs type.text.toList := by
  simp only [read] at h
  split at h
  · next hflags =>
    cases h
    rw [hflags]
    exact .same _
  · split at h
    · obtain ⟨expr, hread, rfl⟩ := map_eq_ok.mp h
      rw [text, TypeExpr.toList_text_of_read hread]
      exact .same _
    · next gateChars typeChars hcut =>
      simp only [bind_eq_ok, pure_eq_ok] at h
      obtain ⟨gate, hgate, expr, hread, rfl⟩ := h
      obtain ⟨bit, hdot, -⟩ := readGate_eq_ok hgate
      have htext : (value expr (some gate)).text.toList =
          gate.word.toList ++ '.' :: Nat.toDigits 10 gate.bit.val ++ '?' :: typeChars := by
        simp [text, TypeExpr.toList_text_of_read hread, Nat.toList_repr]
      rw [append_of_cut? hcut, append_of_cut? hdot, htext]
      exact .number _ _ _ _

theorem read_text (h : read cs = .ok type) : read type.text.toList = .ok type := by
  have hread := h
  simp only [read] at h
  split at h
  · cases h
    rfl
  · split at h
    · obtain ⟨expr, htype, rfl⟩ := map_eq_ok.mp h
      rwa [text, TypeExpr.toList_text_of_read htype]
    · next gateChars typeChars hcut =>
      simp only [bind_eq_ok, pure_eq_ok] at h
      obtain ⟨gate, hgate, expr, htype, rfl⟩ := h
      obtain ⟨bit, hdot, -⟩ := readGate_eq_ok hgate
      have htext : (value expr (some gate)).text.toList =
          (gate.word.toList ++ '.' :: Nat.toDigits 10 gate.bit.val) ++ '?' :: typeChars := by
        simp [text, TypeExpr.toList_text_of_read htype, Nat.toList_repr]
      -- The gate is everything up to the question mark: there is none in its word or its bit.
      have hmark : '?' ∉ gate.word.toList ++ '.' :: Nat.toDigits 10 gate.bit.val := by
        have hword : '?' ∉ gate.word.toList := fun hmem =>
          notMem_of_cut? hcut ((subset_of_cutWhere? hdot).1 hmem)
        have hbit : '?' ∉ Nat.toDigits 10 gate.bit.val := fun hmem =>
          forall_mem_toDigits (P := (· ≠ '?')) (by decide) _ _ hmem rfl
        simp [hword, hbit]
      have hflags : (value expr (some gate)).text.toList ≠ ['#'] := by
        intro hflags
        have : '?' ∈ ['#'] := hflags ▸ htext ▸ List.mem_append_right _ List.mem_cons_self
        simp at this
      rw [read, if_neg hflags, htext, cut?_append hmark]
      simp only [readGate_text hgate, htype]
      rfl

end ParameterType

namespace Parameter

variable {p : Parameter}

/-- A parameter is a name, a colon and a type. -/
theorem read_eq_ok (h : read cs = .ok p) :
    ∃ type, cut? ':' cs = some (p.name.toList, type) ∧ p.name.toList ≠ [] ∧ type ≠ [] ∧
      ParameterType.read type = .ok p.type := by
  simp only [read] at h
  split at h
  · cases h
  · next name type hcut =>
    split at h
    · cases h
    · next hempty =>
      obtain ⟨read, hread, rfl⟩ := map_eq_ok.mp h
      rw [Bool.or_eq_true, List.isEmpty_iff, List.isEmpty_iff, not_or] at hempty
      exact ⟨type, by simpa using hcut, by simpa using hempty.1, hempty.2, hread⟩

theorem toList_text (p : Parameter) :
    p.text.toList = p.name.toList ++ ':' :: p.type.text.toList := by
  simp [text]

theorem respelled_of_read (h : read cs = .ok p) : Respelled cs p.text.toList := by
  obtain ⟨type, hcut, -, -, hread⟩ := read_eq_ok h
  rw [append_of_cut? hcut, toList_text]
  have hspelled := (ParameterType.respelled_of_read hread).append (p.name.toList ++ [':'])
  simpa using hspelled

/-- A parameter that was read can be read again from its written form. -/
theorem read_text (h : read cs = .ok p) : read p.text.toList = .ok p := by
  obtain ⟨type, hcut, hname, htype, hread⟩ := read_eq_ok h
  have hne := (ParameterType.respelled_of_read hread).ne_nil htype
  rw [toList_text, read, cut?_append (notMem_of_cut? hcut)]
  simp [hname, hne, ParameterType.read_text hread]

end Parameter

end TypeLang
