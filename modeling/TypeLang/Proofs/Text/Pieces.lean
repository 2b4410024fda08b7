import Mathlib.Data.List.DropRight
import TypeLang.Text.Split

/-!
# Pieces of a text

Cutting, splitting and trimming make no characters: whatever they give is a part of the text, so it
consists of characters of the text. A cut tells besides which character it was made at.
-/
namespace TypeLang.Text

theorem trimEnd_sublist (cs : List Char) : (trimEnd cs).Sublist cs := by
  simpa [trimEnd, dropEndWhile] using
    (List.dropWhile_sublist isBlank (l := cs.reverse)).reverse

theorem trim_sublist (cs : List Char) : (trim cs).Sublist cs :=
  (trimEnd_sublist _).trans (List.dropWhile_sublist isBlank)

theorem dropEndWhile_sublist (p : Char → Bool) (cs : List Char) :
    (dropEndWhile p cs).Sublist cs := by
  simpa [dropEndWhile] using (List.dropWhile_sublist p (l := cs.reverse)).reverse

theorem isInfix_dropEndWhile (p : Char → Bool) (cs : List Char) : dropEndWhile p cs <:+: cs :=
  (List.rdropWhile_prefix p cs).isInfix

theorem isInfix_trim (cs : List Char) : trim cs <:+: cs :=
  (isInfix_dropEndWhile isBlank (trimStart cs)).trans (List.dropWhile_suffix isBlank).isInfix

/-! ## Cuts -/

/-- A text is cut into what is in front of a character and what is behind it. -/
theorem append_of_cutWhere? {p : Char → Bool} {cs before after : List Char}
    (h : cutWhere? p cs = some (before, after)) : ∃ c, p c ∧ cs = before ++ c :: after := by
  induction cs generalizing before with
  | nil => simp [cutWhere?] at h
  | cons c cs ih =>
    simp only [cutWhere?] at h
    split at h
    · next hc =>
      cases h
      exact ⟨c, hc, rfl⟩
    · simp only [Option.map_eq_some_iff, Prod.exists, Prod.mk.injEq] at h
      obtain ⟨b, a, hcut, rfl, rfl⟩ := h
      obtain ⟨d, hd, rfl⟩ := ih hcut
      exact ⟨d, hd, rfl⟩

theorem isInfix_of_cutWhere? {p : Char → Bool} {cs before after : List Char}
    (h : cutWhere? p cs = some (before, after)) : before <:+: cs ∧ after <:+: cs := by
  obtain ⟨c, -, rfl⟩ := append_of_cutWhere? h
  exact ⟨(List.prefix_append before _).isInfix,
    (List.suffix_cons c after).isInfix.trans (List.suffix_append before _).isInfix⟩

theorem subset_of_cutWhere? {p : Char → Bool} {cs before after : List Char}
    (h : cutWhere? p cs = some (before, after)) : before ⊆ cs ∧ after ⊆ cs :=
  ⟨(isInfix_of_cutWhere? h).1.subset, (isInfix_of_cutWhere? h).2.subset⟩

theorem mem_of_cut? {mark : Char} {cs before after : List Char}
    (h : cut? mark cs = some (before, after)) : mark ∈ cs := by
  obtain ⟨c, hc, rfl⟩ := append_of_cutWhere? h
  simp [eq_of_beq hc]

/-- Nothing in front of a cut could have been cut at. -/
theorem not_of_cutWhere? {p : Char → Bool} {cs before after : List Char}
    (h : cutWhere? p cs = some (before, after)) : ∀ c ∈ before, p c = false := by
  induction cs generalizing before with
  | nil => simp [cutWhere?] at h
  | cons c cs ih =>
    simp only [cutWhere?] at h
    split at h
    · cases h
      simp
    · next hc =>
      simp only [Option.map_eq_some_iff, Prod.exists, Prod.mk.injEq] at h
      obtain ⟨b, a, hcut, rfl, rfl⟩ := h
      exact List.forall_mem_cons.mpr ⟨Bool.eq_false_iff.mpr hc, ih hcut⟩

theorem cutWhere?_eq_none_iff {p : Char → Bool} {cs : List Char} :
    cutWhere? p cs = none ↔ ∀ c ∈ cs, p c = false := by
  induction cs with
  | nil => simp [cutWhere?]
  | cons c cs ih => cases hc : p c <;> simp [cutWhere?, hc, ih]

theorem cut?_eq_none_iff {mark : Char} {cs : List Char} : cut? mark cs = none ↔ mark ∉ cs := by
  simp only [cut?, cutWhere?_eq_none_iff, beq_eq_false_iff_ne]
  exact ⟨fun h hmem => h mark hmem rfl, fun h c hc => ne_of_mem_of_not_mem hc h⟩

/-- A text is cut at the first character that has the property. -/
theorem cutWhere?_append {p : Char → Bool} {front : List Char} {c : Char}
    (hfront : ∀ d ∈ front, p d = false) (hc : p c) (back : List Char) :
    cutWhere? p (front ++ c :: back) = some (front, back) := by
  induction front with
  | nil => simp [cutWhere?, hc]
  | cons d front ih =>
    obtain ⟨hd, hfront⟩ := List.forall_mem_cons.mp hfront
    simp [cutWhere?, hd, ih hfront]

theorem cut?_append {mark : Char} {front : List Char} (hfront : mark ∉ front) (back : List Char) :
    cut? mark (front ++ mark :: back) = some (front, back) :=
  cutWhere?_append (fun _ hd => beq_eq_false_iff_ne.mpr (ne_of_mem_of_not_mem hd hfront))
    (beq_self_eq_true mark) back

theorem notMem_of_cut? {mark : Char} {cs before after : List Char}
    (h : cut? mark cs = some (before, after)) : mark ∉ before := fun hmem => by
  simpa using not_of_cutWhere? h mark hmem

theorem append_of_cut? {mark : Char} {cs before after : List Char}
    (h : cut? mark cs = some (before, after)) : cs = before ++ mark :: after := by
  obtain ⟨c, hc, rfl⟩ := append_of_cutWhere? h
  rw [eq_of_beq hc]

/-- What stands behind the last of a mark is determined, and so is what stands in front of it. -/
theorem append_mark_inj {front front' back back' : List Char} {mark : Char}
    (h : front ++ mark :: back = front' ++ mark :: back') (hback : mark ∉ back)
    (hback' : mark ∉ back') : front = front' ∧ back = back' := by
  have hcut : ∀ front {back : List Char}, mark ∉ back →
      cut? mark (front ++ mark :: back).reverse = some (back.reverse, front.reverse) := by
    intro front back hback
    rw [List.reverse_append, List.reverse_cons, List.append_assoc, List.singleton_append,
      cut?_append (by simpa using hback)]
  have heq := hcut front hback
  rw [h, hcut front' hback'] at heq
  simpa [eq_comm, and_comm] using heq

theorem append_of_dropLast? {mark : Char} {cs rest : List Char}
    (h : dropLast? mark cs = some rest) : cs = rest ++ [mark] := by
  simp only [dropLast?] at h
  split at h
  · next hlast =>
    cases h
    obtain ⟨front, rfl⟩ := List.getLast?_eq_some_iff.mp hlast
    rw [List.dropLast_concat]
  · cases h

theorem dropLast?_concat (cs : List Char) (mark : Char) :
    dropLast? mark (cs ++ [mark]) = some cs := by
  rw [dropLast?, List.getLast?_concat, if_pos rfl, List.dropLast_concat]

theorem subset_of_dropLast? {mark : Char} {cs rest : List Char}
    (h : dropLast? mark cs = some rest) : rest ⊆ cs := by
  rw [append_of_dropLast? h]
  exact List.subset_append_left _ _

/-! ## Pieces -/

/-- The first piece stands at the start of the text. -/
theorem isPrefix_of_splitWhere {p : Char → Bool} {cs piece : List Char} {rest : List (List Char)}
    (h : splitWhere p cs = piece :: rest) : piece <+: cs := by
  induction cs generalizing piece rest with
  | nil =>
    cases h
    exact List.prefix_rfl
  | cons c cs ih =>
    rw [splitWhere_cons] at h
    split at h
    · cases h
      exact List.nil_prefix
    · split at h
      · next hsplit => exact absurd hsplit (splitWhere_ne_nil p cs)
      · next first others hsplit =>
        cases h
        exact (List.prefix_cons_inj c).mpr (ih hsplit)

/-- Every piece is a part of the text. -/
theorem isInfix_of_mem_splitWhere {p : Char → Bool} {cs piece : List Char}
    (h : piece ∈ splitWhere p cs) : piece <:+: cs := by
  induction cs generalizing piece with
  | nil => simp_all
  | cons c cs ih =>
    have hbehind : ∀ {piece}, piece ∈ splitWhere p cs → piece <:+: c :: cs := fun h =>
      (ih h).trans (List.suffix_cons c cs).isInfix
    obtain ⟨first, others, hsplit⟩ := List.exists_cons_of_ne_nil (splitWhere_ne_nil p cs)
    have hcons := splitWhere_cons p c cs
    split at hcons
    · rw [hcons] at h
      rcases List.mem_cons.mp h with rfl | h
      · exact List.nil_infix
      · exact hbehind h
    · rw [hsplit] at hcons hbehind
      have hfirst := isPrefix_of_splitWhere hcons
      rw [hcons] at h
      rcases List.mem_cons.mp h with rfl | h
      · exact hfirst.isInfix
      · exact hbehind (List.mem_cons_of_mem _ h)

theorem subset_of_mem_splitWhere {p : Char → Bool} {cs piece : List Char}
    (h : piece ∈ splitWhere p cs) : piece ⊆ cs := (isInfix_of_mem_splitWhere h).subset

theorem isInfix_of_mem_words {cs word : List Char} (h : word ∈ words cs) : word <:+: cs :=
  isInfix_of_mem_splitWhere (List.mem_filter.mp h).1

theorem subset_of_mem_words {cs word : List Char} (h : word ∈ words cs) : word ⊆ cs :=
  (isInfix_of_mem_words h).subset

end TypeLang.Text
