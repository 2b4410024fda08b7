import TypeLang.Emit.Instances
import TypeLang.Proofs.Emit.Lines

/-!
# Instantiations in their region

The lines that a region of instantiations states are the instantiations written into it, and merging
the wanted ones with them again changes nothing.
-/
namespace TypeLang

open Text

/-- A list without repetitions keeps every element. -/
theorem distinct_of_nodup {α : Type} [DecidableEq α] {as : List α} (h : as.Nodup) :
    distinct as = as := by
  have hfrom : ∀ (as seen : List α), as.Nodup → (∀ a ∈ as, a ∉ seen) →
      distinctFrom id seen as = as := by
    intro as
    induction as with
    | nil => exact fun _ _ _ => rfl
    | cons a as ih =>
      intro seen hnodup hseen
      rw [List.nodup_cons] at hnodup
      have ha : id a ∉ seen := hseen a List.mem_cons_self
      rw [distinctFrom, if_neg ha, ih (id a :: seen) hnodup.2]
      intro b hb
      have hne : b ≠ a := fun heq => hnodup.1 (heq ▸ hb)
      simp [hne, hseen b (List.mem_cons_of_mem _ hb)]
  exact hfrom as [] h (by simp)

namespace Emit

/-! ## Merging -/

theorem nodup_mergeLines (prior wanted : List String) : (mergeLines prior wanted).Nodup := by
  rw [mergeLines, List.nodup_append]
  refine ⟨nodup_distinct, nodup_distinct, ?_⟩
  rintro line hkept other hother rfl
  have hfresh := (List.mem_filter.mp (mem_distinct.mp hother)).2
  exact of_decide_eq_true hfresh hkept

/-- Merging the same lines in again changes nothing. -/
theorem mergeLines_mergeLines (prior wanted : List String) :
    mergeLines (mergeLines prior wanted) wanted = mergeLines prior wanted := by
  have hkept : (mergeLines prior wanted).filter (· ∈ wanted) = mergeLines prior wanted := by
    rw [List.filter_eq_self]
    exact fun line hline => decide_eq_true (mem_mergeLines.mp hline)
  have hfresh : wanted.filter (· ∉ mergeLines prior wanted) = [] := by
    rw [List.filter_eq_nil_iff]
    simp [mem_mergeLines]
  have hdistinct := distinct_of_nodup (nodup_mergeLines prior wanted)
  rw [mergeLines, hkept, hdistinct, hfresh]
  simp [distinct, distinctBy, distinctFrom]

/-! ## Reading back -/

variable {indent : List Char} {ls : List String}

/-- A text states the lines that it has between the blanks around them. -/
theorem statedLines_eq {text : String}
    (hlines : (lines text.toList).map trim = ls.map String.toList)
    (hls : ∀ l ∈ ls, l.toList ≠ []) : statedLines text = ls := by
  have hstated : (ls.map String.toList).filter (fun line => !line.isEmpty) =
      ls.map String.toList := by
    rw [List.filter_eq_self, List.forall_mem_map]
    exact fun l hl => by simp [hls l hl]
  simp only [statedLines, hlines, hstated, List.map_map]
  simp

/-- The lines of a region state what was written into it. -/
theorem statedLines_written (hindent : ∀ c ∈ indent, isBlank c) (hbreak : '\n' ∉ indent)
    (hls : ∀ l ∈ ls, Punctuated l ∧ trim l.toList = l.toList) :
    statedLines (String.ofList (dedentBlock indent (indentBlock indent
      (Code.text (ls.flatMap Code.line)).toList))) = ls := by
  have hcode : Code.IsPunctuated (ls.flatMap Code.line) := by
    rw [Code.punctuated_flatMap]
    exact fun l hl => Code.punctuated_line.mpr (hls l hl).1
  have hlines := Code.inclusiveLines_text hcode
  have hclosed : ∀ l ∈ inclusiveLines (Code.text (ls.flatMap Code.line)).toList, IsLine l := by
    rw [hlines, List.forall_mem_map]
    exact fun line hline => (Code.isLine_of_mem hcode hline).1
  have htrimmed : (inclusiveLines (Code.text (ls.flatMap Code.line)).toList).map trim =
      ls.map String.toList := by
    have hmap : ls.flatMap Code.line = ls.map (CodeLine.code 0) := List.map_eq_flatMap.symm
    rw [hlines, hmap, List.map_map, List.map_map]
    refine List.map_congr_left fun l hl => ?_
    simp only [Function.comp_apply]
    rw [Code.toList_text_code, ← List.append_assoc, trim_append_newline]
    exact (hls l hl).2
  apply statedLines_eq
  · rw [String.toList_ofList, map_trim_lines_dedentBlock hindent hbreak hclosed, htrimmed]
  · intro l hl hempty
    have hlast := (hls l hl).1.last
    simp [hempty] at hlast

/-- There are no blanks around an instantiation. -/
theorem trim_instanceLine (d : Direction) {vector : String} (h : Unbroken vector) :
    trim (instanceLine d vector).toList = (instanceLine d vector).toList := by
  have hopen : "template CTelegramStream &CTelegramStream::operator".toList.head? = some 't' := by
    decide
  have hhead : (instanceLine d vector).toList.head? = some 't' := by
    unfold instanceLine
    simp only [String.toList_append, List.append_assoc, List.head?_append, hopen, Option.some_or]
  have hlast := (punctuated_instanceLine d h).last
  cases hc : (instanceLine d vector).toList.getLast? with
  | none => simp [hc] at hlast
  | some c =>
    simp only [hc, Option.any_some, decide_eq_true_eq] at hlast
    exact trim_of_head?_of_getLast? hhead (by decide) hc (isBlank_of_mem_punctuation c hlast)

/-- Instantiations that are generated over their own region stay what they are. -/
theorem instancesCode_written (d : Direction) (prior : Option String) {vectors : List TargetType}
    (h : ∀ vector ∈ vectors, Unbroken vector.base) (hindent : ∀ c ∈ indent, isBlank c)
    (hbreak : '\n' ∉ indent) :
    instancesCode d (some (String.ofList (dedentBlock indent (indentBlock indent
      (Code.text (instancesCode d prior vectors)).toList)))) vectors =
        instancesCode d prior vectors := by
  have hstated : ∀ l ∈ mergeLines ((prior.map statedLines).getD [])
      (((vectors.map TargetType.text).mergeSort fun a b => decide (a ≤ b)).map (instanceLine d)),
      Punctuated l ∧ trim l.toList = l.toList := by
    intro l hl
    obtain ⟨_, hspelled, rfl⟩ := List.mem_map.mp (mem_mergeLines.mp hl)
    obtain ⟨vector, hvector, rfl⟩ := List.mem_map.mp (List.mem_mergeSort.mp hspelled)
    have hunbroken := TargetType.unbroken_text.mpr (h vector hvector)
    exact ⟨punctuated_instanceLine d hunbroken, trim_instanceLine d hunbroken⟩
  simp only [instancesCode, Option.map_some, Option.getD_some]
  rw [statedLines_written hindent hbreak hstated, mergeLines_mergeLines]

end Emit

end TypeLang
