import TypeLang.Proofs.Emit.Instances

/-!
# Merged lines

Merging is a stable permutation of the lines that are wanted. Those that the text states keep the
order of their first occurrences there, whatever else stands between them, and the others follow as
they are wanted. Merging the same lines again changes nothing, and no run of merges swaps two lines
that it keeps.
-/
namespace TypeLang

open Text

section FirstOccurrences

variable {α : Type} [DecidableEq α] {as : List α} {a b : α}

/-- In a list that is sorted by a rank, elements stand in the order of their ranks. -/
theorem idxOf_lt_idxOf_iff {rank : α → Nat} (h : as.Pairwise fun a b => rank a < rank b)
    (ha : a ∈ as) (hb : b ∈ as) : as.idxOf a < as.idxOf b ↔ rank a < rank b := by
  have hrank : ∀ {a b : α}, a ∈ as → b ∈ as → as.idxOf a < as.idxOf b → rank a < rank b := by
    intro a b ha hb hlt
    have hpair := List.pairwise_iff_getElem.mp h _ _ (List.idxOf_lt_length_of_mem ha)
      (List.idxOf_lt_length_of_mem hb) hlt
    simpa only [List.getElem_idxOf] using hpair
  refine ⟨hrank ha hb, fun hlt => ?_⟩
  rcases Nat.lt_trichotomy (as.idxOf a) (as.idxOf b) with hbefore | hsame | hbehind
  · exact hbefore
  · rw [(List.idxOf_inj ha).mp hsame] at hlt
    exact absurd hlt (Nat.lt_irrefl _)
  · exact absurd (hrank hb ha hbehind) hlt.asymm

/-- Leaving elements out keeps the order of the first occurrences of the others. -/
theorem idxOf_filter_lt_iff {p : α → Bool} (ha : p a) (hb : p b) :
    (as.filter p).idxOf a < (as.filter p).idxOf b ↔ as.idxOf a < as.idxOf b := by
  induction as with
  | nil => simp
  | cons c as ih =>
    by_cases hc : p c
    · rw [List.filter_cons_of_pos hc]
      simp only [List.idxOf_cons]
      grind
    · rw [List.filter_cons_of_neg hc, ih]
      have hne : ∀ {d : α}, p d → c ≠ d := by
        rintro d hd rfl
        exact hc hd
      rw [List.idxOf_cons_ne _ (hne ha), List.idxOf_cons_ne _ (hne hb), Nat.succ_lt_succ_iff]

end FirstOccurrences

namespace Emit

/-- A line that reading a text line by line, without the blanks around the lines, gives back. -/
structure IsStatable (l : String) : Prop where
  nonempty : l.toList ≠ []
  trimmed : trim l.toList = l.toList
  unbroken : Unbroken l

instance (l : String) : Decidable (IsStatable l) :=
  decidable_of_iff (l.toList ≠ [] ∧ trim l.toList = l.toList ∧ Unbroken l)
    ⟨fun h => ⟨h.1, h.2.1, h.2.2⟩, fun h => ⟨h.nonempty, h.trimmed, h.unbroken⟩⟩

/-- Lines that can be wanted: no two are the same, and each can be read back. -/
structure IsWanted (wanted : List String) : Prop where
  nodup : wanted.Nodup
  statable : ∀ l ∈ wanted, IsStatable l

instance (wanted : List String) : Decidable (IsWanted wanted) :=
  decidable_of_iff (wanted.Nodup ∧ ∀ l ∈ wanted, IsStatable l)
    ⟨fun h => ⟨h.1, h.2⟩, fun h => ⟨h.nodup, h.statable⟩⟩

/-- The lines that are there: those that the text states, and none where there is no text. -/
def presentLines (prior : Option String) : List String := (prior.map statedLines).getD []

/-- The text of the wanted lines, merged into the text that is there. -/
def mergedText (prior : Option String) (wanted : List String) : String :=
  Code.text ((mergeLines (presentLines prior) wanted).flatMap Code.line)

/-- The text after a run of merges, one for each list of wanted lines. -/
def mergedAll (prior : Option String) (steps : List (List String)) : Option String :=
  steps.foldl (fun text wanted => some (mergedText text wanted)) prior

/-- Instantiations are written as the merge of their lines, in alphabetical order of the vectors. -/
theorem text_instancesCode (d : Direction) (prior : Option String) (vectors : List TargetType) :
    Code.text (instancesCode d prior vectors) = mergedText prior
      (((vectors.map TargetType.text).mergeSort fun a b => decide (a ≤ b)).map (instanceLine d)) :=
  rfl

/-- The lines of a merge: all that are wanted, first those that are present in the order of their
first occurrences, then the others in the order they are wanted in. -/
structure IsMerge (present wanted lines : List String) : Prop where
  perm : lines.Perm wanted
  stable : ∃ kept, lines = kept ++ wanted.filter (· ∉ present) ∧ (∀ l ∈ kept, l ∈ present) ∧
    kept.Pairwise fun a b => present.idxOf a < present.idxOf b

variable {present wanted ls : List String} {prior : Option String} {steps : List (List String)}
  {a b : String}

/-! ## One merge -/

/-- The prior lines that are still wanted stand in the order of their first occurrences. -/
theorem pairwise_idxOf_kept (present wanted : List String) :
    (distinct (present.filter (· ∈ wanted))).Pairwise
      fun a b => present.idxOf a < present.idxOf b := by
  refine (pairwise_idxOf_distinct _).imp_of_mem fun ha hb hlt => ?_
  rw [mem_distinct, List.mem_filter] at ha hb
  exact (idxOf_filter_lt_iff (p := (· ∈ wanted)) ha.2 hb.2).mp hlt

/-- What is wanted and not kept is what is wanted and not there. -/
theorem mergeLines_eq (h : wanted.Nodup) :
    mergeLines present wanted =
      distinct (present.filter (· ∈ wanted)) ++ wanted.filter (· ∉ present) := by
  have hothers : wanted.filter (· ∉ distinct (present.filter (· ∈ wanted))) =
      wanted.filter (· ∉ present) :=
    List.filter_congr fun l hl => by simp [hl]
  rw [mergeLines, hothers, distinct_of_nodup (h.sublist List.filter_sublist)]

/-- Lines are merged as a merge has to be. -/
theorem isMerge_mergeLines (h : wanted.Nodup) :
    IsMerge present wanted (mergeLines present wanted) where
  perm := (List.perm_ext_iff_of_nodup (nodup_mergeLines present wanted) h).mpr
    fun _ => mem_mergeLines
  stable := by
    refine ⟨_, mergeLines_eq h, fun l hl => ?_, pairwise_idxOf_kept present wanted⟩
    exact List.mem_of_mem_filter (mem_distinct.mp hl)

/-- Lines that are present and stay wanted keep their order. -/
theorem idxOf_mergeLines_lt_iff (h : wanted.Nodup) (ha : a ∈ present) (hb : b ∈ present)
    (hwanted : a ∈ wanted ∧ b ∈ wanted) :
    (mergeLines present wanted).idxOf a < (mergeLines present wanted).idxOf b ↔
      present.idxOf a < present.idxOf b := by
  have hkept : a ∈ distinct (present.filter (· ∈ wanted)) ∧
      b ∈ distinct (present.filter (· ∈ wanted)) := by
    simp [ha, hb, hwanted]
  rw [mergeLines_eq h, List.idxOf_append_of_mem hkept.1, List.idxOf_append_of_mem hkept.2]
  exact idxOf_lt_idxOf_iff (pairwise_idxOf_kept present wanted) hkept.1 hkept.2

/-! ## Texts of lines -/

theorem text_lines (ls : List String) :
    Code.text (ls.flatMap Code.line) = String.join (ls.map (· ++ "\n")) := by
  rw [Code.text, List.map_flatMap]
  simp [Code.line, CodeLine.text, List.map_eq_flatMap]

/-- Lines that can be read back are read back. -/
theorem statedLines_text (h : ∀ l ∈ ls, IsStatable l) :
    statedLines (Code.text (ls.flatMap Code.line)) = ls := by
  have hlines : ∀ line ∈ ls.map fun l => l.toList ++ ['\n'], IsLine line := by
    rw [List.forall_mem_map]
    exact fun l hl => ⟨l.toList, (h l hl).unbroken.newline_notMem, rfl⟩
  have hflatten : (Code.text (ls.flatMap Code.line)).toList =
      (ls.map fun l => l.toList ++ ['\n']).flatten := by
    rw [text_lines]
    simp [String.toList_join, String.toList_append, List.flatMap_def, Function.comp_def]
  refine statedLines_eq ?_ fun l hl => (h l hl).nonempty
  rw [hflatten, lines, inclusiveLines_flatten hlines, List.map_map, List.map_map]
  refine List.map_congr_left fun l hl => ?_
  simp only [Function.comp_apply]
  rw [trim_stripLineEnd, trim_append_newline, (h l hl).trimmed]

/-- After a merge the text states what was merged. -/
theorem presentLines_mergedText (h : IsWanted wanted) :
    presentLines (some (mergedText prior wanted)) = mergeLines (presentLines prior) wanted := by
  have hlines : ∀ l ∈ mergeLines (presentLines prior) wanted, IsStatable l :=
    fun l hl => h.statable l (mem_mergeLines.mp hl)
  rw [presentLines, Option.map_some, Option.getD_some, mergedText, statedLines_text hlines]

/-! ## Instantiations -/

theorem instanceLine_injective (d : Direction) : Function.Injective (instanceLine d) := by
  intro v w h
  unfold instanceLine Direction.argument at h
  cases d <;>
    simpa only [← String.toList_inj, String.toList_append, List.append_assoc,
      List.append_cancel_left_eq, List.append_cancel_right_eq] using h

/-- Instantiations of different vectors can be wanted. -/
theorem isWanted_instanceLines (d : Direction) {vectors : List String} (hnodup : vectors.Nodup)
    (h : ∀ vector ∈ vectors, Unbroken vector) : IsWanted (vectors.map (instanceLine d)) where
  nodup := hnodup.map (instanceLine_injective d)
  statable := by
    refine List.forall_mem_map.mpr fun vector hvector => ⟨fun hempty => ?_, ?_, ?_⟩
    · have hlast := (punctuated_instanceLine d (h vector hvector)).last
      simp [hempty] at hlast
    · exact trim_instanceLine d (h vector hvector)
    · exact (punctuated_instanceLine d (h vector hvector)).unbroken

/-- Generated instantiations are the merge of wanted lines into the region that is there. -/
theorem exists_isWanted_instancesCode (d : Direction) (prior : Option String)
    {vectors : List TargetType} (hnodup : (vectors.map TargetType.text).Nodup)
    (h : ∀ vector ∈ vectors, Unbroken vector.base) :
    ∃ wanted, IsWanted wanted ∧
      wanted.Perm ((vectors.map TargetType.text).map (instanceLine d)) ∧
      Code.text (instancesCode d prior vectors) = mergedText prior wanted := by
  have hsorted := List.mergeSort_perm (vectors.map TargetType.text) fun a b => decide (a ≤ b)
  refine ⟨_, isWanted_instanceLines d (hsorted.nodup_iff.mpr hnodup) fun text htext => ?_,
    hsorted.map _, text_instancesCode d prior vectors⟩
  obtain ⟨vector, hvector, rfl⟩ := List.mem_map.mp (hsorted.mem_iff.mp htext)
  exact TargetType.unbroken_text.mpr (h vector hvector)

/-! ## Runs -/

/-- Lines that all merges want stay there, in the order they have. -/
theorem mergedAll_keeps (hsteps : ∀ wanted ∈ steps, IsWanted wanted)
    (hkept : ∀ wanted ∈ steps, a ∈ wanted ∧ b ∈ wanted)
    (ha : a ∈ presentLines prior) (hb : b ∈ presentLines prior) :
    a ∈ presentLines (mergedAll prior steps) ∧ b ∈ presentLines (mergedAll prior steps) ∧
      ((presentLines (mergedAll prior steps)).idxOf a <
          (presentLines (mergedAll prior steps)).idxOf b ↔
        (presentLines prior).idxOf a < (presentLines prior).idxOf b) := by
  induction steps generalizing prior with
  | nil => exact ⟨ha, hb, Iff.rfl⟩
  | cons wanted steps ih =>
    obtain ⟨hwanted, hsteps⟩ := List.forall_mem_cons.mp hsteps
    obtain ⟨hboth, hkept⟩ := List.forall_mem_cons.mp hkept
    have hpresent : presentLines (some (mergedText prior wanted)) = _ :=
      presentLines_mergedText hwanted
    have hrest := @ih (some (mergedText prior wanted)) hsteps hkept
      (by rw [hpresent]; exact mem_mergeLines.mpr hboth.1)
      (by rw [hpresent]; exact mem_mergeLines.mpr hboth.2)
    rw [hpresent, idxOf_mergeLines_lt_iff hwanted.nodup ha hb hboth] at hrest
    exact hrest

/-- Merging is stable. The text of a merge has the wanted lines, each once: first those that the
prior text states, in the order of their first occurrences, then the others as they are wanted.
Merging them again gives the same text. In a run of merges, two lines that the text states at some
point, and that every merge from there on wants, stand in the same order at its end. What is
generated for different vectors is a merge of their instantiations. -/
theorem mergedText_stable (prior : Option String) :
    (∀ wanted, IsWanted wanted →
      (∃ lines, mergedText prior wanted = String.join (lines.map (· ++ "\n")) ∧
        IsMerge (presentLines prior) wanted lines) ∧
      mergedText (some (mergedText prior wanted)) wanted = mergedText prior wanted) ∧
    (∀ (earlier later : List (List String)) (a b : String),
      (∀ wanted ∈ later, IsWanted wanted) → (∀ wanted ∈ later, a ∈ wanted ∧ b ∈ wanted) →
      let before := presentLines (mergedAll prior earlier)
      let after := presentLines (mergedAll prior (earlier ++ later))
      a ∈ before → b ∈ before →
        a ∈ after ∧ b ∈ after ∧
          (after.idxOf a < after.idxOf b ↔ before.idxOf a < before.idxOf b)) ∧
    ∀ (d : Direction) (vectors : List TargetType), (vectors.map TargetType.text).Nodup →
      (∀ vector ∈ vectors, Unbroken vector.base) →
      ∃ wanted, IsWanted wanted ∧
        wanted.Perm ((vectors.map TargetType.text).map (instanceLine d)) ∧
        Code.text (instancesCode d prior vectors) = mergedText prior wanted := by
  refine ⟨fun wanted hwanted => ⟨⟨_, text_lines _, isMerge_mergeLines hwanted.nodup⟩, ?_⟩, ?_,
    fun d vectors hnodup hunbroken => exists_isWanted_instancesCode d prior hnodup hunbroken⟩
  · rw [mergedText, presentLines_mergedText hwanted, mergeLines_mergeLines, mergedText]
  · intro earlier later a b hlater hkept before after ha hb
    have hrun : mergedAll prior (earlier ++ later) = mergedAll (mergedAll prior earlier) later := by
      simp only [mergedAll, List.foldl_append]
    simp only [after, hrun]
    exact mergedAll_keeps hlater hkept ha hb

/-- The instantiation of one of two vectors, indented as it stands in a file. -/
def priorInstance : String := "  " ++ instanceLine .write "TLVector<TLB>" ++ "\n"

/-- Lines stand indented, twice and with carriage returns; one of them is no longer wanted. In the
run that follows a line is dropped and wanted again. Of two generated instantiations the one that is
there comes first. -/
theorem mergedText_stable_untidy :
    let prior := some "c\r\n\n  a\n obsolete\nc\n"
    let steps := [["a", "b", "c"], ["c", "a"], ["b", "a", "c"]]
    let vectors : List TargetType := [.vector (.plain "TLA"), .vector (.plain "TLB")]
    (∃ lines, mergedText prior ["a", "b", "c"] = String.join (lines.map (· ++ "\n")) ∧
      IsMerge (presentLines prior) ["a", "b", "c"] lines) ∧
    mergedText (some (mergedText prior ["a", "b", "c"])) ["a", "b", "c"] =
      mergedText prior ["a", "b", "c"] ∧
    presentLines prior = ["c", "a", "obsolete", "c"] ∧
    ((presentLines (mergedAll prior steps)).idxOf "a" <
        (presentLines (mergedAll prior steps)).idxOf "c" ↔
      (presentLines prior).idxOf "a" < (presentLines prior).idxOf "c") ∧
    mergedAll prior steps = some "c\na\nb\n" ∧
    (∃ wanted, IsWanted wanted ∧
      wanted.Perm ((vectors.map TargetType.text).map (instanceLine .write)) ∧
      Code.text (instancesCode .write (some priorInstance) vectors) =
        mergedText (some priorInstance) wanted) ∧
    Code.text (instancesCode .write (some priorInstance) vectors) =
      instanceLine .write "TLVector<TLB>" ++ "\n" ++
        instanceLine .write "TLVector<TLA>" ++ "\n" := by
  intro prior steps vectors
  have hwanted : IsWanted ["a", "b", "c"] := by decide
  have hprior : presentLines prior = ["c", "a", "obsolete", "c"] := by decide +kernel
  have hrun := (mergedText_stable prior).2.1 [] steps "a" "c" (by decide +kernel) (by decide)
    (by decide +kernel) (by decide +kernel)
  have hunbroken : ∀ vector ∈ vectors, Unbroken vector.base := by decide +kernel
  have hsorted : ((vectors.map TargetType.text).mergeSort fun a b => decide (a ≤ b)) =
      vectors.map TargetType.text := List.mergeSort_of_pairwise (by decide +kernel)
  refine ⟨((mergedText_stable prior).1 _ hwanted).1, ((mergedText_stable prior).1 _ hwanted).2,
    hprior, hrun.2.2, by decide +kernel,
    (mergedText_stable (some priorInstance)).2.2 .write vectors (by decide +kernel) hunbroken, ?_⟩
  rw [text_instancesCode, hsorted]
  decide +kernel

end Emit

end TypeLang
