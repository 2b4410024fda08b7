import TypeLang.Proofs.Text.Tokens

/-!
# Respacing

How texts are spaced: `collapse` puts one space in place of each run of blanks. Cutting a text at
characters that are not blank goes on as before, the pieces being collapsed too, and a text keeps
its words. A trimmed text, collapsed, is its words with one space between neighbours, so texts with
the same words differ in spacing only.
-/
namespace TypeLang.Text

variable {c mark : Char} {cs word rest : List Char}

/-- Whether a text starts with a blank. -/
def startsBlank (cs : List Char) : Bool := cs.head?.any isBlank

/-- The text with one space for each run of blanks. -/
def collapse : List Char → List Char
  | [] => []
  | c :: cs =>
    if isBlank c then if startsBlank cs then collapse cs else ' ' :: collapse cs
    else c :: collapse cs

@[simp] theorem collapse_nil : collapse [] = [] := rfl

theorem collapse_cons_blank (hc : isBlank c) (cs : List Char) :
    collapse (c :: cs) = if startsBlank cs then collapse cs else ' ' :: collapse cs := if_pos hc

theorem collapse_cons_solid (hc : isBlank c = false) (cs : List Char) :
    collapse (c :: cs) = c :: collapse cs := if_neg (by simp [hc])

theorem head?_collapse (cs : List Char) :
    (collapse cs).head? = cs.head?.map fun c => if isBlank c then ' ' else c := by
  induction cs with
  | nil => rfl
  | cons c cs ih =>
    simp only [collapse, List.head?_cons, Option.map_some]
    split
    · split
      · next hcs =>
        cases cs with
        | nil => cases hcs
        | cons d cs =>
          have hd : isBlank d := hcs
          rw [ih, List.head?_cons, Option.map_some, if_pos hd]
      · rfl
    · rfl

theorem startsBlank_collapse (cs : List Char) : startsBlank (collapse cs) = startsBlank cs := by
  have hspace : isBlank ' ' := by decide
  rw [startsBlank, startsBlank, head?_collapse]
  cases cs.head? with
  | none => rfl
  | some c => cases hc : isBlank c <;> simp [hc, hspace]

/-- A mark stands first, or last, in a text just when it does in the collapsed text. -/
theorem map_space_eq_some_iff (hmark : isBlank mark = false) (c? : Option Char) :
    (c?.map fun c => if isBlank c then ' ' else c) = some mark ↔ c? = some mark := by
  have hspace : mark ≠ ' ' := by
    rintro rfl
    exact absurd hmark (by decide)
  cases c? with
  | none => simp
  | some c =>
    cases hc : isBlank c with
    | true =>
      have hne : c ≠ mark := by
        rintro rfl
        rw [hc] at hmark
        cases hmark
      simp [hc, hspace.symm, hne]
    | false => simp [hc]

/-- What stands in front of a character that is not blank is collapsed apart from what stands
behind it. -/
theorem collapse_append_cons (hc : isBlank c = false) (xs ys : List Char) :
    collapse (xs ++ c :: ys) = collapse xs ++ c :: collapse ys := by
  induction xs with
  | nil => exact collapse_cons_solid hc ys
  | cons x xs ih =>
    have hstarts : startsBlank (xs ++ c :: ys) = startsBlank xs := by
      cases xs <;> simp [startsBlank, hc]
    simp only [List.cons_append, collapse, hstarts, ih]
    split
    · split <;> simp
    · rfl

theorem collapse_append_of_solid (hword : ∀ c ∈ word, isBlank c = false) (cs : List Char) :
    collapse (word ++ cs) = word ++ collapse cs := by
  induction word with
  | nil => rfl
  | cons c word ih =>
    obtain ⟨hc, hword⟩ := List.forall_mem_cons.mp hword
    rw [List.cons_append, collapse_cons_solid hc, ih hword, List.cons_append]

theorem collapse_of_solid (h : ∀ c ∈ cs, isBlank c = false) : collapse cs = cs := by
  simpa using collapse_append_of_solid h []

theorem collapse_eq_nil_iff : collapse cs = [] ↔ cs = [] := by
  induction cs with
  | nil => simp
  | cons c cs ih =>
    simp only [collapse, reduceCtorEq, iff_false]
    split
    · split
      · next hcs =>
        rw [ih]
        rintro rfl
        cases hcs
      · simp
    · simp

theorem mem_collapse_iff (hmark : isBlank mark = false) : mark ∈ collapse cs ↔ mark ∈ cs := by
  induction cs with
  | nil => simp
  | cons c cs ih =>
    cases hc : isBlank c with
    | true =>
      have hne : mark ≠ c := fun h => by simp [h, hc] at hmark
      have hspace : mark ≠ ' ' := fun h => absurd hmark (by rw [h]; decide)
      rw [collapse_cons_blank hc]
      split <;> simp [ih, hne, hspace]
    | false => rw [collapse_cons_solid hc, List.mem_cons, List.mem_cons, ih]

theorem getLast?_collapse (cs : List Char) :
    (collapse cs).getLast? = cs.getLast?.map fun c => if isBlank c then ' ' else c := by
  induction cs with
  | nil => rfl
  | cons c cs ih =>
    simp only [collapse]
    split
    · next hc =>
      split
      · cases cs with
        | nil => simp_all [startsBlank]
        | cons d cs => rw [ih, List.getLast?_cons_cons]
      · rw [List.getLast?_cons, List.getLast?_cons, ih, Option.map_some]
        cases cs.getLast? <;> simp [hc]
    · next hc =>
      rw [List.getLast?_cons, List.getLast?_cons, ih, Option.map_some]
      cases cs.getLast? <;> simp [hc]

/-! ## Cutting at marks -/

/-- Cutting at a mark and collapsing blanks commute. -/
theorem cut?_collapse (hmark : isBlank mark = false) (cs : List Char) :
    cut? mark (collapse cs) = (cut? mark cs).map fun cut => (collapse cut.1, collapse cut.2) := by
  cases hcut : cut? mark cs with
  | none =>
    rw [Option.map_none, cut?_eq_none_iff, mem_collapse_iff hmark]
    exact cut?_eq_none_iff.mp hcut
  | some cut =>
    have hfront : mark ∉ collapse cut.1 := fun hmem =>
      notMem_of_cut? hcut ((mem_collapse_iff hmark).mp hmem)
    rw [append_of_cut? hcut, collapse_append_cons hmark, cut?_append hfront, Option.map_some]

theorem dropLast?_collapse (hmark : isBlank mark = false) (cs : List Char) :
    dropLast? mark (collapse cs) = (dropLast? mark cs).map collapse := by
  cases hlast : dropLast? mark cs with
  | none =>
    have hcs : cs.getLast? ≠ some mark := by
      intro hcs
      rw [dropLast?, if_pos hcs] at hlast
      cases hlast
    rw [dropLast?, getLast?_collapse, if_neg (by rwa [map_space_eq_some_iff hmark]),
      Option.map_none]
  | some rest =>
    rw [append_of_dropLast? hlast, collapse_append_cons hmark, collapse_nil, dropLast?_concat,
      Option.map_some]

/-- Splitting at marks and collapsing blanks commute. -/
theorem splitWhere_collapse (hmark : isBlank mark = false) (cs : List Char) :
    splitWhere (· == mark) (collapse cs) = (splitWhere (· == mark) cs).map collapse := by
  have hpieces : ∀ pieces : List (List Char), (∀ piece ∈ pieces, mark ∉ piece) → pieces ≠ [] →
      splitWhere (· == mark) (collapse (joinWith [mark] pieces)) = pieces.map collapse := by
    intro pieces
    induction pieces with
    | nil => exact fun _ h => absurd rfl h
    | cons piece pieces ih =>
      intro hmem _
      obtain ⟨hpiece, hrest⟩ := List.forall_mem_cons.mp hmem
      have hsolid : ∀ c ∈ collapse piece, (c == mark) = false := fun c hc => by
        rw [beq_eq_false_iff_ne]
        rintro rfl
        exact hpiece ((mem_collapse_iff hmark).mp hc)
      by_cases hempty : pieces = []
      · rw [hempty, joinWith, List.intercalate_singleton, splitWhere_of_forall hsolid]
        rfl
      · rw [joinWith, List.intercalate_cons_of_ne_nil hempty, List.append_assoc,
          List.singleton_append, collapse_append_cons hmark, splitWhere_append_cons (by simp),
          splitWhere_of_forall hsolid, ← joinWith, ih hrest hempty]
        rfl
  have hmem : ∀ piece ∈ splitWhere (· == mark) cs, mark ∉ piece := fun piece hpiece hmark => by
    simpa using not_of_mem_splitWhere hpiece mark hmark
  conv => lhs; rw [← joinWith_splitWhere mark cs]
  exact hpieces _ hmem (splitWhere_ne_nil _ cs)

/-! ## Dropping at the end -/

theorem dropEndWhile_concat (p : Char → Bool) (cs : List Char) (c : Char) :
    dropEndWhile p (cs ++ [c]) = if p c then dropEndWhile p cs else cs ++ [c] :=
  List.rdropWhile_concat p cs c

/-- Dropping marks at the end and collapsing blanks commute. -/
theorem dropEndWhile_collapse (hmark : isBlank mark = false) (cs : List Char) :
    dropEndWhile (· == mark) (collapse cs) = collapse (dropEndWhile (· == mark) cs) := by
  induction cs using List.reverseRecOn with
  | nil => rfl
  | append_singleton cs c ih =>
    rw [dropEndWhile_concat]
    by_cases hc : c = mark
    · rw [hc, collapse_append_cons hmark, collapse_nil, dropEndWhile_concat, beq_self_eq_true,
        if_pos rfl, if_pos rfl, ih]
    · have hlast : (collapse (cs ++ [c])).getLast? = some (if isBlank c then ' ' else c) := by
        rw [getLast?_collapse, List.getLast?_concat, Option.map_some]
      have hne : ((if isBlank c then ' ' else c) == mark) = false := by
        rw [beq_eq_false_iff_ne]
        split
        · rintro rfl
          exact absurd hmark (by decide)
        · exact hc
      obtain ⟨front, hfront⟩ := List.getLast?_eq_some_iff.mp hlast
      rw [beq_eq_false_iff_ne.mpr hc, if_neg Bool.false_ne_true, hfront, dropEndWhile_concat, hne,
        if_neg Bool.false_ne_true]

/-! ## Words -/

/-- A word in front of a blank is the first word. -/
theorem IsToken.words_append (hword : IsToken word) (hrest : startsBlank rest) :
    words (word ++ rest) = word :: words rest := by
  cases rest with
  | nil => cases hrest
  | cons c cs =>
    have hc : isBlank c := hrest
    rw [words_append_cons_blank hc, words_cons_blank hc, hword.words_eq]
    rfl

/-- A text is empty, or it starts with a blank, or it is a word, or it starts with a word in front
of a blank. -/
theorem word_induction {P : List Char → Prop} (nil : P [])
    (blank : ∀ c cs, isBlank c → P cs → P (c :: cs)) (last : ∀ word, IsToken word → P word)
    (word : ∀ word rest, IsToken word → startsBlank rest → P rest → P (word ++ rest))
    (cs : List Char) : P cs := by
  induction h : cs.length using Nat.strongRecOn generalizing cs with
  | ind n ih =>
    cases cs with
    | nil => exact nil
    | cons c cs =>
      subst h
      cases hc : isBlank c with
      | true => exact blank c cs hc (ih _ (by simp) cs rfl)
      | false =>
        have hsplit : c :: cs = (c :: cs.takeWhile (!isBlank ·)) ++ cs.dropWhile (!isBlank ·) := by
          rw [List.cons_append, List.takeWhile_append_dropWhile]
        have htoken : IsToken (c :: cs.takeWhile (!isBlank ·)) :=
          ⟨by simp, List.forall_mem_cons.mpr ⟨hc, fun d hd => by
            simpa using List.mem_takeWhile_imp hd⟩⟩
        have hshort : (cs.dropWhile (!isBlank ·)).length < (c :: cs).length :=
          Nat.lt_succ_of_le (List.dropWhile_sublist _).length_le
        rw [hsplit]
        cases hrest : cs.dropWhile (!isBlank ·) with
        | nil => simpa using last _ htoken
        | cons d rest =>
          have hd := List.head?_dropWhile_not (!isBlank ·) cs
          rw [hrest] at hd hshort
          have hd : isBlank d := by simpa using hd
          exact word _ _ htoken hd (ih _ hshort _ rfl)

/-- Collapsing blanks keeps the words. -/
theorem words_collapse (cs : List Char) : words (collapse cs) = words cs := by
  induction cs using word_induction with
  | nil => rw [collapse_nil]
  | blank c cs hc ih =>
    rw [collapse_cons_blank hc, words_cons_blank hc]
    split
    · exact ih
    · rw [words_cons_blank (by decide), ih]
  | last word hword => rw [collapse_of_solid hword.solid]
  | word word rest hword hrest ih =>
    have hstarts : startsBlank (collapse rest) := by rw [startsBlank_collapse, hrest]
    rw [collapse_append_of_solid hword.solid, hword.words_append hstarts, ih,
      hword.words_append hrest]

/-- A text has no words exactly when it is blank. -/
theorem words_eq_nil_iff : words cs = [] ↔ ∀ c ∈ cs, isBlank c := by
  induction cs using word_induction with
  | nil => simp
  | blank c cs hc ih => rw [words_cons_blank hc, ih, List.forall_mem_cons, and_iff_right hc]
  | last word hword =>
    obtain ⟨c, hhead, hc⟩ := hword.head?
    rw [hword.words_eq]
    refine iff_of_false (by simp) fun hall => ?_
    rw [hall c (List.mem_of_head? hhead)] at hc
    cases hc
  | word word rest hword hrest ih =>
    obtain ⟨c, hhead, hc⟩ := hword.head?
    rw [hword.words_append hrest]
    refine iff_of_false (by simp) fun hall => ?_
    rw [hall c (List.mem_append_left _ (List.mem_of_head? hhead))] at hc
    cases hc

/-- A text that does not end with a blank is its words with one space between neighbours, when it
is collapsed; a space may stand in front. -/
theorem collapse_of_getLast? (h : ∀ c, cs.getLast? = some c → isBlank c = false) :
    collapse cs = (if startsBlank cs then [' '] else []) ++ joinWith [' '] (words cs) := by
  induction cs using word_induction with
  | nil => rfl
  | blank c cs hc ih =>
    have hcs : cs ≠ [] := by
      rintro rfl
      rw [h c rfl] at hc
      cases hc
    have hlast : (c :: cs).getLast? = cs.getLast? := by
      obtain ⟨d, rest, rfl⟩ := List.exists_cons_of_ne_nil hcs
      rw [List.getLast?_cons_cons]
    have hstarts : startsBlank (c :: cs) := hc
    rw [collapse_cons_blank hc, words_cons_blank hc, ih (hlast ▸ h), hstarts, if_pos rfl]
    split <;> rfl
  | last word hword =>
    obtain ⟨c, hhead, hc⟩ := hword.head?
    rw [collapse_of_solid hword.solid, hword.words_eq, startsBlank, hhead, Option.any_some, hc,
      joinWith, List.intercalate_singleton]
    rfl
  | word word rest hword hrest ih =>
    obtain ⟨c, hhead, hc⟩ := hword.head?
    obtain ⟨d, cs, rfl⟩ : ∃ d cs, rest = d :: cs :=
      List.exists_cons_of_ne_nil (by rintro rfl; cases hrest)
    have hlast : ∀ e, (d :: cs).getLast? = some e → isBlank e = false := by
      rwa [List.getLast?_append_of_ne_nil _ (by simp)] at h
    -- The rest ends with a character that is not blank, so another word follows.
    have hne : words (d :: cs) ≠ [] := by
      rw [ne_eq, words_eq_nil_iff]
      intro hall
      have hsolid := hlast _ (List.getLast?_eq_some_getLast (List.cons_ne_nil d cs))
      rw [hall _ (List.getLast_mem _)] at hsolid
      cases hsolid
    have hstarts : startsBlank (word ++ d :: cs) = false := by
      rw [startsBlank, List.head?_append, hhead]
      exact hc
    rw [collapse_append_of_solid hword.solid, ih hlast, hword.words_append hrest, hrest, hstarts,
      joinWith, joinWith, List.intercalate_cons_of_ne_nil hne]
    simp

/-- Blanks around a text are in no word. -/
theorem words_trim (cs : List Char) : words (trim cs) = words cs := by
  have hstart : ∀ cs, words (trimStart cs) = words cs := by
    intro cs
    induction cs with
    | nil => rfl
    | cons c cs ih =>
      rw [trimStart, List.dropWhile_cons]
      split
      · next hc => rw [words_cons_blank hc, ← ih, trimStart]
      · rfl
  have hend : ∀ cs, words (trimEnd cs) = words cs := by
    intro cs
    induction cs using List.reverseRecOn with
    | nil => rfl
    | append_singleton cs c ih =>
      rw [trimEnd, dropEndWhile_concat]
      split
      · next hc => rw [words_append_cons_blank hc, words_nil, List.append_nil, ← ih, trimEnd]
      · rfl
  rw [trim, hend, hstart]

theorem startsBlank_trim (cs : List Char) : startsBlank (trim cs) = false := by
  by_cases hnil : trim cs = []
  · rw [hnil]
    rfl
  · obtain ⟨c, hhead, hc⟩ := exists_head?_trim hnil
    rw [startsBlank, hhead]
    exact hc

/-- A trimmed text, collapsed, is its words with one space between neighbours. -/
theorem collapse_trim (cs : List Char) : collapse (trim cs) = joinWith [' '] (words cs) := by
  have hlast : ∀ c, (trim cs).getLast? = some c → isBlank c = false := by
    intro c hc
    have hne : trim cs ≠ [] := by
      intro hnil
      rw [hnil] at hc
      cases hc
    obtain ⟨d, hd, hsolid⟩ := exists_getLast?_trim hne
    rwa [Option.some.inj (hc.symm.trans hd)]
  rw [collapse_of_getLast? hlast, startsBlank_trim, words_trim]
  rfl

end TypeLang.Text
