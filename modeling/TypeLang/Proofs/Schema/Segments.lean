import Mathlib
import TypeLang.Proofs.Schema.Scan

/-!
# Semicolons

A semicolon closes a definition at the end of a line. Inside a line it does not: what stands behind
it goes into the result type of the definition in front, and a second definition there is lost. How
many are lost can be counted. Cut at its semicolons, the text has as many pieces that are not blank
as the sources of its definitions have together, so no definition is lost exactly when every source
is one piece.
-/
namespace TypeLang

open Text

/-- The pieces between semicolons that are not blank. -/
def segments (cs : List Char) : List (List Char) :=
  (splitWhere (· == ';') cs).filter fun piece => !(trim piece).isEmpty

/-! ## Counting pieces from left to right -/

/-- Whether a piece that is not blank has begun, behind the next character. -/
def inPiece (inside : Bool) (c : Char) : Bool := c != ';' && (inside || !isBlank c)

/-- How many pieces begin in a text; `inside` says whether one has begun in front of it. -/
def begun : Bool → List Char → Nat
  | _, [] => 0
  | inside, c :: cs =>
    (if inPiece inside c && !inside then 1 else 0) + begun (inPiece inside c) cs

section Begun

variable {inside : Bool} {c : Char} {cs : List Char}

theorem begun_append (inside : Bool) (cs ds : List Char) :
    begun inside (cs ++ ds) = begun inside cs + begun (cs.foldl inPiece inside) ds := by
  induction cs generalizing inside with
  | nil => simp [begun]
  | cons c cs ih => rw [List.cons_append, begun, ih, begun, List.foldl_cons, Nat.add_assoc]

theorem inPiece_of_blank (h : isBlank c) (inside : Bool) : inPiece inside c = inside := by
  have hne : c ≠ ';' := by
    rintro rfl
    exact absurd h (by decide)
  simp [inPiece, h, hne]

theorem inPiece_semicolon (inside : Bool) : inPiece inside ';' = false := rfl

theorem inPiece_of_not_blank (h : isBlank c = false) (hne : c ≠ ';') (inside : Bool) :
    inPiece inside c = true := by
  simp [inPiece, h, hne]

theorem begun_blank_cons (h : isBlank c) (inside : Bool) (cs : List Char) :
    begun inside (c :: cs) = begun inside cs := by
  rw [begun, inPiece_of_blank h]
  cases inside <;> simp

/-- Blanks do not count. -/
theorem begun_filter (inside : Bool) (cs : List Char) :
    begun inside (cs.filter fun c => !isBlank c) = begun inside cs := by
  induction cs generalizing inside with
  | nil => rfl
  | cons c cs ih =>
    cases hblank : isBlank c with
    | true => rw [List.filter_cons_of_neg (by simp [hblank]), ih, begun_blank_cons hblank]
    | false => rw [List.filter_cons_of_pos (by simp [hblank]), begun, begun, ih]

/-- Where the last character is not blank it says whether the text ends inside a piece. -/
theorem foldl_inPiece_of_getLast? (hlast : cs.getLast? = some c) (hc : isBlank c = false) :
    cs.foldl inPiece inside = (c != ';') := by
  obtain ⟨front, rfl⟩ := List.getLast?_eq_some_iff.mp hlast
  simp [inPiece, hc]

/-- Inside a piece no other one begins before a semicolon. -/
theorem begun_true_of_notMem (h : ';' ∉ cs) : begun true cs = 0 := by
  induction cs with
  | nil => rfl
  | cons c cs ih =>
    rw [List.mem_cons, not_or] at h
    have hc : inPiece true c = true := by simp [inPiece, Ne.symm h.1]
    rw [begun, hc, ih h.2]
    rfl

theorem one_le_begun (hmem : c ∈ cs) (hblank : isBlank c = false) (hne : c ≠ ';') :
    1 ≤ begun false cs := by
  induction cs with
  | nil => cases hmem
  | cons d cs ih =>
    rw [begun]
    cases hd : inPiece false d with
    | true => simp
    | false =>
      rcases List.mem_cons.mp hmem with rfl | hmem
      · rw [inPiece_of_not_blank hblank hne] at hd
        cases hd
      · simpa using ih hmem

/-- The first piece counts where it is not blank, unless it has begun before. -/
theorem begun_eq {piece : List Char} {rest : List (List Char)}
    (h : splitWhere (· == ';') cs = piece :: rest) :
    begun inside cs = (if inside || (trim piece).isEmpty then 0 else 1) +
      (rest.filter fun piece => !(trim piece).isEmpty).length := by
  induction cs generalizing inside piece rest with
  | nil =>
    obtain ⟨rfl, rfl⟩ := List.cons.inj h
    simp [begun]
  | cons c cs ih =>
    rw [splitWhere_cons] at h
    split at h
    · next hc =>
      obtain rfl := eq_of_beq hc
      obtain ⟨rfl, rfl⟩ := List.cons.inj h
      obtain ⟨first, others, hsplit⟩ := List.exists_cons_of_ne_nil (splitWhere_ne_nil (· == ';') cs)
      rw [begun, inPiece_semicolon, ih hsplit, hsplit, List.filter_cons]
      cases (trim first).isEmpty <;> simp [Nat.add_comm]
    · next hc =>
      split at h
      · next hnil => exact absurd hnil (splitWhere_ne_nil _ cs)
      · next first others hsplit =>
        obtain ⟨rfl, rfl⟩ := List.cons.inj h
        cases hblank : isBlank c with
        | true =>
          have htrim : trim (c :: first) = trim first :=
            trim_blank_append (List.forall_mem_singleton.mpr hblank) first
          rw [begun_blank_cons hblank, ih hsplit, htrim]
        | false =>
          have htrim : (trim (c :: first)).isEmpty = false := by
            rw [List.isEmpty_eq_false_iff]
            exact List.ne_nil_of_mem (mem_trim List.mem_cons_self hblank)
          rw [begun, inPiece_of_not_blank hblank (by simpa using hc), ih hsplit, htrim]
          cases inside <;> simp

theorem length_segments (cs : List Char) : (segments cs).length = begun false cs := by
  obtain ⟨piece, rest, h⟩ := List.exists_cons_of_ne_nil (splitWhere_ne_nil (· == ';') cs)
  rw [begun_eq h, segments, h, List.filter_cons]
  cases (trim piece).isEmpty <;> simp [Nat.add_comm]

end Begun

/-! ## Pieces of statements -/

/-- The text of a schema without comments and separator lines. -/
def statedText (text : String) : List Char :=
  joinWith ['\n'] <| ((Document.rawLines text).map Document.stripComment).filter fun line =>
    (Document.separator? (trim line)).isNone

/-- The text that a definition was read from. -/
def Definition.sourceChars (d : Definition) : List Char := (d.source.getD "").toList

namespace Document

variable {category : Category} {unclosed? : Option Unclosed} {line : Nat} {content : List Char}
  {entries : List (Nat × List Char)}

/-- What lines say, separators left out. -/
def stated (contents : List (List Char)) : List Char :=
  (contents.filter fun content => (separator? content).isNone).flatten

theorem stated_cons (content : List Char) (contents : List (List Char)) :
    stated (content :: contents) =
      (if (separator? content).isNone then content else []) ++ stated contents := by
  simp only [stated, List.filter_cons]
  split <;> simp

/-- A separator has no semicolon. -/
theorem semicolon_notMem_separator {category : Category} (h : separator? content = some category) :
    ';' ∉ content := by
  simp only [separator?] at h
  split at h
  · next heq => exact heq ▸ by decide
  · split at h
    · next heq => exact heq ▸ by decide
    · cases h

/-- The pieces of a statement that is left open. -/
def begunOpen (unclosed? : Option Unclosed) : Nat :=
  unclosed?.elim 0 fun unclosed => begun false unclosed.text

/-- What is left open ends inside a piece. -/
def EndsInside (unclosed? : Option Unclosed) : Prop :=
  ∀ unclosed ∈ unclosed?, unclosed.text.foldl inPiece false = true

/-- A line adds the pieces that it begins to an open statement. -/
theorem begun_extend (h : EndsInside unclosed?) (line : Nat) (content : List Char) :
    begun false (extend unclosed? line content).text =
      begunOpen unclosed? + begun unclosed?.isSome content := by
  cases unclosed? with
  | none => simp [extend, begunOpen]
  | some unclosed =>
    rw [extend, begun_append, h unclosed rfl, begun_blank_cons (by decide)]
    rfl

theorem foldl_extend {c : Char} (hlast : content.getLast? = some c) (hc : isBlank c = false)
    (unclosed? : Option Unclosed) (line : Nat) :
    (extend unclosed? line content).text.foldl inPiece false = (c != ';') :=
  foldl_inPiece_of_getLast? (getLast?_extend hlast) hc

/-- Where a line is taken into a definition, leaving a separator out makes no difference. -/
theorem begun_stated_cons {c : Char} (hlast : content.getLast? = some c) (hc : isBlank c = false)
    (htaken : unclosed? = none → separator? content = none) (contents : List (List Char)) :
    begun unclosed?.isSome (stated (content :: contents)) =
      begun unclosed?.isSome content + begun (c != ';') (stated contents) := by
  rw [stated_cons]
  cases hseparator : separator? content with
  | none =>
    rw [Option.isNone_none, if_pos rfl, begun_append, foldl_inPiece_of_getLast? hlast hc]
  | some category =>
    have hsemicolon := semicolon_notMem_separator hseparator
    have hopen : unclosed?.isSome = true := by
      cases unclosed? with
      | none => simp [htaken rfl] at hseparator
      | some unclosed => rfl
    have hne : (c != ';') = true := by
      rw [bne_iff_ne]
      rintro rfl
      exact hsemicolon (List.mem_of_getLast? hlast)
    rw [hopen, begun_true_of_notMem hsemicolon, hne]
    simp

/-- A line that is taken into a definition is no separator, unless the definition is open. -/
theorem separator?_of_taken
    (h : ∀ category, unclosed? = none → separator? content = some category → False) :
    unclosed? = none → separator? content = none := fun hopen =>
  Option.eq_none_iff_forall_ne_some.mpr fun category => h category hopen

theorem sourceChars_of_readStatement {text : List Char} {d : Definition}
    (h : readStatement category text = .ok d) : d.sourceChars = text := by
  simp only [readStatement, map_eq_ok] at h
  obtain ⟨d, -, rfl⟩ := h
  exact String.toList_ofList

/-- Every piece of the statements is a piece of the source of one definition. -/
theorem sum_begun_source
    (hentries : ∀ entry ∈ entries, ∃ c, entry.2.getLast? = some c ∧ isBlank c = false)
    (hunclosed : EndsInside unclosed?)
    (herror : (readStatements category unclosed? entries).error = none) :
    ((readStatements category unclosed? entries).definitions.map
        fun d => begun false d.sourceChars).sum =
      begunOpen unclosed? + begun unclosed?.isSome (stated (entries.map (·.2))) := by
  have hnone : EndsInside none := by simp [EndsInside]
  fun_induction readStatements category unclosed? entries with
  | case1 => rfl
  | case2 => cases herror
  | case3 _ line content rest category' hseparator ih =>
    rw [ih (fun entry he => hentries entry (List.mem_cons_of_mem _ he)) hnone herror,
      List.map_cons, stated_cons, hseparator]
    rfl
  | case4 category unclosed? line content rest unclosed hlast d hread htaken ih =>
    simp only [hlast, if_true] at herror ⊢
    rw [hread] at herror ⊢
    have hrest := ih (fun entry he => hentries entry (List.mem_cons_of_mem _ he)) hnone herror
    have hseparator := separator?_of_taken htaken
    simp only [Reading.cons, List.map_cons, List.sum_cons, hrest,
      sourceChars_of_readStatement hread, unclosed, begun_extend hunclosed,
      begun_stated_cons hlast (by decide) hseparator, begunOpen, Option.elim_none]
    simp [Nat.add_assoc]
  | case5 category unclosed? line content rest unclosed hlast cause hread htaken =>
    simp only [hlast, if_true] at herror
    rw [hread] at herror
    cases herror
  | case6 category unclosed? line content rest unclosed hlast htaken ih =>
    -- The last character is neither blank nor a semicolon, so the definition ends inside a piece.
    simp only [hlast, if_false] at herror ⊢
    obtain ⟨c, hc, hblank⟩ := hentries (line, content) List.mem_cons_self
    have hne : (c != ';') = true := by
      rw [bne_iff_ne]
      rintro rfl
      exact hlast hc
    have hinside : EndsInside (some unclosed) := by
      rintro _ ⟨⟩
      rw [foldl_extend hc hblank, hne]
    have hseparator := separator?_of_taken htaken
    rw [ih (fun entry he => hentries entry (List.mem_cons_of_mem _ he)) hinside herror,
      List.map_cons, begun_stated_cons hc hblank hseparator, hne]
    simp only [begunOpen, Option.elim_some, unclosed, begun_extend hunclosed, Nat.add_assoc]
    rfl

/-- What lines say has the pieces of the text itself. -/
theorem begun_statedText (text : String) :
    begun false (statedText text) =
      begun false (stated ((statementsFrom 1 (rawLines text)).map (·.2))) := by
  have hjoin : ∀ ls, (joinWith ['\n'] ls).filter (fun c => !isBlank c) =
      ((ls.map trim).flatten).filter fun c => !isBlank c := by
    intro ls
    induction ls with
    | nil => rfl
    | cons line ls ih =>
      rw [List.map_cons, List.flatten_cons, List.filter_append, filter_trim]
      by_cases hls : ls = []
      · simp [hls, joinWith]
      · rw [joinWith, List.intercalate_cons_of_ne_nil hls, ← joinWith, List.filter_append,
          List.filter_append, ih, List.filter_cons_of_neg (by decide), List.filter_nil,
          List.append_nil]
  have hlines : (((rawLines text).map stripComment).filter fun line =>
      (separator? (trim line)).isNone).map trim =
        ((rawLines text).map content).filter fun content => (separator? content).isNone := by
    rw [List.filter_map, List.filter_map, List.map_map]
    rfl
  rw [statedText, ← begun_filter, hjoin, begun_filter, hlines, map_snd_statementsFrom, stated,
    List.filter_comm, List.flatten_filter_not_isEmpty]

end Document

open Document

/-- A definition has an equality sign, so its source is not blank. -/
theorem one_le_segments_source {text : String} {ds : List Definition}
    (h : readSchema text = .ok ds) {d : Definition} (hd : d ∈ ds) :
    1 ≤ (segments d.sourceChars).length := by
  obtain ⟨category, statement, -, hread⟩ := exists_statement h hd
  rw [sourceChars_of_readStatement hread, length_segments]
  simp only [readStatement, map_eq_ok] at hread
  obtain ⟨d, hread, rfl⟩ := hread
  obtain ⟨left, right, hcut, -⟩ := Definition.read_eq_ok hread
  have hequal : '=' ∈ statement := Definition.subset_body statement (mem_of_cut? hcut)
  exact one_le_begun hequal (by decide) (by decide)

/-- Numbers that are all positive add up to their count only where each of them is one. -/
theorem length_eq_sum_iff {ns : List Nat} (h : ∀ n ∈ ns, 1 ≤ n) :
    ns.length ≤ ns.sum ∧ (ns.length = ns.sum ↔ ∀ n ∈ ns, n = 1) := by
  induction ns with
  | nil => simp
  | cons n ns ih =>
    obtain ⟨hn, hns⟩ := List.forall_mem_cons.mp h
    obtain ⟨hle, hiff⟩ := ih hns
    rw [List.length_cons, List.sum_cons, List.forall_mem_cons, ← hiff]
    omega

/-- The text of a schema, without comments and separator lines and cut at its semicolons, has as
many pieces that are not blank as the sources of its definitions have together. There are never
more definitions than pieces, and there are as many exactly where every source is one piece. -/
theorem length_segments_readSchema {text : String} {ds : List Definition}
    (h : readSchema text = .ok ds) :
    (segments (statedText text)).length =
        (ds.map fun d => (segments d.sourceChars).length).sum ∧
      ds.length ≤ (segments (statedText text)).length ∧
      (ds.length = (segments (statedText text)).length ↔
        ∀ d ∈ ds, (segments d.sourceChars).length = 1) := by
  have hsum : (segments (statedText text)).length =
      (ds.map fun d => (segments d.sourceChars).length).sum := by
    simp only [readSchema, readDocument_eq_read] at h
    split at h
    · next herror =>
      cases h
      have hrun := sum_begun_source (fun _ => exists_getLast?_of_mem_statementsFrom)
        (by simp [EndsInside, start]) herror
      simp only [length_segments, begun_statedText]
      simpa [begunOpen, start, State.read] using hrun.symm
    · cases h
  have hpositive : ∀ n ∈ ds.map fun d => (segments d.sourceChars).length, 1 ≤ n :=
    List.forall_mem_map.mpr fun d hd => one_le_segments_source h hd
  have hcount := length_eq_sum_iff hpositive
  rw [List.length_map, ← hsum, List.forall_mem_map] at hcount
  exact ⟨hsum, hcount⟩

/-- Two definitions on one line, and one on two. -/
def crowdedText : String := "a#1 = A; b#2 = B; // both\n---functions---\nc#3 x:int\n = C;"

/-- The second definition is read as a part of the name of the first one's type. -/
theorem length_segments_crowded :
    ∃ ds, readSchema crowdedText = .ok ds ∧
      ds.map (·.result.name.text) = ["A; b#2 = B", "C"] ∧
      (segments (statedText crowdedText)).length = 3 ∧
      (segments (statedText crowdedText)).length =
        (ds.map fun d => (segments d.sourceChars).length).sum := by
  have hrun : (readSchema crowdedText).isOk ∧
      (definitionsOf crowdedText).map (·.result.name.text) = ["A; b#2 = B", "C"] ∧
      (segments (statedText crowdedText)).length = 3 := by decide +kernel
  have hread := readSchema_eq_ok_definitionsOf hrun.1
  exact ⟨_, hread, hrun.2.1, hrun.2.2, (length_segments_readSchema hread).1⟩

end TypeLang
