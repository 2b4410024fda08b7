import Mathlib
import TypeLang.Proofs.Schema.Scan

/-!
# Layout

How a schema text is laid out in lines does not matter to what is read from it. Lines without a
statement may stand anywhere, any line may end with a comment, and a definition may go on in the
next line wherever it has a space. All that changes is the line that an error is reported for: it is
where the definition starts in the text as it is laid out. A text behind another one is read as if
it stood alone, in the category that the first one ends in, unless the first one ends with an error:
then it is not looked at.
-/
namespace TypeLang

open Text

namespace Document

variable {s : State} {text text' : String}

/-! ## Idle lines and comments -/

/-- A line without a statement: blank, or a comment behind blanks. -/
def IsIdle (line : List Char) : Prop :=
  ∃ ws, (∀ c ∈ ws, isBlank c) ∧ (line = ws ∨ ∃ comment, line = ws ++ '/' :: '/' :: comment)

theorem IsIdle.content_eq_nil {line : List Char} (h : IsIdle line) : content line = [] := by
  obtain ⟨ws, hws, heq⟩ := h
  have hslash := slash_notMem_of_blank hws
  have hstrip : stripComment line = ws := by
    rcases heq with rfl | ⟨comment, rfl⟩
    · exact stripComment_of_notMem hslash
    · exact stripComment_append_comment hslash comment
  rw [content, hstrip, ← List.append_nil ws, trim_blank_append hws, trim_nil]

/-- A line of a text, and what is added at it: idle lines above, and possibly a comment. The ending
is the carriage return of a text with two characters at a line end, or any other blanks. -/
structure PaddedLine where
  above : List (List Char)
  body : List Char
  ending : List Char
  comment : Option (List Char)
  idle_above : ∀ line ∈ above, IsIdle line
  blank_ending : ∀ c ∈ ending, isBlank c

namespace PaddedLine

/-- The line before anything was added. -/
def original (p : PaddedLine) : List Char := p.body ++ p.ending

/-- The line with its comment. -/
def commented (p : PaddedLine) : List Char :=
  match p.comment with
  | none => p.original
  | some comment => p.body ++ (' ' :: '/' :: '/' :: comment) ++ p.ending

/-- The lines that the line became. -/
def lines (p : PaddedLine) : List (List Char) := p.above ++ [p.commented]

theorem content_commented (p : PaddedLine) : content p.commented = content p.original := by
  rw [commented]
  cases p.comment with
  | none => rfl
  | some comment =>
    have hstrip : stripComment (' ' :: '/' :: '/' :: comment) = [' '] := by simp [stripComment]
    have hblank : ∀ c ∈ stripComment (' ' :: '/' :: '/' :: comment), isBlank c := by
      rw [hstrip]
      exact List.forall_mem_singleton.mpr (by decide)
    have hbody := content_append (by simp) hblank p.body
    rw [original, content_append_blank p.blank_ending, content_append_blank p.blank_ending, hbody]

/-- Only the line itself says anything. -/
theorem statementsFrom_lines (p : PaddedLine) (n : Nat) :
    statementsFrom n p.lines = statementsFrom (n + p.above.length) [p.original] := by
  rw [lines, statementsFrom_append,
    statementsFrom_eq_nil fun line hline => (p.idle_above line hline).content_eq_nil,
    List.nil_append]
  exact statementsFrom_congr (by simp [p.content_commented]) _

/-- Where the line of a number is found among padded lines: as many lines further down as were
inserted above it. -/
def shift (ps : List PaddedLine) (n : Nat) : Nat := n + ((ps.take n).map (·.above.length)).sum

/-- A padded line is as many lines as it shifts what follows. -/
theorem length_flatMap_lines (ps : List PaddedLine) :
    (ps.flatMap lines).length = shift ps ps.length := by
  induction ps with
  | nil => rfl
  | cons p ps ih =>
    rw [shift, List.take_length] at ih ⊢
    simp only [List.flatMap_cons, List.length_append, ih, lines, List.length_cons, List.length_nil,
      List.map_cons, List.sum_cons]
    omega

/-- Padding shifts the lines of the statements. -/
theorem statementsFrom_flatMap_lines (ps : List PaddedLine) :
    statementsFrom 1 (ps.flatMap lines) =
      (statementsFrom 1 (ps.map original)).map fun entry => (shift ps entry.1, entry.2) := by
  induction ps using List.reverseRecOn with
  | nil => rfl
  | append_singleton ps p ih =>
    have hfront : ∀ n ≤ ps.length, shift (ps ++ [p]) n = shift ps n := fun n hn => by
      rw [shift, shift, List.take_append_of_le_length hn]
    have hlast : shift (ps ++ [p]) (1 + ps.length) =
        1 + (ps.flatMap lines).length + p.above.length := by
      rw [length_flatMap_lines, shift, shift, List.take_of_length_le (by simp [Nat.add_comm]),
        List.take_length, List.map_append, List.sum_append]
      simp
      omega
    rw [List.flatMap_append, List.flatMap_singleton, statementsFrom_append, ih,
      statementsFrom_lines, List.map_append, statementsFrom_append, List.map_append,
      List.length_map]
    congr 1
    · refine List.map_congr_left fun entry hentry => ?_
      have hlt := (lt_of_mem_statementsFrom hentry).2
      rw [List.length_map] at hlt
      rw [hfront entry.1 (by omega)]
    · rw [← hlast, List.map_singleton, statementsFrom_cons, statementsFrom_cons]
      cases (content p.original).isEmpty <;> rfl

end PaddedLine

/-- A text with idle lines inserted and comments appended. -/
structure Padding (text text' : String) where
  padded : List PaddedLine
  below : List (List Char)
  rawLines_eq : rawLines text = padded.map PaddedLine.original
  rawLines_eq' : rawLines text' = padded.flatMap PaddedLine.lines ++ below
  idle_below : ∀ line ∈ below, IsIdle line

/-- Padding shifts the line of an error and changes nothing else. -/
theorem Padding.readDocument_eq (p : Padding text text') :
    readDocument text' = (readDocument text).mapLine (PaddedLine.shift p.padded) := by
  rw [readDocument_eq_read, readDocument_eq_read, p.rawLines_eq, p.rawLines_eq',
    statementsFrom_append,
    statementsFrom_eq_nil fun line hline => (p.idle_below line hline).content_eq_nil,
    List.append_nil, PaddedLine.statementsFrom_flatMap_lines]
  exact read_mapLine (PaddedLine.shift p.padded) start _

/-! ## Broken lines -/

/-- A line that is taken into a definition and does not close it. -/
theorem step_of_open {line : Nat} {front : List Char}
    (hseparator : s.unclosed? = none → separator? front = none)
    (hlast : front.getLast? ≠ some ';') :
    step s (line, front) = .ok (⟨s.category, some (extend s.unclosed? line front)⟩, none) := by
  have htake : s.take line front =
      .ok (⟨s.category, some (extend s.unclosed? line front)⟩, none) := by
    rw [State.take, if_neg hlast]
  obtain ⟨category, _ | unclosed⟩ := s
  · simp only [step, hseparator rfl, htake]
  · exact htake

theorem separator?_of_space {cs : List Char} (h : ' ' ∈ cs) : separator? cs = none := by
  simp only [separator?]
  split
  · next heq =>
    subst heq
    exact absurd h (by decide)
  · split
    · next heq =>
      subst heq
      exact absurd h (by decide)
    · rfl

/-- What is behind a space may as well stand in the next line. -/
theorem read_of_broken {line : Nat} {front back : List Char} (hback : back ≠ [])
    (hseparator : s.unclosed? = none → separator? front = none) (hlast : front.getLast? ≠ some ';')
    (rest : List (Nat × List Char)) :
    s.read ((line, front ++ ' ' :: back) :: rest) =
      s.read ((line, front) :: (line + 1, back) :: rest) := by
  have hnone : separator? (front ++ ' ' :: back) = none := separator?_of_space (by simp)
  have hwhole : step s (line, front ++ ' ' :: back) = s.take line (front ++ ' ' :: back) := by
    obtain ⟨category, _ | unclosed⟩ := s
    · simp only [step, hnone]
    · rfl
  have htake : s.take line (front ++ ' ' :: back) =
      step ⟨s.category, some (extend s.unclosed? line front)⟩ (line + 1, back) := by
    have hextend : extend s.unclosed? line (front ++ ' ' :: back) =
        extend (some (extend s.unclosed? line front)) (line + 1) back := by
      obtain ⟨category, _ | unclosed⟩ := s <;> simp [extend]
    have hclose : (front ++ ' ' :: back).getLast? = back.getLast? := by
      obtain ⟨c, hc⟩ := Option.ne_none_iff_exists'.mp (mt List.getLast?_eq_none_iff.mp hback)
      simp [List.getLast?_cons, hc]
    rw [step, State.take, State.take, hextend, hclose]
  rw [read_cons, read_cons s (line, front), step_of_open hseparator hlast, hwhole, htake]
  simp only [Option.toList_none, Reading.prepend_nil]
  rw [← read_cons]

/-- A text with a line feed in the place of a space between two characters that are not blank. What
stands in front of the space is not closed, has no comment, and is no separator where a definition
starts. -/
structure LineBreak (text text' : String) where
  above : List (List Char)
  front : List Char
  back : List Char
  below : List (List Char)
  rawLines_eq : rawLines text = above ++ (front ++ ' ' :: back) :: below
  rawLines_eq' : rawLines text' = above ++ front :: back :: below
  front_last : ∃ c, front.getLast? = some c ∧ isBlank c = false ∧ c ≠ ';'
  back_head : ∃ c, back.head? = some c ∧ isBlank c = false
  front_uncommented : stripComment front = front
  front_not_separator : ∀ category,
    (scan start (statementsFrom 1 above)).outcome = .ok ⟨category, none⟩ →
      separator? (content front) = none

namespace LineBreak

/-- Where the line of a number is found in the broken text. -/
def shift (b : LineBreak text text') (n : Nat) : Nat := if n ≤ b.above.length + 1 then n else n + 1

variable (b : LineBreak text text')

theorem getLast?_content_front : ∃ c, (content b.front).getLast? = some c ∧ c ≠ ';' := by
  obtain ⟨c, hlast, hblank, hclose⟩ := b.front_last
  exact ⟨c, by rw [content, b.front_uncommented, getLast?_trim hlast hblank], hclose⟩

theorem content_front_ne_nil : content b.front ≠ [] := by
  obtain ⟨c, hlast, -⟩ := b.getLast?_content_front
  intro hnil
  rw [hnil] at hlast
  cases hlast

/-- The whole line says what its two parts say. The part behind the space may be a comment. -/
theorem content_whole : content (b.front ++ ' ' :: b.back) =
    if content b.back = [] then content b.front
    else content b.front ++ ' ' :: content b.back := by
  obtain ⟨c, hlast, hc, -⟩ := b.front_last
  obtain ⟨d, hhead, hd⟩ := b.back_head
  have hstrip : stripComment (b.front ++ ' ' :: b.back) =
      b.front ++ ' ' :: stripComment b.back := by
    rw [stripComment_append (by simp), if_pos b.front_uncommented]
    rfl
  obtain ⟨rest, hback⟩ := List.head?_eq_some_iff.mp hhead
  have hcases : stripComment b.back = [] ∨ (stripComment b.back).head? = some d := by
    rw [hback, stripComment.eq_def]
    split <;> simp_all
  rw [content, content, content, hstrip, b.front_uncommented]
  rcases hcases with hnil | hhead'
  · rw [hnil, trim_nil, if_pos rfl]
    exact trim_append_blank (List.forall_mem_singleton.mpr (by decide)) b.front
  · have hne : trim (stripComment b.back) ≠ [] :=
      List.ne_nil_of_mem (mem_trim (List.mem_of_head? hhead') hd)
    have hwhole := trim_append hlast hc hhead' hd [' ']
    rw [if_neg hne]
    simpa using hwhole

/-- The lines above keep their numbers, and those below move down by one. -/
theorem map_shift_statements : (statementsFrom 1 (rawLines text)).map
    (fun entry => (b.shift entry.1, entry.2)) =
      statementsFrom 1 b.above ++ (1 + b.above.length, content (b.front ++ ' ' :: b.back)) ::
        statementsFrom (1 + b.above.length + 1 + 1) b.below := by
  have hne : content (b.front ++ ' ' :: b.back) ≠ [] := by
    rw [b.content_whole]
    split
    · exact b.content_front_ne_nil
    · simp
  have hfront : (statementsFrom 1 b.above).map (fun entry => (b.shift entry.1, entry.2)) =
      statementsFrom 1 b.above := by
    refine (List.map_congr_left fun entry hentry => ?_).trans (List.map_id _)
    have hlt := (lt_of_mem_statementsFrom hentry).2
    rw [shift, if_pos (by omega)]
    rfl
  have hbelow : (statementsFrom (1 + b.above.length + 1) b.below).map
      (fun entry => (b.shift entry.1, entry.2)) =
        statementsFrom (1 + b.above.length + 1 + 1) b.below := by
    rw [statementsFrom_add (1 + b.above.length + 1) 1]
    refine List.map_congr_left fun entry hentry => ?_
    have hle := (lt_of_mem_statementsFrom hentry).1
    rw [shift, if_neg (by omega)]
  rw [b.rawLines_eq, statementsFrom_append, statementsFrom_cons, List.map_append, List.map_append,
    hfront, hbelow, List.isEmpty_eq_false_iff.mpr hne]
  simp [shift, Nat.add_comm]

/-- A line break inside a statement shifts the line of an error and changes nothing else. -/
theorem readDocument_eq : readDocument text' = (readDocument text).mapLine b.shift := by
  have hread : (readDocument text).mapLine b.shift =
      start.read ((statementsFrom 1 (rawLines text)).map
        fun entry => (b.shift entry.1, entry.2)) := by
    rw [readDocument_eq_read]
    exact (read_mapLine b.shift start _).symm
  rw [hread, b.map_shift_statements, readDocument_eq_read, b.rawLines_eq', statementsFrom_append,
    statementsFrom_cons, statementsFrom_cons,
    List.isEmpty_eq_false_iff.mpr b.content_front_ne_nil, b.content_whole]
  by_cases hback : content b.back = []
  · simp [hback]
  · obtain ⟨c, hlast, hclose⟩ := b.getLast?_content_front
    rw [List.isEmpty_eq_false_iff.mpr hback, if_neg hback, read_append, read_append]
    cases houtcome : (scan start (statementsFrom 1 b.above)).outcome with
    | error e => rfl
    | ok s =>
      have hseparator : s.unclosed? = none → separator? (content b.front) = none := by
        obtain ⟨category, unclosed?⟩ := s
        rintro rfl
        exact b.front_not_separator category houtcome
      have hnot : (content b.front).getLast? ≠ some ';' := by
        rw [hlast]
        simpa using hclose
      simp only [Bool.false_eq_true, if_false, List.singleton_append]
      rw [read_of_broken hback hseparator hnot]

end LineBreak

/-! ## One text behind another -/

/-- Reads a schema text that starts in a category. -/
def readIn (category : Category) (text : String) : Reading :=
  readStatements category none (statements text.toList)

/-- The category that a text without errors ends in. -/
def finalCategory? (text : String) : Option Category :=
  match (scan start (statementsFrom 1 (rawLines text))).outcome with
  | .ok s => some s.category
  | .error _ => none

theorem rawLines_append (a b : String) : rawLines (a ++ "\n" ++ b) = rawLines a ++ rawLines b := by
  have htext : (a ++ "\n" ++ b).toList = a.toList ++ '\n' :: b.toList := by simp
  rw [rawLines, htext, splitWhere_append_cons (by simp)]
  rfl

/-- The lines of a text behind another one are numbered from where the other one ends. -/
theorem statementsFrom_rawLines_append (a b : String) :
    statementsFrom 1 (rawLines (a ++ "\n" ++ b)) =
      statementsFrom 1 (rawLines a) ++ (statementsFrom 1 (rawLines b)).map
        fun entry => (entry.1 + (1 + a.toList.count '\n'), entry.2) := by
  rw [rawLines_append, statementsFrom_append, statementsFrom_add, rawLines, length_splitWhere,
    ← List.count_eq_countP, Nat.add_comm 1]

/-- What follows an error is not looked at, unless the error is that a definition is still open. -/
theorem readDocument_append_of_error {a : String} {e : LineError}
    (h : (readDocument a).error = some e) (he : e.cause ≠ .unterminated) (b : String) :
    readDocument (a ++ "\n" ++ b) = readDocument a := by
  have hself := read_append start (statementsFrom 1 (rawLines a)) []
  rw [List.append_nil, ← readDocument_eq_read] at hself
  rw [readDocument_eq_read (a ++ "\n" ++ b), statementsFrom_rawLines_append, read_append, hself]
  cases houtcome : (scan start (statementsFrom 1 (rawLines a))).outcome with
  | error e => rfl
  | ok s =>
    simp only [houtcome] at hself
    rw [hself] at h
    obtain ⟨category, _ | unclosed⟩ := s
    · cases h
    · cases h
      exact absurd rfl he

/-- A text behind one without errors is read in the category that the first one ends in. -/
theorem readDocument_append {a : String} (h : (readDocument a).error = none) (b : String) :
    ∃ category, finalCategory? a = some category ∧
      readDocument (a ++ "\n" ++ b) =
        ((readIn category b).mapLine (· + (1 + a.toList.count '\n'))).prepend
          (readDocument a).definitions := by
  have hself := read_append start (statementsFrom 1 (rawLines a)) []
  rw [List.append_nil, ← readDocument_eq_read] at hself
  rw [readDocument_eq_read (a ++ "\n" ++ b), statementsFrom_rawLines_append, read_append, hself,
    finalCategory?]
  cases houtcome : (scan start (statementsFrom 1 (rawLines a))).outcome with
  | error e =>
    simp only [houtcome] at hself
    rw [hself] at h
    cases h
  | ok s =>
    simp only [houtcome] at hself
    rw [hself] at h
    obtain ⟨category, _ | unclosed⟩ := s
    · refine ⟨category, rfl, ?_⟩
      have hread := read_mapLine (· + (1 + a.toList.count '\n')) ⟨category, none⟩
        (statementsFrom 1 (rawLines b))
      rw [readIn, statements_eq_statementsFrom]
      simp only [Reading.prepend, List.append_nil, State.read, State.mapLine, Option.map_none,
        readStatements] at hread ⊢
      rw [hread]
      rfl
    · cases h

end Document

open Document

/-- How a schema text is laid out does not matter to what is read from it. Idle lines may be
inserted anywhere and comments appended to any line, and a line may be broken at a space inside a
definition: apart from the line of an error the reading stays the same. A text behind another one
is read in the category that the first one ends in. Behind an error nothing is read, and the
iterator gives nothing more. -/
theorem readDocument_layout :
    (∀ (text text' : String) (p : Padding text text'),
      readDocument text' = (readDocument text).mapLine (PaddedLine.shift p.padded)) ∧
    (∀ (text text' : String) (b : LineBreak text text'),
      readDocument text' = (readDocument text).mapLine b.shift) ∧
    (∀ a b : String, (readDocument a).error = none →
      ∃ category, finalCategory? a = some category ∧
        readDocument (a ++ "\n" ++ b) =
          ((readIn category b).mapLine (· + (1 + a.toList.count '\n'))).prepend
            (readDocument a).definitions) ∧
    (∀ (a b : String) (e : LineError), (readDocument a).error = some e → e.cause ≠ .unterminated →
      readDocument (a ++ "\n" ++ b) = readDocument a) ∧
    ∀ (text : String) (n : Nat), (iterate text).take n = (readDocument text).items.take n ∧
      ∀ (i : Nat) (e : LineError), ((iterate text).take n)[i]? = some (.error e) →
        ((iterate text).take n).length = i + 1 :=
  ⟨fun _ _ p => p.readDocument_eq, fun _ _ b => b.readDocument_eq,
    fun _ b h => readDocument_append h b, fun _ b _ h he => readDocument_append_of_error h he b,
    fun text n => ⟨take_iterate n text, fun _ _ => length_take_iterate_of_error⟩⟩

/-- A type, and a malformed method. -/
def plainText : String := "a#1 x:int = A;\n---functions---\nb#2 y:int z = B;"

/-- The text with two lines and a comment more. -/
def paddedText : String :=
  "// types\na#1 x:int = A; // one\n\n---functions---\nb#2 y:int z = B;\n\t"

/-- What was added. -/
def plainPadding : Padding plainText paddedText where
  padded := [
    ⟨["// types".toList], "a#1 x:int = A;".toList, [], some " one".toList,
      List.forall_mem_singleton.mpr ⟨[], by simp, .inr ⟨" types".toList, rfl⟩⟩, by simp⟩,
    ⟨[[]], "---functions---".toList, [], none,
      List.forall_mem_singleton.mpr ⟨[], by simp, .inl rfl⟩, by simp⟩,
    ⟨[], "b#2 y:int z = B;".toList, [], none, by simp, by simp⟩]
  below := [['\t']]
  rawLines_eq := by decide +kernel
  rawLines_eq' := by decide +kernel
  idle_below := List.forall_mem_singleton.mpr
    ⟨['\t'], List.forall_mem_singleton.mpr (by decide), .inl rfl⟩

/-- The text with the method on two lines. -/
def plainBreak : LineBreak plainText "a#1 x:int = A;\n---functions---\nb#2 y:int\nz = B;" where
  above := ["a#1 x:int = A;".toList, "---functions---".toList]
  front := "b#2 y:int".toList
  back := "z = B;".toList
  below := []
  rawLines_eq := by decide +kernel
  rawLines_eq' := by decide +kernel
  front_last := ⟨'t', by decide⟩
  back_head := ⟨'z', by decide⟩
  front_uncommented := by decide
  front_not_separator := fun _ _ => by decide

/-- One text padded, broken, followed by another and stopped by an error. -/
theorem readDocument_layout_plain :
    ((readDocument plainText).error.map (·.line) = some 3 ∧
      (readDocument paddedText).error.map (·.line) = some 5) ∧
    readDocument paddedText =
      (readDocument plainText).mapLine (PaddedLine.shift plainPadding.padded) ∧
    readDocument "a#1 x:int = A;\n---functions---\nb#2 y:int\nz = B;" =
      (readDocument plainText).mapLine plainBreak.shift ∧
    (∃ category, finalCategory? "a#1 x:int = A;\n---functions---" = some category ∧
      readDocument ("a#1 x:int = A;\n---functions---" ++ "\n" ++ "b#2 y:int z = B;") =
        ((readIn category "b#2 y:int z = B;").mapLine (· + 2)).prepend
          (readDocument "a#1 x:int = A;\n---functions---").definitions) ∧
    readDocument (plainText ++ "\n" ++ "c#3 = C;") = readDocument plainText ∧
    ((iterate plainText).take 5).length = 2 := by
  have hrun : ((readDocument plainText).error.map (·.line) = some 3 ∧
      (readDocument paddedText).error.map (·.line) = some 5) ∧
      (readDocument "a#1 x:int = A;\n---functions---").error = none ∧
      (readDocument plainText).definitions.length = 1 ∧
      ∃ e ∈ (readDocument plainText).error, e.cause ≠ .unterminated := by decide +kernel
  obtain ⟨hlines, hfirst, hcount, e, he, hcause⟩ := hrun
  obtain ⟨hpadding, hbreak, happend, herror, hiterate⟩ := readDocument_layout
  obtain ⟨htake, hlast⟩ := hiterate plainText 5
  refine ⟨hlines, hpadding _ _ plainPadding, hbreak _ _ plainBreak, happend _ _ hfirst,
    herror _ _ e he hcause, hlast 1 e ?_⟩
  rw [Option.mem_def] at he
  rw [htake, List.getElem?_take_of_lt (by decide), Reading.items, he,
    List.getElem?_append_right (by simp [hcount])]
  simp [hcount]

end TypeLang
