import TypeLang.Proofs.Schema.Statement
import TypeLang.Proofs.Text.Splitting
import TypeLang.Proofs.Text.Trimming

/-!
# Reading line by line

The reader of a schema text goes from line to line. Between two lines it stands in a category, and
possibly inside a definition that is not closed yet. What one line does is `Document.step`, and what
lines do one after the other is `Document.scan`, so reading a text in two parts is reading the
second part from where the first part leaves the reader. The numbers of the lines are only passed
on: whatever numbers the lines differently moves the line of an error and nothing else. An iterator
that takes the same steps gives the definitions and the error one by one, and stops there.
-/
namespace TypeLang

open Text

namespace Document

/-! ## Lines -/

/-- What a line says: its text in front of a comment, trimmed. -/
def content (line : List Char) : List Char := trim (stripComment line)

/-- The statements of lines that are numbered from `n`. -/
def statementsFrom (n : Nat) (ls : List (List Char)) : List (Nat × List Char) :=
  ((ls.zipIdx n).map fun entry => (entry.2, content entry.1)).filter fun entry => !entry.2.isEmpty

section Statements

variable {n : Nat} {line : List Char} {ls ls' : List (List Char)}

@[simp] theorem statementsFrom_nil (n : Nat) : statementsFrom n [] = [] := rfl

theorem statementsFrom_cons (n : Nat) (line : List Char) (ls : List (List Char)) :
    statementsFrom n (line :: ls) =
      (if (content line).isEmpty then [] else [(n, content line)]) ++
        statementsFrom (n + 1) ls := by
  simp only [statementsFrom, List.zipIdx_cons, List.map_cons, List.filter_cons]
  cases (content line).isEmpty <;> rfl

theorem statementsFrom_append (n : Nat) (ls ls' : List (List Char)) :
    statementsFrom n (ls ++ ls') = statementsFrom n ls ++ statementsFrom (n + ls.length) ls' := by
  rw [statementsFrom, List.zipIdx_append, List.map_append, List.filter_append]
  rfl

theorem map_snd_statementsFrom (n : Nat) (ls : List (List Char)) :
    (statementsFrom n ls).map (·.2) = (ls.map content).filter fun content => !content.isEmpty := by
  induction ls generalizing n with
  | nil => rfl
  | cons line ls ih =>
    rw [statementsFrom_cons, List.map_append, ih, List.map_cons, List.filter_cons]
    cases (content line).isEmpty <;> rfl

/-- Only what the lines say matters. -/
theorem statementsFrom_congr (h : ls.map content = ls'.map content) (n : Nat) :
    statementsFrom n ls = statementsFrom n ls' := by
  induction ls generalizing ls' n with
  | nil =>
    rw [List.map_nil, eq_comm, List.map_eq_nil_iff] at h
    rw [h]
  | cons line ls ih =>
    obtain ⟨line', rest, rfl, hline, hrest⟩ := List.map_eq_cons_iff.mp h.symm
    rw [statementsFrom_cons, statementsFrom_cons, hline, ih hrest.symm]

/-- Lines that say nothing are no statements. -/
theorem statementsFrom_eq_nil (h : ∀ line ∈ ls, content line = []) (n : Nat) :
    statementsFrom n ls = [] := by
  induction ls generalizing n with
  | nil => rfl
  | cons line ls ih =>
    rw [statementsFrom_cons, h line List.mem_cons_self,
      ih fun line hline => h line (List.mem_cons_of_mem _ hline)]
    rfl

/-- Later lines are numbered alike, from where the numbers start. -/
theorem statementsFrom_add (n k : Nat) (ls : List (List Char)) :
    statementsFrom (n + k) ls = (statementsFrom n ls).map fun entry => (entry.1 + k, entry.2) := by
  induction ls generalizing n with
  | nil => rfl
  | cons line ls ih =>
    rw [statementsFrom_cons, statementsFrom_cons, List.map_append, Nat.add_right_comm, ih]
    cases (content line).isEmpty <;> rfl

theorem lt_of_mem_statementsFrom {entry : Nat × List Char} (h : entry ∈ statementsFrom n ls) :
    n ≤ entry.1 ∧ entry.1 < n + ls.length := by
  simp only [statementsFrom, List.mem_filter, List.mem_map] at h
  obtain ⟨⟨numbered, hmem, rfl⟩, -⟩ := h
  have hlt : numbered.2 < ls.length + n := List.snd_lt_of_mem_zipIdx hmem
  exact ⟨List.le_snd_of_mem_zipIdx hmem, by rwa [Nat.add_comm] at hlt⟩

/-- A statement does not end with a blank. -/
theorem exists_getLast?_of_mem_statementsFrom {entry : Nat × List Char}
    (h : entry ∈ statementsFrom n ls) : ∃ c, entry.2.getLast? = some c ∧ isBlank c = false := by
  simp only [statementsFrom, List.mem_filter, List.mem_map, Bool.not_eq_true',
    List.isEmpty_eq_false_iff] at h
  obtain ⟨⟨numbered, -, rfl⟩, hne⟩ := h
  exact exists_getLast?_trim hne

end Statements

/-! ## Comments -/

section Comments

variable {cs ws : List Char}

theorem stripComment_of_notMem (h : '/' ∉ cs) : stripComment cs = cs := by
  fun_induction stripComment cs with
  | case1 => rfl
  | case2 => simp at h
  | case3 c cs _ ih => rw [ih (List.not_mem_of_not_mem_cons h)]

/-- A comment starts at its two slashes, wherever there are none in front. -/
theorem stripComment_append_comment (h : '/' ∉ ws) (comment : List Char) :
    stripComment (ws ++ '/' :: '/' :: comment) = ws := by
  induction ws with
  | nil => rfl
  | cons c ws ih =>
    rw [List.mem_cons, not_or] at h
    rw [List.cons_append, stripComment, ih h.2]
    simp [Ne.symm h.1]

/-- What is appended to a line is a comment already, or stays as it is. -/
theorem stripComment_append (hws : ws.head? ≠ some '/') (cs : List Char) :
    stripComment (cs ++ ws) =
      if stripComment cs = cs then cs ++ stripComment ws else stripComment cs := by
  fun_induction stripComment cs with
  | case1 => rfl
  | case2 cs => simp [stripComment]
  | case3 c cs hslash ih =>
    have hslash' : ∀ rest, c = '/' → cs ++ ws = '/' :: rest → False := by
      rintro rest rfl happend
      cases cs with
      | nil => simp_all
      | cons d cs =>
        obtain ⟨rfl, -⟩ := List.cons.inj happend
        exact hslash _ rfl rfl
    rw [List.cons_append, stripComment, ih]
    · simp only [List.cons.injEq, true_and]
      split <;> simp
    · exact hslash'

/-- Whatever says nothing may be appended to a line. -/
theorem content_append (hws : ws.head? ≠ some '/') (hblank : ∀ c ∈ stripComment ws, isBlank c)
    (cs : List Char) : content (cs ++ ws) = content cs := by
  rw [content, content, stripComment_append hws]
  split
  · next hcs => rw [trim_append_blank hblank, hcs]
  · rfl

theorem slash_notMem_of_blank (h : ∀ c ∈ ws, isBlank c) : '/' ∉ ws := fun hmem =>
  absurd (h '/' hmem) (by decide)

theorem content_append_blank (h : ∀ c ∈ ws, isBlank c) (cs : List Char) :
    content (cs ++ ws) = content cs := by
  have hslash := slash_notMem_of_blank h
  refine content_append (fun hhead => hslash (List.mem_of_head? hhead)) ?_ cs
  rwa [stripComment_of_notMem hslash]

end Comments

/-! ## Lines of a text -/

theorem content_stripLineEnd (line : List Char) : content (stripLineEnd line) = content line := by
  obtain ⟨ws, hws, heq⟩ := exists_stripLineEnd_append line
  conv => rhs; rw [heq, content_append_blank hws]

/-- The lines between line feeds say what the lines of a text say, up to the last of them, which is
empty when the text ends with a line feed. -/
theorem exists_splitWhere_newline {ls : List (List Char)} {tail : List Char}
    (hls : ∀ l ∈ ls, IsLine l) (htail : '\n' ∉ tail) :
    ∃ front, splitWhere (· == '\n') (ls.flatten ++ tail) = front ++ [tail] ∧
      front.map content = ls.map content := by
  have hsingle : ∀ cs, '\n' ∉ cs → splitWhere (· == '\n') cs = [cs] := fun cs hcs =>
    splitWhere_of_forall fun c hc => by
      rw [beq_eq_false_iff_ne]
      rintro rfl
      exact hcs hc
  induction ls with
  | nil => exact ⟨[], hsingle tail htail, rfl⟩
  | cons l ls ih =>
    obtain ⟨front, hfront, hcontent⟩ := ih fun l hl => hls l (List.mem_cons_of_mem _ hl)
    obtain ⟨body, hbody, rfl⟩ := hls l List.mem_cons_self
    refine ⟨body :: front, ?_, ?_⟩
    · have hcut : (((body ++ ['\n']) :: ls).flatten ++ tail) =
          body ++ '\n' :: (ls.flatten ++ tail) := by simp
      rw [hcut, splitWhere_append_cons (by simp), hsingle body hbody, hfront]
      rfl
    · have hbreak : ∀ c ∈ ['\n'], isBlank c := List.forall_mem_singleton.mpr (by decide)
      rw [List.map_cons, List.map_cons, hcontent, content_append_blank hbreak]

/-- The statements of a text are those of the lines between its line feeds. -/
theorem statements_eq_statementsFrom (cs : List Char) :
    statements cs = statementsFrom 1 (splitWhere (· == '\n') cs) := by
  have hstatements : statements cs = statementsFrom 1 (inclusiveLines cs) := by
    have hends : (lines cs).map content = (inclusiveLines cs).map content := by
      rw [lines, List.map_map]
      exact List.map_congr_left fun line _ => content_stripLineEnd line
    exact statementsFrom_congr hends 1
  obtain ⟨ls, tail, rfl, hls, htail⟩ := exists_lines_append cs
  obtain ⟨front, hfront, hcontent⟩ := exists_splitWhere_newline hls htail
  have hlength : front.length = ls.length := by
    simpa using congrArg List.length hcontent
  rw [hstatements, hfront, inclusiveLines_flatten_append hls, statementsFrom_append,
    statementsFrom_append, statementsFrom_congr hcontent, hlength]
  by_cases hempty : tail = []
  · subst hempty
    rfl
  · rw [inclusiveLines_of_notMem htail hempty]

end Document

/-! ## Readings -/

namespace Reading

def prepend (ds : List Definition) (rest : Reading) : Reading :=
  ⟨ds ++ rest.definitions, rest.error⟩

/-- The definitions, and behind them the error. -/
def items (reading : Reading) : List (Except LineError Definition) :=
  reading.definitions.map .ok ++ reading.error.toList.map .error

/-- Changes the line of the error. -/
def mapLine (f : Nat → Nat) (reading : Reading) : Reading :=
  ⟨reading.definitions, reading.error.map fun e => { e with line := f e.line }⟩

/-- An error is the last item. -/
theorem length_items_of_error {reading : Reading} {i : Nat} {e : LineError}
    (h : reading.items[i]? = some (.error e)) : reading.items.length = i + 1 := by
  rw [items, List.getElem?_append] at h
  split at h
  · simp at h
  · next hlength =>
    rw [List.length_map] at hlength h
    cases herror : reading.error with
    | none => simp [herror] at h
    | some error =>
      rw [herror] at h
      have hlast : i - reading.definitions.length < 1 := (List.getElem?_eq_some_iff.mp h).1
      rw [items, herror, List.length_append, List.length_map]
      simp
      omega

theorem prepend_prepend (ds es : List Definition) (rest : Reading) :
    (rest.prepend es).prepend ds = rest.prepend (ds ++ es) := by
  simp only [prepend, List.append_assoc]

@[simp] theorem prepend_nil (rest : Reading) : rest.prepend [] = rest := rfl

@[simp] theorem mapLine_cons (f : Nat → Nat) (d : Definition) (rest : Reading) :
    (cons d rest).mapLine f = cons d (rest.mapLine f) := rfl

@[simp] theorem mapLine_stop (f : Nat → Nat) (line : Nat) (content : List Char)
    (cause : DefinitionError) : (stop line content cause).mapLine f = stop (f line) content cause :=
  rfl

end Reading

namespace Document

/-! ## Steps -/

/-- Where the reader stands between two lines. -/
structure State where
  category : Category
  unclosed? : Option Unclosed

/-- Reads statements from where the reader stands. -/
def State.read (s : State) (entries : List (Nat × List Char)) : Reading :=
  readStatements s.category s.unclosed? entries

/-- Takes a line into a definition, which is read when the line closes it. -/
def State.take (s : State) (line : Nat) (content : List Char) :
    Except LineError (State × Option Definition) :=
  let unclosed := extend s.unclosed? line content
  if content.getLast? = some ';' then
    match readStatement s.category unclosed.text with
    | .ok d => .ok (⟨s.category, none⟩, some d)
    | .error cause => .error ⟨unclosed.line, String.ofList unclosed.text, cause⟩
  else .ok (⟨s.category, some unclosed⟩, none)

/-- What a line does: between definitions a separator switches the category, and any other line is
taken into a definition. -/
def step (s : State) (entry : Nat × List Char) : Except LineError (State × Option Definition) :=
  match s.unclosed?, separator? entry.2 with
  | none, some category => .ok (⟨category, none⟩, none)
  | _, _ => s.take entry.1 entry.2

/-- The definitions that lines give, and where they leave the reader. -/
structure Scan where
  definitions : List Definition
  outcome : Except LineError State

/-- What lines do, one after the other, up to an error. -/
def scan (s : State) : List (Nat × List Char) → Scan
  | [] => ⟨[], .ok s⟩
  | entry :: rest =>
    match step s entry with
    | .error e => ⟨[], .error e⟩
    | .ok (next, d?) => ⟨d?.toList ++ (scan next rest).definitions, (scan next rest).outcome⟩

variable {s : State} {entry : Nat × List Char} {entries : List (Nat × List Char)}

/-- Reading goes on from where the first line leaves the reader. -/
theorem read_cons (s : State) (entry : Nat × List Char) (rest : List (Nat × List Char)) :
    s.read (entry :: rest) =
      match step s entry with
      | .error e => ⟨[], some e⟩
      | .ok (next, d?) => (next.read rest).prepend d?.toList := by
  obtain ⟨category, unclosed?⟩ := s
  obtain ⟨line, content⟩ := entry
  have htake : (let unclosed := extend unclosed? line content
      if content.getLast? = some ';' then
        match readStatement category unclosed.text with
        | .ok d => Reading.cons d (readStatements category none rest)
        | .error cause => .stop unclosed.line unclosed.text cause
      else readStatements category (some unclosed) rest) =
      match State.take ⟨category, unclosed?⟩ line content with
      | .error e => ⟨[], some e⟩
      | .ok (next, d?) => (next.read rest).prepend d?.toList := by
    simp only [State.take]
    by_cases hlast : content.getLast? = some ';'
    · rw [if_pos hlast, if_pos hlast]
      cases readStatement category (extend unclosed? line content).text <;> rfl
    · rw [if_neg hlast, if_neg hlast]
      rfl
  simp only [State.read, readStatements, step]
  cases unclosed? with
  | none =>
    cases hseparator : separator? content with
    | some category' => rfl
    | none => exact htake
  | some unclosed => exact htake

/-- Reading in two parts: the second part is read from where the first one leaves the reader, unless
the first one ends with an error. -/
theorem read_append (s : State) (xs ys : List (Nat × List Char)) :
    s.read (xs ++ ys) =
      match (scan s xs).outcome with
      | .error e => ⟨(scan s xs).definitions, some e⟩
      | .ok next => (next.read ys).prepend (scan s xs).definitions := by
  induction xs generalizing s with
  | nil => rfl
  | cons entry xs ih =>
    rw [List.cons_append, read_cons, scan]
    cases hstep : step s entry with
    | error e => rfl
    | ok result =>
      obtain ⟨next, d?⟩ := result
      simp only [ih]
      cases (scan next xs).outcome with
      | error e => rfl
      | ok last => exact Reading.prepend_prepend _ _ _

/-- Changes the line that a definition starts on. -/
def State.mapLine (f : Nat → Nat) (s : State) : State :=
  ⟨s.category, s.unclosed?.map fun unclosed => ⟨f unclosed.line, unclosed.text⟩⟩

theorem extend_mapLine (f : Nat → Nat) (s : State) (line : Nat) (content : List Char) :
    extend (s.mapLine f).unclosed? (f line) content =
      ⟨f (extend s.unclosed? line content).line, (extend s.unclosed? line content).text⟩ := by
  obtain ⟨category, _ | unclosed⟩ := s <;> rfl

/-- A step does not look at the numbers of lines. -/
theorem step_mapLine (f : Nat → Nat) (s : State) (entry : Nat × List Char) :
    step (s.mapLine f) (f entry.1, entry.2) =
      match step s entry with
      | .error e => .error ⟨f e.line, e.content, e.cause⟩
      | .ok (next, d?) => .ok (next.mapLine f, d?) := by
  obtain ⟨line, content⟩ := entry
  have htake : State.take (s.mapLine f) (f line) content =
      match State.take s line content with
      | .error e => .error ⟨f e.line, e.content, e.cause⟩
      | .ok (next, d?) => .ok (next.mapLine f, d?) := by
    simp only [State.take, extend_mapLine]
    by_cases hlast : content.getLast? = some ';'
    · rw [if_pos hlast, if_pos hlast, State.mapLine]
      cases readStatement s.category (extend s.unclosed? line content).text <;> rfl
    · rw [if_neg hlast, if_neg hlast]
      rfl
  obtain ⟨category, _ | unclosed⟩ := s
  · simp only [step, State.mapLine, Option.map_none] at htake ⊢
    cases separator? content with
    | some category' => rfl
    | none => exact htake
  · exact htake

/-- Renumbering the lines moves the line of an error and nothing else. -/
theorem read_mapLine (f : Nat → Nat) (s : State) (entries : List (Nat × List Char)) :
    (s.mapLine f).read (entries.map fun entry => (f entry.1, entry.2)) =
      (s.read entries).mapLine f := by
  induction entries generalizing s with
  | nil => obtain ⟨category, _ | unclosed⟩ := s <;> rfl
  | cons entry entries ih =>
    rw [List.map_cons, read_cons, read_cons, step_mapLine]
    cases step s entry with
    | error e => rfl
    | ok result =>
      obtain ⟨next, d?⟩ := result
      simp only [ih]
      rfl

/-! ## Items -/

/-- An iterator over what is read: where it stands, as long as it has not failed, and the statements
ahead. -/
structure Cursor where
  state? : Option State
  ahead : List (Nat × List Char)

/-- Goes on to the next definition or error. -/
def nextItem (s : State) : List (Nat × List Char) → Option (Except LineError Definition × Cursor)
  | [] => s.unclosed?.map fun unclosed =>
    (.error ⟨unclosed.line, String.ofList unclosed.text, .unterminated⟩, ⟨none, []⟩)
  | entry :: rest =>
    match step s entry with
    | .error e => some (.error e, ⟨none, rest⟩)
    | .ok (next, some d) => some (.ok d, ⟨some next, rest⟩)
    | .ok (next, none) => nextItem next rest

/-- The next item, and the iterator behind it. -/
def Cursor.next? (cursor : Cursor) : Option (Except LineError Definition × Cursor) :=
  cursor.state?.bind fun s => nextItem s cursor.ahead

/-- The items that come when the iterator is asked `n` times. -/
def Cursor.take : Nat → Cursor → List (Except LineError Definition)
  | 0, _ => []
  | n + 1, cursor =>
    match cursor.next? with
    | none => []
    | some (item, rest) => item :: take n rest

theorem take_of_failed (n : Nat) (ahead : List (Nat × List Char)) :
    Cursor.take n ⟨none, ahead⟩ = [] := by
  cases n <;> rfl

/-- The iterator gives what is read, one item after the other. -/
theorem take_eq_items (n : Nat) (s : State) (entries : List (Nat × List Char)) :
    Cursor.take n ⟨some s, entries⟩ = (s.read entries).items.take n := by
  induction entries generalizing n s with
  | nil =>
    obtain ⟨category, _ | unclosed⟩ := s
    · cases n <;> rfl
    · cases n with
      | zero => rfl
      | succ n =>
        have hrest := take_of_failed n []
        simp [Cursor.take, Cursor.next?, nextItem, hrest, State.read, readStatements, Reading.stop,
          Reading.items]
  | cons entry entries ih =>
    cases n with
    | zero => rfl
    | succ n =>
      rw [read_cons, Cursor.take]
      cases hstep : step s entry with
      | error e =>
        have hrest := take_of_failed n entries
        simp [Cursor.next?, nextItem, hstep, hrest, Reading.items]
      | ok result =>
        obtain ⟨next, _ | d⟩ := result
        · -- Nothing comes of the line, so the iterator goes on with the next one.
          have hnext : Cursor.next? ⟨some s, entry :: entries⟩ =
              Cursor.next? ⟨some next, entries⟩ := by
            simp [Cursor.next?, nextItem, hstep]
          have hrest := ih (n + 1) next
          rw [Cursor.take, ← hnext] at hrest
          exact hrest
        · have hnext : Cursor.next? ⟨some s, entry :: entries⟩ =
              some (.ok d, ⟨some next, entries⟩) := by
            simp [Cursor.next?, nextItem, hstep]
          rw [hnext]
          simp only [ih]
          rfl

/-! ## Texts -/

/-- Where the reader of a schema text starts. -/
def start : State := ⟨.types, none⟩

/-- The text between the line feeds of a text. -/
def rawLines (text : String) : List (List Char) := splitWhere (· == '\n') text.toList

/-- Iterates over the items of a schema text. -/
def iterate (text : String) : Cursor := ⟨some start, statementsFrom 1 (rawLines text)⟩

end Document

open Document

theorem readDocument_eq_read (text : String) :
    readDocument text = start.read (statementsFrom 1 (rawLines text)) := by
  rw [readDocument, statements_eq_statementsFrom]
  rfl

/-- The iterator gives the items of the reading. -/
theorem take_iterate (n : Nat) (text : String) :
    (iterate text).take n = (readDocument text).items.take n := by
  rw [readDocument_eq_read]
  exact take_eq_items n start _

/-- Behind an error the iterator gives nothing more, however often it is asked. -/
theorem length_take_iterate_of_error {text : String} {n i : Nat} {e : LineError}
    (h : ((iterate text).take n)[i]? = some (.error e)) :
    ((iterate text).take n).length = i + 1 := by
  rw [take_iterate, List.getElem?_take] at h
  split at h
  · next hi =>
    rw [take_iterate, List.length_take, Reading.length_items_of_error h]
    omega
  · cases h

end TypeLang
