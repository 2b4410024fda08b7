import TypeLang.Proofs.Region.Patching
import TypeLang.Text.Utf8

/-!
# A region as a lens

What is put into a region is read back, up to the blanks of blank lines in a generated one; nothing
around the region changes, and the region stands where it stood. Putting in something else then is
as if the first had not been there, and hand-written lines that are put back leave the text as it
was. Offsets count the bytes of the text.
-/
namespace TypeLang

namespace Text

def bytes (cs : List Char) : List UInt8 := Utf8.encode (String.ofList cs)

@[simp] theorem bytes_append (front back : List Char) :
    bytes (front ++ back) = bytes front ++ bytes back := by
  simp [bytes, Utf8.encode]

theorem length_bytes (cs : List Char) : (bytes cs).length = (String.ofList cs).utf8ByteSize := by
  rw [bytes, ← List.size_toByteArray, Utf8.toByteArray_encode, String.size_toByteArray]

/-- At the offset a line of the text begins. -/
def IsLineStart (text : List Char) (offset : Nat) : Prop :=
  ∃ front back, inclusiveLines text = front ++ back ∧ back ≠ [] ∧
    offset = (bytes front.flatten).length

/-- Content that is empty or ends its last line is a sequence of closed lines. -/
theorem isLine_of_endsLine {cs line : List Char} (h : cs = [] ∨ endsLine cs)
    (hline : line ∈ inclusiveLines cs) : IsLine line := by
  obtain ⟨ls, tail, rfl, hls, htail⟩ := exists_lines_append cs
  rcases List.eq_nil_or_concat tail with rfl | ⟨front, last, rfl⟩
  · rw [List.append_nil, inclusiveLines_flatten hls] at hline
    exact hls line hline
  · rw [List.concat_eq_append] at h htail
    simp only [endsLine, ← List.append_assoc, List.getLast?_concat, List.append_eq_nil_iff,
      List.cons_ne_nil, and_false, false_or, beq_iff_eq, Option.some.injEq] at h
    exact absurd h fun h => htail (by simp [h])

/-- A line of which only the line feed is left when it is blank. -/
def bareLine (line : List Char) : List Char := if (trim line).isEmpty then ['\n'] else line

/-- Taking the indentation away again leaves a line bare. -/
theorem dedentLine_indentLine {indent line : List Char} (hindent : '\n' ∉ indent)
    (hline : IsLine line) : dedentLine indent (indentLine indent line) = bareLine line := by
  by_cases hblank : trim line = []
  · rw [indentLine_of_blank hline hblank, bareLine, if_pos (by simp [hblank]), dedentLine]
    cases hdrop : dropStart? indent ['\n'] with
    | none => decide
    | some rest =>
      -- An indentation that starts the line feed is empty.
      cases indent with
      | nil => cases hdrop; rfl
      | cons c indent =>
        have happend := append_of_dropStart? hdrop
        simp only [List.cons_append, List.cons.injEq] at happend
        exact absurd (by simp [happend.1]) hindent
  · rw [indentLine_of_not_blank hblank, bareLine, if_neg (by simpa using hblank), dedentLine,
      dropStart?_append, Option.getD_some]

/-- Taking the indentation of a block away again leaves bare lines. -/
theorem dedentBlock_indentBlock {indent block : List Char} (hindent : '\n' ∉ indent)
    (hblock : ∀ l ∈ inclusiveLines block, IsLine l) :
    dedentBlock indent (indentBlock indent block) = (inclusiveLines block).flatMap bareLine := by
  rw [dedentBlock, inclusiveLines_indentBlock hindent hblock, List.flatMap_map, List.flatMap_def,
    List.flatMap_def]
  exact congrArg List.flatten (List.map_congr_left fun l hl =>
    dedentLine_indentLine hindent (hblock l hl))

end Text

open Text

namespace Region

theorem isMarkerLine_eq_of_trim_eq {marker : String} {l k : List Char} (h : trim l = trim k) :
    isMarkerLine marker l = isMarkerLine marker k := by
  rw [isMarkerLine, isMarkerLine, h]

end Region

namespace Marker

open Region

/-- Content that can stand in a region: it is empty or ends its last line, and none of its lines is
the end line. -/
structure Admits (m : Marker) (content : List Char) : Prop where
  closed : content = [] ∨ endsLine content
  plain : ∀ line ∈ inclusiveLines content, isMarkerLine m.endLine line = false

/-- Content as it reads back: in a generated region only the line feeds are left of blank lines. -/
def settled (m : Marker) (content : List Char) : List Char :=
  match m.ownership with
  | .generated => (inclusiveLines content).flatMap bareLine
  | .shared => content

/-- The first begin line of the marker has the number, counted from one, and no end line follows
it. -/
def UnclosedAt (m : Marker) (text : List Char) (number : Nat) : Prop :=
  ∃ before opening after, inclusiveLines text = before ++ opening :: after ∧
    (∀ line ∈ before, isMarkerLine m.beginLine line = false) ∧
    isMarkerLine m.beginLine opening ∧
    (∀ line ∈ after, isMarkerLine m.endLine line = false) ∧ number = before.length + 1

variable {m : Marker} {text content indent body : List Char} {r : Region}

/-! ## Written content -/

/-- Every line that is written is closed and says what a line of the content says. -/
theorem exists_of_mem_written (hblank : ∀ c ∈ indent, isBlank c) (hbreak : '\n' ∉ indent)
    (hcontent : ∀ l ∈ inclusiveLines content, IsLine l) {line : List Char}
    (hline : line ∈ inclusiveLines (m.written indent content)) :
    IsLine line ∧ ∃ k ∈ inclusiveLines content, trim line = trim k := by
  simp only [written] at hline
  split at hline
  · rw [inclusiveLines_indentBlock hbreak hcontent] at hline
    obtain ⟨k, hk, rfl⟩ := List.mem_map.mp hline
    exact ⟨isLine_indentLine hbreak (hcontent k hk), k, hk,
      trim_indentLine hblank (hcontent k hk)⟩
  · have hclosed := closeLine_of_isLine hcontent
    rw [flatten_inclusiveLines] at hclosed
    rw [hclosed] at hline
    exact ⟨hcontent line hline, line, hline, rfl⟩

/-- No marker line is written that is not in the content. -/
theorem not_isMarkerLine_written (hblank : ∀ c ∈ indent, isBlank c) (hbreak : '\n' ∉ indent)
    (hcontent : ∀ l ∈ inclusiveLines content, IsLine l) {marker : String}
    (hplain : ∀ l ∈ inclusiveLines content, isMarkerLine marker l = false) :
    ∀ l ∈ inclusiveLines (m.written indent content), isMarkerLine marker l = false := by
  intro line hline
  obtain ⟨-, k, hk, htrim⟩ := exists_of_mem_written hblank hbreak hcontent hline
  rw [isMarkerLine_eq_of_trim_eq htrim]
  exact hplain k hk

/-- What is shown of written content is the settled content. -/
theorem shown_written (hbreak : '\n' ∉ indent)
    (hcontent : ∀ l ∈ inclusiveLines content, IsLine l) :
    m.shown indent (m.written indent content) = m.settled content := by
  rcases m with ⟨name, _ | _⟩
  · exact dedentBlock_indentBlock hbreak hcontent
  · have hclosed := closeLine_of_isLine hcontent
    rwa [flatten_inclusiveLines] at hclosed

/-! ## The region -/

/-- An error names the begin line and the number of a line that opens an unclosed region. -/
theorem locate_eq_error_iff {e : UnclosedRegion} :
    locate m text = .error e ↔ e.marker = m.beginLine ∧ m.UnclosedAt text e.line := by
  constructor
  · intro h
    simp only [locate] at h
    split at h
    · cases h
    · next before opening rest hbegin =>
      split at h
      · next hend =>
        cases h
        obtain ⟨hlines, hbefore, hopening⟩ := cutLines?_eq_some_iff.mp hbegin
        exact ⟨rfl, before, opening, rest, hlines, hbefore, hopening,
          cutLines?_eq_none_iff.mp hend, rfl⟩
      · cases h
  · rcases e with ⟨marker, line⟩
    rintro ⟨rfl, before, opening, after, hlines, hbefore, hopening, hafter, rfl⟩
    rw [locate, cutLines?_eq_some_iff.mpr ⟨hlines, hbefore, hopening⟩]
    simp only [cutLines?_eq_none_iff.mpr hafter]

theorem indent_of_locate (h : locate m text = .ok (some r)) :
    (∀ c ∈ r.indent, isBlank c) ∧ '\n' ∉ r.indent := by
  have hview : m.view text = some (r.indent, r.content) := by
    rw [view, region?_of_locate h, Option.map_some]
  exact blank_of_view hview

/-- A region starts and stops at the start of a line. -/
theorem isLineStart_of_locate (h : locate m text = .ok (some r)) :
    IsLineStart text r.start ∧ IsLineStart text r.stop := by
  obtain ⟨c, -, hlines, rfl⟩ := locate_eq_some_iff.mp h
  constructor
  · refine ⟨c.before ++ [c.opening], c.content ++ c.closing :: c.after, ?_, by simp, ?_⟩
    · rw [← hlines, Cut.lines]
      simp
    · rw [length_bytes, start, Cut.region]
      simp
  · refine ⟨c.before ++ c.opening :: c.content, c.closing :: c.after, ?_, by simp, ?_⟩
    · rw [← hlines, Cut.lines]
      simp
    · rw [length_bytes, stop, start, Cut.region]
      simp [String.utf8ByteSize_append, String.ofList_append, Nat.add_assoc]

/-- The region of a text whose region was filled is the filled one. -/
theorem locate_fill (h : locate m text = .ok (some r))
    (hbody : ∀ l ∈ inclusiveLines body, IsLine l ∧ isMarkerLine m.endLine l = false) :
    locate m ({ r with content := body } : Region).text =
      .ok (some { r with content := body }) := by
  obtain ⟨c, hc, hlines, rfl⟩ := locate_eq_some_iff.mp h
  have hfill := inclusiveLines_fill hlines fun l hl => (hbody l hl).1
  refine locate_eq_some_iff.mpr ⟨_, hc.fill fun l hl => (hbody l hl).2, hfill.symm, ?_⟩
  simp [Cut.region, Cut.fill]

/-- The lines of a region are closed, so they are written as they are. -/
theorem closeLine_of_locate (h : locate m text = .ok (some r)) :
    closeLine r.content = r.content := by
  obtain ⟨c, -, hlines, rfl⟩ := locate_eq_some_iff.mp h
  exact closeLine_of_isLine fun l hl => (isLine_of_cut hlines).1 l (by simp [hl])

theorem read_of_locate (h : locate m text = .ok (some r)) :
    m.read text = .ok (some (m.shown r.indent r.content, r.indent)) := by
  rw [read, h]
  rfl

theorem replace_of_locate (h : locate m text = .ok (some r)) (content : List Char) :
    m.replace text content =
      .ok (some ({ r with content := m.written r.indent content } : Region).text) := by
  rw [replace, h]
  rfl

/-- What is read of a region or put into it takes one that is found. -/
theorem exists_of_map_eq {α : Type} {found : Except UnclosedRegion (Option Region)}
    {f : Region → α} {a : α} (h : (found.map fun r? => r?.map f) = .ok (some a)) :
    ∃ r, found = .ok (some r) := by
  cases found with
  | error e => cases h
  | ok r? =>
    cases r? with
    | none => cases h
    | some r => exact ⟨r, rfl⟩

/-- A region is a lens on the text. It is not found just when the first begin line has no end line
after it, and otherwise lies between two line starts. Hand-written lines that are put back leave
the text as it was. Other content leaves the bytes before and behind the region, the region's start
and indentation, and what putting in something else comes to; and it is read back. -/
theorem region_lens (m : Marker) (text : List Char) :
    (∀ e, locate m text = .error e ↔ e.marker = m.beginLine ∧ m.UnclosedAt text e.line) ∧
    (∀ r, locate m text = .ok (some r) →
      r.start ≤ r.stop ∧ IsLineStart text r.start ∧ IsLineStart text r.stop) ∧
    (m.ownership = .shared → ∀ content indent, m.read text = .ok (some (content, indent)) →
      m.replace text content = .ok (some text)) ∧
    ∀ content text', m.Admits content → m.replace text content = .ok (some text') →
      ∃ r r', locate m text = .ok (some r) ∧ locate m text' = .ok (some r') ∧
        (bytes text').take r.start = (bytes text).take r.start ∧
        (bytes text').drop r'.stop = (bytes text).drop r.stop ∧
        r'.start = r.start ∧ r'.indent = r.indent ∧
        r'.stop = r.start + (bytes (r.writtenContent m content)).length ∧
        m.read text' = .ok (some (m.settled content, r.indent)) ∧
        ∀ more, m.replace text' more = m.replace text more := by
  refine ⟨fun e => locate_eq_error_iff, fun r h => ⟨Nat.le_add_right _ _, isLineStart_of_locate h⟩,
    fun hshared content indent h => ?_, fun content text' hcontent h => ?_⟩
  · obtain ⟨r, hr⟩ := exists_of_map_eq h
    rw [read_of_locate hr] at h
    cases h
    rw [replace_of_locate hr, written, shown, hshared]
    simp only [closeLine_of_locate hr]
    exact congrArg (fun cs => Except.ok (some cs)) (text_of_locate hr)
  · obtain ⟨r, hr⟩ := exists_of_map_eq h
    rw [replace_of_locate hr] at h
    cases h
    have hlines : ∀ l ∈ inclusiveLines content, IsLine l :=
      fun _ hl => isLine_of_endsLine hcontent.closed hl
    obtain ⟨hblank, hbreak⟩ := indent_of_locate hr
    have hplain := not_isMarkerLine_written (m := m) hblank hbreak hlines hcontent.plain
    have hfill := locate_fill hr fun l hl =>
      ⟨(exists_of_mem_written hblank hbreak hlines hl).1, hplain l hl⟩
    have htext := text_of_locate hr
    refine ⟨r, _, hr, hfill, ?_, ?_, rfl, rfl, ?_, ?_, fun more => ?_⟩
    · rw [← htext, start, ← length_bytes]
      simp [Region.text]
    · rw [← htext, stop, stop, start, start, ← length_bytes, ← length_bytes, ← length_bytes]
      simp [Region.text]
    · rw [stop, length_bytes]
      rfl
    · rw [read_of_locate hfill, shown_written hbreak hlines]
    · rw [replace_of_locate hfill, replace_of_locate hr]

/-- A text with a region that is indented. -/
def indentedRegion : List Char :=
  "kept\n  // Generated Tags\n  old\n  // End of generated Tags".toList

/-- Content with a blank line put into an indented region. -/
theorem region_lens_indented : ∃ text',
    (⟨"Tags", .generated⟩ : Marker).replace indentedRegion "new\n \t\n".toList =
        .ok (some text') ∧
      (⟨"Tags", .generated⟩ : Marker).read text' = .ok (some ("new\n\n".toList, "  ".toList)) ∧
      ∀ more, (⟨"Tags", .generated⟩ : Marker).replace text' more =
        (⟨"Tags", .generated⟩ : Marker).replace indentedRegion more := by
  have hadmits : (⟨"Tags", .generated⟩ : Marker).Admits "new\n \t\n".toList :=
    ⟨by decide +kernel, by decide +kernel⟩
  obtain ⟨text', hreplace, hread⟩ : ∃ text',
      (⟨"Tags", .generated⟩ : Marker).replace indentedRegion "new\n \t\n".toList =
          .ok (some text') ∧
        (⟨"Tags", .generated⟩ : Marker).read indentedRegion =
          .ok (some ("old\n".toList, "  ".toList)) :=
    ⟨"kept\n  // Generated Tags\n  new\n\n  // End of generated Tags".toList, by decide +kernel⟩
  obtain ⟨r, -, hr, -, -, -, -, -, -, hagain, hmore⟩ :=
    (region_lens ⟨"Tags", .generated⟩ indentedRegion).2.2.2 _ text' hadmits hreplace
  have hindent : r.indent = "  ".toList := by
    rw [read_of_locate hr] at hread
    simp only [Except.ok.injEq, Option.some.injEq, Prod.mk.injEq] at hread
    exact hread.2
  have hsettled : (⟨"Tags", .generated⟩ : Marker).settled "new\n \t\n".toList =
      "new\n\n".toList := by decide +kernel
  exact ⟨text', hreplace, by rw [← hsettled, ← hindent, hagain], hmore⟩

end Marker

end TypeLang
