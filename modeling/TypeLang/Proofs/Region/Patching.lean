import TypeLang.Proofs.Region.Cut
import TypeLang.Proofs.Success

/-!
# Patching regions

What each region of a text holds when some of them are patched: a patched region holds what was
written, the others hold what they held. It takes that the regions stand apart, and that no marker
line is written; patching keeps both.
-/
namespace TypeLang

open Text

namespace Marker

/-- The region of a marker, when it is there and closed. -/
def region? (m : Marker) (text : List Char) : Option Region := (Region.locate m text).toOption.join

/-- The indentation and the content of a marker's region. -/
def view (m : Marker) (text : List Char) : Option (List Char × List Char) :=
  (m.region? text).map fun r => (r.indent, r.content)

/-- Content at the margin as it stands in a region of this indentation. -/
def written (m : Marker) (indent content : List Char) : List Char :=
  match m.ownership with
  | .generated => indentBlock indent content
  | .shared => closeLine content

/-- The content of a region of this indentation as it reads at the margin. -/
def shown (m : Marker) (indent content : List Char) : List Char :=
  match m.ownership with
  | .generated => dedentBlock indent content
  | .shared => content

/-- The text with the marker's region exchanged, when it has one. -/
def patched (m : Marker) (text content : List Char) : List Char :=
  match m.region? text with
  | some r => ({ r with content := m.written r.indent content } : Region).text
  | none => text

variable {m : Marker} {text content : List Char} {r : Region}

theorem region?_of_locate {found : Option Region} (h : Region.locate m text = .ok found) :
    m.region? text = found := by
  simp [region?, h, Except.toOption]

theorem region?_eq_some_iff : m.region? text = some r ↔ Region.locate m text = .ok (some r) := by
  cases h : Region.locate m text <;> simp [region?, h, Except.toOption]

/-- Unless the region is not closed, it is located exactly when it is there. -/
theorem locate_of_isOk (h : (Region.locate m text).isOk) :
    Region.locate m text = .ok (m.region? text) := by
  obtain ⟨found, hfound⟩ := exists_of_isOk h
  rw [region?_of_locate hfound, hfound]

theorem read_of_isOk (h : (Region.locate m text).isOk) :
    m.read text = .ok ((m.view text).map fun v => (m.shown v.1 v.2, v.1)) := by
  rw [Marker.read, locate_of_isOk h, view]
  cases m.region? text with
  | none => rfl
  | some r => rfl

theorem replace_of_isOk (h : (Region.locate m text).isOk) (content : List Char) :
    (do return (← m.replace text content).getD text) = Except.ok (m.patched text content) := by
  rw [Marker.replace, locate_of_isOk h, patched]
  cases m.region? text with
  | none => rfl
  | some r => rfl

end Marker

namespace Region

/-- No region holds the begin line of another one. -/
def Apart (ms : List Marker) (text : List Char) : Prop :=
  ∀ m ∈ ms, ∀ n ∈ ms, m ≠ n → ∀ r ∈ m.region? text,
    ∀ line ∈ inclusiveLines r.content, isMarkerLine n.beginLine line = false

instance (ms : List Marker) (text : List Char) : Decidable (Apart ms text) :=
  inferInstanceAs (Decidable (∀ m ∈ ms, _))

/-- Every region is closed, and they stand apart. -/
structure Tidy (ms : List Marker) (text : List Char) : Prop where
  closed : ∀ m ∈ ms, (locate m text).isOk
  apart : Apart ms text

/-- Content that puts no marker line into a region that was not there: its lines are old ones, or no
marker lines. -/
def Fits (ms : List Marker) (old new : List Char) : Prop :=
  ∀ line ∈ inclusiveLines new, IsLine line ∧ (line ∈ inclusiveLines old ∨
    ∀ m ∈ ms, isMarkerLine m.beginLine line = false ∧ isMarkerLine m.endLine line = false)

variable {ms : List Marker} {m n : Marker} {text indent old new content : List Char} {c : Cut}

/-! ## One region -/

theorem isLine_of_cut (hlines : c.lines = inclusiveLines text) :
    (∀ l ∈ c.before ++ c.opening :: c.content, IsLine l) ∧
      inclusiveLines (c.closing :: c.after).flatten = c.closing :: c.after := by
  have heq : inclusiveLines text =
      (c.before ++ c.opening :: c.content) ++ (c.closing :: c.after) := by
    rw [← hlines, Cut.lines]
    simp
  exact isLine_of_append heq (by simp)

theorem inclusiveLines_content (hlines : c.lines = inclusiveLines text) :
    inclusiveLines c.region.content = c.content := by
  apply inclusiveLines_flatten
  intro l hl
  exact (isLine_of_cut hlines).1 l (by simp [hl])

/-- What is seen of a region comes from a cut. -/
theorem exists_cut_of_view (h : m.view text = some (indent, content)) :
    ∃ c : Cut, c.IsOf m ∧ c.lines = inclusiveLines text ∧ m.region? text = some c.region ∧
      indent = c.region.indent ∧ content = c.region.content := by
  obtain ⟨r, hr, heq⟩ := Option.map_eq_some_iff.mp h
  obtain ⟨c, hc, hlines, rfl⟩ := locate_eq_some_iff.mp (Marker.region?_eq_some_iff.mp hr)
  cases heq
  exact ⟨c, hc, hlines, hr, rfl, rfl⟩

/-- A marker line is not blank. -/
theorem trim_ne_nil_of_isMarkerLine {l : List Char} (h : isMarkerLine m.beginLine l) :
    trim l ≠ [] := by
  simp only [isMarkerLine, beq_iff_eq] at h
  rw [h]
  rcases m with ⟨name, ownership⟩
  cases ownership <;> simp [Marker.beginLine, String.toList_append]

/-- Marker lines are indented with blanks, on their own line. -/
theorem blank_of_view (h : m.view text = some (indent, content)) :
    (∀ c ∈ indent, isBlank c) ∧ '\n' ∉ indent := by
  obtain ⟨c, hc, hlines, -, rfl, -⟩ := exists_cut_of_view h
  have hblank : ∀ d ∈ c.region.indent, isBlank d := fun d hd => List.mem_takeWhile_imp hd
  refine ⟨hblank, fun hmem => ?_⟩
  obtain ⟨body, hbody, hopening⟩ := (isLine_of_cut hlines).1 c.opening (by simp)
  simp only [Cut.region, hopening, List.takeWhile_append] at hmem
  split at hmem
  · next hall =>
    -- The line feed is the last character, so the whole line would be blank.
    have hbodyBlank : ∀ d ∈ body, isBlank d := by
      rw [← List.takeWhile_eq_self_iff]
      exact (List.takeWhile_prefix isBlank).eq_of_length hall
    apply trim_ne_nil_of_isMarkerLine hc.opening
    rw [hopening, trim_append_newline, ← List.append_nil body, trim_blank_append hbodyBlank,
      trim_nil]
  · exact hbody ((List.takeWhile_prefix isBlank).subset hmem)

theorem isLine_of_view (h : m.view text = some (indent, content)) :
    ∀ l ∈ inclusiveLines content, IsLine l := by
  obtain ⟨c, -, hlines, -, -, rfl⟩ := exists_cut_of_view h
  rw [inclusiveLines_content hlines]
  intro l hl
  exact (isLine_of_cut hlines).1 l (by simp [hl])

theorem not_endLine_of_view (h : m.view text = some (indent, content)) :
    ∀ l ∈ inclusiveLines content, isMarkerLine m.endLine l = false := by
  obtain ⟨c, hc, hlines, -, -, rfl⟩ := exists_cut_of_view h
  rw [inclusiveLines_content hlines]
  exact hc.content

theorem not_beginLine_of_view (h : Apart ms text) (hm : m ∈ ms) (hn : n ∈ ms) (hne : m ≠ n)
    (hview : m.view text = some (indent, content)) :
    ∀ l ∈ inclusiveLines content, isMarkerLine n.beginLine l = false := by
  obtain ⟨r, hr, heq⟩ := Option.map_eq_some_iff.mp hview
  cases heq
  exact h m hm n hn hne r hr

/-- The lines of a text whose region was filled. -/
theorem inclusiveLines_fill (hlines : c.lines = inclusiveLines text)
    (hnew : ∀ l ∈ inclusiveLines new, IsLine l) :
    inclusiveLines ({ c.region with content := new } : Region).text =
      (c.fill (inclusiveLines new)).lines := by
  obtain ⟨hfront, hback⟩ := isLine_of_cut hlines
  have hclosed : ∀ l ∈ c.before ++ c.opening :: inclusiveLines new, IsLine l := by
    intro l hl
    simp only [List.mem_append, List.mem_cons] at hl
    rcases hl with hl | rfl | hl
    · exact hfront l (by simp [hl])
    · exact hfront _ (by simp)
    · exact hnew l hl
  have htext : ({ c.region with content := new } : Region).text =
      (c.before ++ c.opening :: inclusiveLines new).flatten ++ (c.closing :: c.after).flatten := by
    simp [Region.text, Cut.region]
  rw [htext, inclusiveLines_flatten_append hclosed, hback]
  simp [Cut.lines, Cut.fill]

/-! ## One region patched -/

theorem patched_eq_of_view_eq_none (h : m.view text = none) (content : List Char) :
    m.patched text content = text := by
  rw [Marker.patched, Option.map_eq_none_iff.mp h]

theorem patched_eq_of_cut (hregion : m.region? text = some c.region) (content : List Char) :
    m.patched text content =
      ({ c.region with content := m.written c.region.indent content } : Region).text := by
  rw [Marker.patched, hregion]

theorem region?_of_cut (hc : c.IsOf m) (hlines : c.lines = inclusiveLines text) :
    Region.locate m text = .ok (some c.region) ∧ m.region? text = some c.region := by
  have hlocate := locate_eq_some_iff.mpr ⟨c, hc, hlines, rfl⟩
  exact ⟨hlocate, Marker.region?_eq_some_iff.mpr hlocate⟩

theorem view_of_cut (hc : c.IsOf m) (hlines : c.lines = inclusiveLines text) :
    m.view text = some (c.region.indent, c.region.content) := by
  rw [Marker.view, (region?_of_cut hc hlines).2, Option.map_some]

/-- Of two regions that stand apart one lies in front. -/
theorem Apart.precedes_or_precedes {d : Cut} (h : Apart ms text) (hm : m ∈ ms) (hn : n ∈ ms)
    (hne : m ≠ n) (hc : c.IsOf m) (hclines : c.lines = inclusiveLines text) (hd : d.IsOf n)
    (hdlines : d.lines = inclusiveLines text) : c.Precedes d ∨ d.Precedes c := by
  have hin := not_beginLine_of_view h hm hn hne (view_of_cut hc hclines)
  have hout := not_beginLine_of_view h hn hm hne.symm (view_of_cut hd hdlines)
  rw [inclusiveLines_content hclines] at hin
  rw [inclusiveLines_content hdlines] at hout
  exact hc.precedes_or_precedes hd hne (hclines.trans hdlines.symm) hin hout

/-- A patched region is seen with what was written into it. -/
theorem patched_self (h : m.view text = some (indent, old))
    (hnew : ∀ l ∈ inclusiveLines (m.written indent content), IsLine l ∧
      isMarkerLine m.endLine l = false) :
    (locate m (m.patched text content)).isOk ∧
      m.view (m.patched text content) = some (indent, m.written indent content) := by
  obtain ⟨c, hc, hlines, hregion, rfl, rfl⟩ := exists_cut_of_view h
  rw [patched_eq_of_cut hregion]
  have hfill := inclusiveLines_fill hlines fun l hl => (hnew l hl).1
  have hself := hc.fill fun l hl => (hnew l hl).2
  obtain ⟨hlocate, hfound⟩ := region?_of_cut hself hfill.symm
  refine ⟨isOk_of_eq_ok hlocate, ?_⟩
  rw [Marker.view, hfound]
  simp [Cut.region, Cut.fill]

/-- Patching a region keeps what is seen of another one. -/
theorem patched_other (h : Tidy ms text) (hm : m ∈ ms) (hn : n ∈ ms) (hne : m ≠ n)
    (hview : m.view text = some (indent, old))
    (hnew : ∀ l ∈ inclusiveLines (m.written indent content), IsLine l ∧
      isMarkerLine n.beginLine l = false) :
    (locate n (m.patched text content)).isOk ∧
      n.view (m.patched text content) = n.view text := by
  obtain ⟨c, hc, hlines, hregion, rfl, rfl⟩ := exists_cut_of_view hview
  have hinside := not_beginLine_of_view h.apart hm hn hne hview
  rw [inclusiveLines_content hlines] at hinside
  rw [patched_eq_of_cut hregion]
  have hfill := inclusiveLines_fill hlines fun l hl => (hnew l hl).1
  have hbegin := fun l hl => (hnew l hl).2
  have hlocate := Marker.locate_of_isOk (h.closed n hn)
  cases hn' : n.region? text with
  | none =>
    rw [hn'] at hlocate
    have hnone := locate_eq_none_iff.mp hlocate
    rw [← hlines] at hnone
    have hstill := Cut.notMem_fill hnone hbegin
    rw [← hfill] at hstill
    have hlocate' := locate_eq_none_iff.mpr hstill
    refine ⟨isOk_of_eq_ok hlocate', ?_⟩
    rw [Marker.view, Marker.view, Marker.region?_of_locate hlocate', hn']
  | some q =>
    have hother : n.view text = some (q.indent, q.content) := by simp [Marker.view, hn']
    obtain ⟨d, hd, hdlines, -, hindent, hcontent⟩ := exists_cut_of_view hother
    have houtside := not_beginLine_of_view h.apart hn hm (Ne.symm hne) hother
    rw [hcontent, inclusiveLines_content hdlines] at houtside
    obtain ⟨e, he, helines, heopening, hecontent⟩ :=
      hc.frame hd hne (hlines.trans hdlines.symm) hinside houtside hbegin
    obtain ⟨hlocate', hfound⟩ := region?_of_cut he (helines.trans hfill.symm)
    refine ⟨isOk_of_eq_ok hlocate', ?_⟩
    rw [hother, Marker.view, hfound, hindent, hcontent]
    simp [Cut.region, heopening, hecontent]

/-- What holds of every view holds of what a tidy text shows of regions apart. -/
theorem apart_of_view (h : ∀ m ∈ ms, ∀ n ∈ ms, m ≠ n → ∀ indent content,
    m.view text = some (indent, content) →
      ∀ l ∈ inclusiveLines content, isMarkerLine n.beginLine l = false) : Apart ms text := by
  intro m hm n hn hne r hr
  exact h m hm n hn hne r.indent r.content (by simp [Marker.view, Option.mem_def.mp hr])

/-- What patching one region does to what the regions of a text hold. -/
theorem Tidy.patched (h : Tidy ms text) (hm : m ∈ ms)
    (hfits : ∀ indent old, m.view text = some (indent, old) →
      Fits ms old (m.written indent content)) :
    Tidy ms (m.patched text content) ∧
      m.view (m.patched text content) =
        (m.view text).map (fun v => (v.1, m.written v.1 content)) ∧
      ∀ n ∈ ms, n ≠ m → n.view (m.patched text content) = n.view text := by
  cases hview : m.view text with
  | none =>
    rw [patched_eq_of_view_eq_none hview, hview]
    exact ⟨h, rfl, fun _ _ _ => rfl⟩
  | some v =>
    obtain ⟨indent, old⟩ := v
    have hlines := hfits indent old hview
    have hend : ∀ l ∈ inclusiveLines (m.written indent content), IsLine l ∧
        isMarkerLine m.endLine l = false := by
      intro l hl
      refine ⟨(hlines l hl).1, ?_⟩
      rcases (hlines l hl).2 with hold | hplain
      · exact not_endLine_of_view hview l hold
      · exact (hplain m hm).2
    have hbegin : ∀ n ∈ ms, n ≠ m → ∀ l ∈ inclusiveLines (m.written indent content), IsLine l ∧
        isMarkerLine n.beginLine l = false := by
      intro n hn hne l hl
      refine ⟨(hlines l hl).1, ?_⟩
      rcases (hlines l hl).2 with hold | hplain
      · exact not_beginLine_of_view h.apart hm hn (Ne.symm hne) hview l hold
      · exact (hplain n hn).1
    obtain ⟨hclosed, hself⟩ := patched_self hview hend
    have hother := fun n hn hne => patched_other h hm hn (Ne.symm hne) hview (hbegin n hn hne)
    refine ⟨⟨fun n hn => ?_, ?_⟩, hself, fun n hn hne => (hother n hn hne).2⟩
    · by_cases hne : n = m
      · exact hne ▸ hclosed
      · exact (hother n hn hne).1
    · apply apart_of_view
      intro p hp n hn hne indent' content' hview'
      by_cases hpm : p = m
      · subst hpm
        rw [hself] at hview'
        cases hview'
        exact fun l hl => (hbegin n hn (Ne.symm hne) l hl).2
      · rw [(hother p hp hpm).2] at hview'
        exact not_beginLine_of_view h.apart hp hn hne hview'

/-! ## Several regions patched -/

variable {sections : List (Marker × List Char)}

/-- Sections are put in one after the other. -/
theorem patch_cons (hm : (locate m text).isOk) (content : List Char) :
    patch ((m, content) :: sections) text = patch sections (m.patched text content) := by
  rw [patch, List.foldlM_cons, Marker.replace_of_isOk hm]
  rfl

/-- Patching the regions of a tidy text succeeds; the patched regions hold what was written, and
the others what they held. -/
theorem Tidy.patch (h : Tidy ms text) (hmarkers : ∀ entry ∈ sections, entry.1 ∈ ms)
    (hnodup : (sections.map (·.1)).Nodup)
    (hfits : ∀ entry ∈ sections, ∀ indent old, entry.1.view text = some (indent, old) →
      Fits ms old (entry.1.written indent entry.2)) :
    ∃ text', TypeLang.patch sections text = .ok text' ∧ Tidy ms text' ∧
      (∀ entry ∈ sections, entry.1.view text' =
        (entry.1.view text).map fun v => (v.1, entry.1.written v.1 entry.2)) ∧
      ∀ n ∈ ms, n ∉ sections.map (·.1) → n.view text' = n.view text := by
  induction sections generalizing text with
  | nil => exact ⟨text, rfl, h, by simp, fun _ _ _ => rfl⟩
  | cons entry sections ih =>
    obtain ⟨m, content⟩ := entry
    have hm := hmarkers (m, content) List.mem_cons_self
    rw [List.map_cons, List.nodup_cons] at hnodup
    obtain ⟨htidy, hself, hother⟩ := h.patched hm (hfits (m, content) List.mem_cons_self)
    have hne : ∀ entry ∈ sections, entry.1 ≠ m := fun entry hentry heq =>
      hnodup.1 (List.mem_map.mpr ⟨entry, hentry, heq⟩)
    have hkept : ∀ entry ∈ sections, entry.1.view (m.patched text content) = entry.1.view text :=
      fun entry hentry => hother entry.1 (hmarkers entry (List.mem_cons_of_mem _ hentry))
        (hne entry hentry)
    obtain ⟨text', hpatch, htidy', hviews, hrest⟩ :=
      ih htidy (fun entry hentry => hmarkers entry (List.mem_cons_of_mem _ hentry)) hnodup.2
        (fun entry hentry indent old hview =>
          hfits entry (List.mem_cons_of_mem _ hentry) indent old (hkept entry hentry ▸ hview))
    refine ⟨text', by rw [patch_cons (h.closed m hm), hpatch], htidy', ?_, ?_⟩
    · intro entry hentry
      rcases List.mem_cons.mp hentry with rfl | hentry
      · rw [hrest m hm hnodup.1, hself]
      · rw [hviews entry hentry, hkept entry hentry]
    · intro n hn hnotMem
      simp only [List.map_cons, List.mem_cons, not_or] at hnotMem
      rw [hrest n hn hnotMem.2, hother n hn hnotMem.1]

/-- Patching writes nothing new into regions that hold what is written already. -/
theorem patch_of_view (hclosed : ∀ entry ∈ sections, (locate entry.1 text).isOk)
    (hviews : ∀ entry ∈ sections, ∀ indent old, entry.1.view text = some (indent, old) →
      entry.1.written indent entry.2 = old) : patch sections text = .ok text := by
  induction sections with
  | nil => rfl
  | cons entry sections ih =>
    obtain ⟨m, content⟩ := entry
    have hsame : m.patched text content = text := by
      rw [Marker.patched]
      cases hr : m.region? text with
      | none => rfl
      | some r =>
        have hview : m.view text = some (r.indent, r.content) := by simp [Marker.view, hr]
        simp only [hviews (m, content) List.mem_cons_self _ _ hview]
        exact text_of_locate (Marker.region?_eq_some_iff.mp hr)
    rw [patch_cons (hclosed _ List.mem_cons_self), hsame]
    exact ih (fun entry hentry => hclosed entry (List.mem_cons_of_mem _ hentry))
      fun entry hentry => hviews entry (List.mem_cons_of_mem _ hentry)

end Region

end TypeLang
