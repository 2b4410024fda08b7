import TypeLang.Proofs.Text.Indentation
import TypeLang.Region.Basic

/-!
# Regions as cuts of a text

A region is found exactly where the lines of the text can be cut around it: no begin line stands in
front of the first one, and no end line between it and the closing one. Content that is exchanged
leaves the cut of the marker where it was, and, when the regions stand apart, those of the others.
-/
namespace TypeLang

open Text

namespace Marker

/-- Markers are told apart by their begin lines. -/
theorem beginLine_inj {m n : Marker} (h : m.beginLine = n.beginLine) : m = n := by
  have hchars := congrArg String.toList h
  rcases m with ⟨name, ownership⟩
  rcases n with ⟨name', ownership'⟩
  cases ownership <;> cases ownership' <;>
    simp [beginLine, String.toList_append, String.toList_inj] at hchars ⊢
  · exact hchars
  · exact hchars

theorem beginLine_ne_endLine (m n : Marker) : m.beginLine ≠ n.endLine := by
  intro h
  have hchars := congrArg String.toList h
  rcases m with ⟨name, ownership⟩
  rcases n with ⟨name', ownership'⟩
  cases ownership <;> cases ownership' <;>
    simp [beginLine, endLine, String.toList_append] at hchars

end Marker

namespace Region

/-- The lines of a text around those of a region, and its marker lines. -/
structure Cut where
  before : List (List Char)
  opening : List Char
  content : List (List Char)
  closing : List Char
  after : List (List Char)

namespace Cut

def lines (c : Cut) : List (List Char) :=
  c.before ++ c.opening :: (c.content ++ c.closing :: c.after)

def region (c : Cut) : Region where
  before := c.before.flatten ++ c.opening
  content := c.content.flatten
  after := c.closing ++ c.after.flatten
  indent := c.opening.takeWhile isBlank

/-- The cut is the one of a marker. -/
structure IsOf (c : Cut) (m : Marker) : Prop where
  before : ∀ l ∈ c.before, isMarkerLine m.beginLine l = false
  opening : isMarkerLine m.beginLine c.opening
  content : ∀ l ∈ c.content, isMarkerLine m.endLine l = false
  closing : isMarkerLine m.endLine c.closing

def fill (c : Cut) (content : List (List Char)) : Cut := { c with content }

variable {c d : Cut} {m n : Marker} {new : List (List Char)}

theorem IsOf.fill (h : c.IsOf m) (hnew : ∀ l ∈ new, isMarkerLine m.endLine l = false) :
    (c.fill new).IsOf m := ⟨h.before, h.opening, hnew, h.closing⟩

/-! ## Frames -/

theorem ne_of_isMarkerLine {a b : String} {l k : List Char} (hne : a ≠ b)
    (hl : isMarkerLine a l) (hk : isMarkerLine b k) : l ≠ k := by
  rintro rfl
  simp only [isMarkerLine, beq_iff_eq] at hl hk
  exact hne (String.toList_inj.mp (hl.symm.trans hk))

/-- One cut lies in front of another. -/
def Precedes (c d : Cut) : Prop := ∃ gap,
  d.before = c.before ++ c.opening :: (c.content ++ c.closing :: gap) ∧
    c.after = gap ++ d.opening :: (d.content ++ d.closing :: d.after)

theorem precedes_of_before {mid : List (List Char)} (hbefore : d.before = c.before ++ mid)
    (hrest : c.opening :: (c.content ++ c.closing :: c.after) =
      mid ++ d.opening :: (d.content ++ d.closing :: d.after))
    (hopening : c.opening ≠ d.opening) (hclosing : c.closing ≠ d.opening)
    (hcontent : d.opening ∉ c.content) : c.Precedes d := by
  cases mid with
  | nil => exact absurd (List.cons.inj hrest).1 hopening
  | cons first mid =>
    simp only [List.cons_append, List.cons.injEq] at hrest
    obtain ⟨rfl, hrest⟩ := hrest
    rcases List.append_eq_append_iff.mp hrest with ⟨gap, rfl, htail⟩ | ⟨gap, hinside, htail⟩
    · cases gap with
      | nil => exact absurd (List.cons.inj htail).1 hclosing
      | cons last gap =>
        simp only [List.cons_append, List.cons.injEq] at htail
        obtain ⟨rfl, htail⟩ := htail
        exact ⟨gap, hbefore, htail⟩
    · cases gap with
      | nil => exact absurd (List.cons.inj htail).1.symm hclosing
      | cons last gap =>
        simp only [List.cons_append, List.cons.injEq] at htail
        obtain ⟨rfl, -⟩ := htail
        exact absurd (by simp [hinside]) hcontent

/-- Of two regions that do not hold the begin line of each other one lies in front. -/
theorem IsOf.precedes_or_precedes (hc : c.IsOf m) (hd : d.IsOf n) (hne : m ≠ n)
    (hlines : c.lines = d.lines) (hin : ∀ l ∈ c.content, isMarkerLine n.beginLine l = false)
    (hout : ∀ l ∈ d.content, isMarkerLine m.beginLine l = false) :
    c.Precedes d ∨ d.Precedes c := by
  have hopening : c.opening ≠ d.opening :=
    ne_of_isMarkerLine (fun h => hne (Marker.beginLine_inj h)) hc.opening hd.opening
  have hinside : d.opening ∉ c.content := by
    intro hmem
    simpa [hd.opening] using hin d.opening hmem
  have houtside : c.opening ∉ d.content := by
    intro hmem
    simpa [hc.opening] using hout c.opening hmem
  rcases List.append_eq_append_iff.mp hlines with ⟨mid, hbefore, hrest⟩ | ⟨mid, hbefore, hrest⟩
  · have hclosing : c.closing ≠ d.opening :=
      ne_of_isMarkerLine (Marker.beginLine_ne_endLine n m).symm hc.closing hd.opening
    exact .inl (precedes_of_before hbefore hrest hopening hclosing hinside)
  · have hclosing : d.closing ≠ c.opening :=
      ne_of_isMarkerLine (Marker.beginLine_ne_endLine m n).symm hd.closing hc.opening
    exact .inr (precedes_of_before hbefore hrest hopening.symm hclosing houtside)

/-- A cut is found again behind a region that was filled. -/
theorem IsOf.behind (hd : d.IsOf n) {gap : List (List Char)}
    (hbefore : d.before = c.before ++ c.opening :: (c.content ++ c.closing :: gap))
    (hnew : ∀ l ∈ new, isMarkerLine n.beginLine l = false) :
    ({ d with before := c.before ++ c.opening :: (new ++ c.closing :: gap) } : Cut).IsOf n := by
  refine ⟨fun l hl => ?_, hd.opening, hd.content, hd.closing⟩
  have hold := hd.before l
  simp only [hbefore, List.mem_append, List.mem_cons] at hl hold
  rcases hl with hl | rfl | hl | rfl | hl
  · exact hold (.inl hl)
  · exact hold (.inr (.inl rfl))
  · exact hnew l hl
  · exact hold (.inr (.inr (.inr (.inl rfl))))
  · exact hold (.inr (.inr (.inr (.inr hl))))

/-- Filling a region leaves the other ones that stand apart where they are. -/
theorem IsOf.frame (hc : c.IsOf m) (hd : d.IsOf n) (hne : m ≠ n) (hlines : c.lines = d.lines)
    (hin : ∀ l ∈ c.content, isMarkerLine n.beginLine l = false)
    (hout : ∀ l ∈ d.content, isMarkerLine m.beginLine l = false)
    (hnew : ∀ l ∈ new, isMarkerLine n.beginLine l = false) :
    ∃ e : Cut, e.IsOf n ∧ e.lines = (c.fill new).lines ∧ e.opening = d.opening ∧
      e.content = d.content := by
  rcases hc.precedes_or_precedes hd hne hlines hin hout with
    ⟨gap, hbefore, hafter⟩ | ⟨gap, hbefore, hafter⟩
  · exact ⟨{ d with before := c.before ++ c.opening :: (new ++ c.closing :: gap) },
      hd.behind hbefore hnew, by simp [lines, Cut.fill, hafter], rfl, rfl⟩
  · exact ⟨{ d with after := gap ++ c.opening :: (new ++ c.closing :: c.after) },
      ⟨hd.before, hd.opening, hd.content, hd.closing⟩, by simp [lines, Cut.fill, hbefore], rfl, rfl⟩

/-- Filling a region brings no begin line in that the new content does not have. -/
theorem notMem_fill (hlines : ∀ l ∈ c.lines, isMarkerLine n.beginLine l = false)
    (hnew : ∀ l ∈ new, isMarkerLine n.beginLine l = false) :
    ∀ l ∈ (c.fill new).lines, isMarkerLine n.beginLine l = false := by
  simp only [lines, Cut.fill, List.mem_append, List.mem_cons] at hlines ⊢
  rintro l (hl | rfl | hl | rfl | hl)
  · exact hlines l (.inl hl)
  · exact hlines _ (.inr (.inl rfl))
  · exact hnew l hl
  · exact hlines _ (.inr (.inr (.inr (.inl rfl))))
  · exact hlines l (.inr (.inr (.inr (.inr hl))))

end Cut

variable {m n : Marker} {text : List Char} {r : Region}

/-- No region is found exactly when no line begins one. -/
theorem locate_eq_none_iff :
    locate m text = .ok none ↔ ∀ l ∈ inclusiveLines text, isMarkerLine m.beginLine l = false := by
  rw [← cutLines?_eq_none_iff]
  simp only [locate]
  split
  · next h => simp [h]
  · next h =>
    rw [h]
    split <;> simp

/-- A region is found exactly when the lines can be cut around it. -/
theorem locate_eq_some_iff : locate m text = .ok (some r) ↔
    ∃ c : Cut, c.IsOf m ∧ c.lines = inclusiveLines text ∧ c.region = r := by
  constructor
  · intro h
    simp only [locate] at h
    split at h
    · cases h
    · next before opening rest hbegin =>
      split at h
      · cases h
      · next content closing after hend =>
        obtain ⟨hlines, hbefore, hopening⟩ := cutLines?_eq_some_iff.mp hbegin
        obtain ⟨rfl, hcontent, hclosing⟩ := cutLines?_eq_some_iff.mp hend
        simp only [Except.ok.injEq, Option.some.injEq] at h
        exact ⟨⟨before, opening, content, closing, after⟩,
          ⟨hbefore, hopening, hcontent, hclosing⟩, hlines.symm, h⟩
  · rintro ⟨c, hc, hlines, rfl⟩
    have hbegin : cutLines? (isMarkerLine m.beginLine) c.lines =
        some (c.before, c.opening, c.content ++ c.closing :: c.after) :=
      cutLines?_append hc.before hc.opening
    have hend : cutLines? (isMarkerLine m.endLine) (c.content ++ c.closing :: c.after) =
        some (c.content, c.closing, c.after) := cutLines?_append hc.content hc.closing
    rw [locate, ← hlines]
    simp only [hbegin, hend]
    rfl

end Region

end TypeLang
