import TypeLang.Proofs.Region.Lens

/-!
# The course of patching

What putting contents into the regions of a text comes to, told by the lines of the text. Sections
are taken in order, each over what those before it left. A marker without a begin line is passed
over. Else the lines between its first begin line and the first end line behind that give way to the
content, indented as the begin line is if the region is a generated one, and all other lines stay.
A begin line without an end line behind it ends the course.
-/
namespace TypeLang

open Text Region

/-- Putting contents into the regions of a text in turn comes to a text or to an error. -/
inductive Patches :
    List (Marker × List Char) → List Char → Except UnclosedRegion (List Char) → Prop
  | done (text : List Char) : Patches [] text (.ok text)
  | absent {m : Marker} {content text : List Char} {sections : List (Marker × List Char)}
      {outcome : Except UnclosedRegion (List Char)} :
      (∀ line ∈ inclusiveLines text, isMarkerLine m.beginLine line = false) →
      Patches sections text outcome → Patches ((m, content) :: sections) text outcome
  | filled {m : Marker} {content text : List Char} {sections : List (Marker × List Char)}
      {outcome : Except UnclosedRegion (List Char)} {c : Cut} :
      c.IsOf m → c.lines = inclusiveLines text →
      Patches sections (c.before.flatten ++ c.opening ++
        m.written (c.opening.takeWhile isBlank) content ++ c.closing ++ c.after.flatten) outcome →
      Patches ((m, content) :: sections) text outcome
  | unclosed {m : Marker} {content text : List Char} {sections : List (Marker × List Char)}
      {number : Nat} : m.UnclosedAt text number →
      Patches ((m, content) :: sections) text (.error ⟨m.beginLine, number⟩)

variable {m : Marker} {content text : List Char} {sections : List (Marker × List Char)}
  {outcome : Except UnclosedRegion (List Char)}

/-- A region is looked for without an error unless it is not closed. -/
theorem isOk_locate_iff : (locate m text).isOk ↔ ∀ number, ¬m.UnclosedAt text number := by
  constructor
  · intro hok number hunclosed
    rw [Marker.locate_eq_error_iff (e := ⟨m.beginLine, number⟩) |>.mpr ⟨rfl, hunclosed⟩] at hok
    cases hok
  · intro hclosed
    cases hlocate : locate m text with
    | error e => exact absurd (Marker.locate_eq_error_iff.mp hlocate).2 (hclosed e.line)
    | ok found => rfl

theorem patch_of_locate_none (h : locate m text = .ok none) :
    patch ((m, content) :: sections) text = patch sections text := by
  rw [patch, List.foldlM_cons, Marker.replace, h]
  rfl

/-- A region that is found is filled, and the sections behind it are put into what that gives. -/
theorem patch_of_locate_some {c : Cut} (h : locate m text = .ok (some c.region)) :
    patch ((m, content) :: sections) text = patch sections (c.before.flatten ++ c.opening ++
      m.written (c.opening.takeWhile isBlank) content ++ c.closing ++ c.after.flatten) := by
  have hfilled : ({ c.region with content := c.region.writtenContent m content } : Region).text =
      c.before.flatten ++ c.opening ++ m.written (c.opening.takeWhile isBlank) content ++
        c.closing ++ c.after.flatten := (List.append_assoc _ _ _).symm
  rw [patch, List.foldlM_cons, Marker.replace, h, ← hfilled]
  rfl

theorem patch_of_locate_error {e : UnclosedRegion} (h : locate m text = .error e) :
    patch ((m, content) :: sections) text = .error e := by
  rw [patch, List.foldlM_cons, Marker.replace, h]
  rfl

theorem Patches.patch_eq (h : Patches sections text outcome) : patch sections text = outcome := by
  induction h with
  | done text => rfl
  | absent hnone _ ih => rw [patch_of_locate_none (locate_eq_none_iff.mpr hnone), ih]
  | filled hc hlines _ ih =>
    rw [patch_of_locate_some (locate_eq_some_iff.mpr ⟨_, hc, hlines, rfl⟩), ih]
  | unclosed hunclosed =>
    exact patch_of_locate_error (Marker.locate_eq_error_iff.mpr ⟨rfl, hunclosed⟩)

theorem patches_patch (sections : List (Marker × List Char)) (text : List Char) :
    Patches sections text (patch sections text) := by
  induction sections generalizing text with
  | nil => exact .done text
  | cons entry sections ih =>
    obtain ⟨m, content⟩ := entry
    cases hlocate : locate m text with
    | error e =>
      obtain ⟨hmarker, hunclosed⟩ := Marker.locate_eq_error_iff.mp hlocate
      rw [patch_of_locate_error hlocate]
      rcases e with ⟨marker, number⟩
      cases hmarker
      exact .unclosed hunclosed
    | ok found =>
      cases found with
      | none =>
        rw [patch_of_locate_none hlocate]
        exact .absent (locate_eq_none_iff.mp hlocate) (ih text)
      | some r =>
        obtain ⟨c, hc, hlines, rfl⟩ := locate_eq_some_iff.mp hlocate
        rw [patch_of_locate_some hlocate]
        exact .filled hc hlines (ih _)

/-- Patching takes this course and no other. -/
theorem patches_iff : Patches sections text outcome ↔ patch sections text = outcome :=
  ⟨Patches.patch_eq, fun h => h ▸ patches_patch sections text⟩

end TypeLang
