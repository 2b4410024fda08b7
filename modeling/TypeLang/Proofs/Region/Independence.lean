import TypeLang.Proofs.Region.Lens

/-!
# Independence of patches

Patches of regions that stand apart commute: filling one region moves the others and leaves their
marker lines and contents alone. So the order of the patches does not matter, markers that are
absent do not either, and nothing outside of the regions changes.
-/
namespace TypeLang

open Text

namespace Region

/-- The lines outside of the regions of some markers, the marker lines among them. -/
def outsideLines (ms : List Marker) : List (List Char) → List (List Char)
  | [] => []
  | line :: rest =>
    match ms.find? fun m => isMarkerLine m.beginLine line with
    | none => line :: outsideLines ms rest
    | some m => line :: outsideLines ms (rest.dropWhile fun l => !isMarkerLine m.endLine l)
termination_by lines => lines.length
decreasing_by
  · exact Nat.lt_succ_self _
  · exact Nat.lt_succ_of_le (List.dropWhile_suffix _).length_le

/-- Regions that can be patched in any order: they are closed and apart, and each is opened once. -/
structure Standing (ms : List Marker) (text : List Char) : Prop extends Tidy ms text where
  once : ∀ m ∈ ms, (inclusiveLines text).countP (isMarkerLine m.beginLine) ≤ 1

/-- Content that can be written between any of the markers: it is empty or ends its last line, and
no line of it is a marker line. -/
structure Plain (ms : List Marker) (content : List Char) : Prop where
  closed : content = [] ∨ endsLine content
  plain : ∀ line ∈ inclusiveLines content, ∀ m ∈ ms,
    isMarkerLine m.beginLine line = false ∧ isMarkerLine m.endLine line = false

variable {ms : List Marker} {m n : Marker} {text content content' indent old : List Char}
  {c d : Cut} {new new' front back : List (List Char)} {line : List Char}

theorem Plain.isLine (h : Plain ms content) : ∀ l ∈ inclusiveLines content, IsLine l :=
  fun _ hl => isLine_of_endsLine h.closed hl

/-- What is written of plain content is plain. -/
theorem Plain.written (h : Plain ms content) (hview : m.view text = some (indent, old)) :
    ∀ l ∈ inclusiveLines (m.written indent content), IsLine l ∧ ∀ n ∈ ms,
      isMarkerLine n.beginLine l = false ∧ isMarkerLine n.endLine l = false := by
  obtain ⟨hblank, hbreak⟩ := blank_of_view hview
  intro l hl
  refine ⟨(Marker.exists_of_mem_written hblank hbreak h.isLine hl).1, fun n hn => ⟨?_, ?_⟩⟩
  · exact Marker.not_isMarkerLine_written hblank hbreak h.isLine
      (fun k hk => (h.plain k hk n hn).1) l hl
  · exact Marker.not_isMarkerLine_written hblank hbreak h.isLine
      (fun k hk => (h.plain k hk n hn).2) l hl

theorem Plain.fits (h : Plain ms content) (hview : m.view text = some (indent, old)) :
    Fits ms old (m.written indent content) :=
  fun l hl => ⟨(h.written hview l hl).1, .inr (h.written hview l hl).2⟩

/-! ## Two cuts filled -/

/-- Of two cuts in a row each finds its lines again when the other one is filled, and filling both
comes to the same lines in either order. -/
theorem Cut.Precedes.exists_fill (h : c.Precedes d) (hc : c.IsOf m) (hd : d.IsOf n)
    (hnew : ∀ l ∈ new, isMarkerLine n.beginLine l = false) (new' : List (List Char)) :
    ∃ c' d' : Cut, c'.IsOf m ∧ c'.lines = (d.fill new').lines ∧ c'.opening = c.opening ∧
      d'.IsOf n ∧ d'.lines = (c.fill new).lines ∧ d'.opening = d.opening ∧
      (c'.fill new).lines = (d'.fill new').lines := by
  obtain ⟨gap, hbefore, hafter⟩ := h
  exact ⟨{ c with after := gap ++ d.opening :: (new' ++ d.closing :: d.after) },
    { d with before := c.before ++ c.opening :: (new ++ c.closing :: gap) },
    ⟨hc.before, hc.opening, hc.content, hc.closing⟩, by simp [lines, fill, hbefore], rfl,
    hd.behind hbefore hnew, by simp [lines, fill, hafter], rfl, by simp [lines, fill]⟩

theorem Cut.countP_fill_le {p : List Char → Bool} (hnew : ∀ l ∈ new, p l = false) :
    (c.fill new).lines.countP p ≤ c.lines.countP p := by
  have hzero : new.countP p = 0 :=
    List.countP_eq_zero.mpr fun l hl => Bool.eq_false_iff.mp (hnew l hl)
  simp only [lines, fill, List.countP_append, List.countP_cons, hzero]
  omega

theorem patched_eq_flatten (hc : c.IsOf m) (hlines : c.lines = inclusiveLines text)
    (content : List Char) : m.patched text content =
      (c.fill (inclusiveLines (m.written c.region.indent content))).lines.flatten := by
  rw [patched_eq_of_cut (region?_of_cut hc hlines).2]
  simp [Region.text, Cut.region, Cut.lines, Cut.fill]

/-- The lines of a text that was patched. -/
theorem Plain.inclusiveLines_patched (h : Plain ms content) (hc : c.IsOf m)
    (hlines : c.lines = inclusiveLines text) : inclusiveLines (m.patched text content) =
      (c.fill (inclusiveLines (m.written c.region.indent content))).lines := by
  rw [patched_eq_of_cut (region?_of_cut hc hlines).2]
  exact inclusiveLines_fill hlines fun l hl => (h.written (view_of_cut hc hlines) l hl).1

/-- Patching two regions in a row comes to the same text in either order. -/
theorem patched_comm_of_precedes (h : c.Precedes d) (hc : c.IsOf m) (hd : d.IsOf n) (hn : n ∈ ms)
    (hclines : c.lines = inclusiveLines text) (hdlines : d.lines = inclusiveLines text)
    (hcontent : Plain ms content) (hcontent' : Plain ms content') :
    n.patched (m.patched text content) content' = m.patched (n.patched text content') content := by
  have hview := view_of_cut hc hclines
  obtain ⟨c', d', hc', hc'lines, hopening, hd', hd'lines, hopening', hfill⟩ :=
    h.exists_fill hc hd (fun l hl => ((hcontent.written hview l hl).2 n hn).1)
      (inclusiveLines (n.written d.region.indent content'))
  have hindent : c'.region.indent = c.region.indent := by simp only [Cut.region, hopening]
  have hindent' : d'.region.indent = d.region.indent := by simp only [Cut.region, hopening']
  rw [patched_eq_flatten hd' (hd'lines.trans (hcontent.inclusiveLines_patched hc hclines).symm),
    patched_eq_flatten hc' (hc'lines.trans (hcontent'.inclusiveLines_patched hd hdlines).symm),
    hindent, hindent', hfill]

theorem view_patched_eq_none (h : Tidy ms text) (hm : m ∈ ms) (hn : n ∈ ms) (hne : n ≠ m)
    (hcontent : Plain ms content) (hnone : n.view text = none) :
    n.view (m.patched text content) = none := by
  rw [(h.patched hm fun _ _ hview => hcontent.fits hview).2.2 n hn hne, hnone]

/-- Patches of two regions commute. -/
theorem Tidy.patched_comm (h : Tidy ms text) (hm : m ∈ ms) (hn : n ∈ ms) (hne : m ≠ n)
    (hcontent : Plain ms content) (hcontent' : Plain ms content') :
    n.patched (m.patched text content) content' = m.patched (n.patched text content') content := by
  cases hview : m.view text with
  | none =>
    rw [patched_eq_of_view_eq_none hview,
      patched_eq_of_view_eq_none (view_patched_eq_none h hn hm hne hcontent' hview)]
  | some v =>
    cases hview' : n.view text with
    | none =>
      rw [patched_eq_of_view_eq_none hview',
        patched_eq_of_view_eq_none (view_patched_eq_none h hm hn hne.symm hcontent hview')]
    | some w =>
      obtain ⟨c, hc, hclines, -⟩ := exists_cut_of_view hview
      obtain ⟨d, hd, hdlines, -⟩ := exists_cut_of_view hview'
      rcases h.apart.precedes_or_precedes hm hn hne hc hclines hd hdlines with hbefore | hafter
      · exact patched_comm_of_precedes hbefore hc hd hn hclines hdlines hcontent hcontent'
      · exact (patched_comm_of_precedes hafter hd hc hm hdlines hclines hcontent' hcontent).symm

/-! ## Outside of the regions -/

/-- The lines in front of a line at which no region is open stand for themselves. -/
theorem outsideLines_append (hfront : ∀ m ∈ ms, ∀ before opening inside,
      front = before ++ opening :: inside → isMarkerLine m.beginLine opening →
        ∃ l ∈ inside, isMarkerLine m.endLine l) :
    outsideLines ms (front ++ back) = outsideLines ms front ++ outsideLines ms back := by
  induction front using outsideLines.induct ms with
  | case1 => rw [outsideLines, List.nil_append, List.nil_append]
  | case2 line rest hfind ih =>
    rw [List.cons_append, outsideLines, outsideLines, hfind]
    simp only [List.cons_append, List.cons.injEq, true_and]
    refine ih fun m hm before opening inside heq => ?_
    exact hfront m hm (line :: before) opening inside (by rw [heq, List.cons_append])
  | case3 line rest m hfind ih =>
    have hopening : isMarkerLine m.beginLine line := by simpa using List.find?_some hfind
    obtain ⟨l, hl, hend⟩ := hfront m (List.mem_of_find?_eq_some hfind) [] line rest rfl hopening
    have hne : rest.dropWhile (fun l => !isMarkerLine m.endLine l) ≠ [] := by
      rw [ne_eq, List.dropWhile_eq_nil_iff]
      exact fun hall => by simpa [hend] using hall l hl
    rw [List.cons_append, outsideLines, outsideLines, hfind]
    simp only [List.dropWhile_append, List.isEmpty_iff, hne, if_false, List.cons_append,
      List.cons.injEq, true_and]
    refine ih fun n hn before opening inside heq => ?_
    refine hfront n hn (line :: (rest.takeWhile (fun l => !isMarkerLine m.endLine l) ++ before))
      opening inside ?_
    rw [List.cons_append, List.append_assoc, ← heq, List.takeWhile_append_dropWhile]

theorem find?_eq_some_of_isMarkerLine (hm : m ∈ ms) (hline : isMarkerLine m.beginLine line) :
    ms.find? (fun n => isMarkerLine n.beginLine line) = some m := by
  cases hfind : ms.find? fun n => isMarkerLine n.beginLine line with
  | none => exact absurd hline (by simpa using List.find?_eq_none.mp hfind m hm)
  | some n =>
    have hother := List.find?_some hfind
    simp only [isMarkerLine, beq_iff_eq] at hline hother
    exact congrArg some (Marker.beginLine_inj (String.toList_inj.mp (hother.symm.trans hline)))

/-- What a region holds does not show outside of it. -/
theorem outsideLines_cut (hm : m ∈ ms) (hc : c.IsOf m)
    (hbefore : ∀ n ∈ ms, ∀ before opening inside, c.before = before ++ opening :: inside →
      isMarkerLine n.beginLine opening → ∃ l ∈ inside, isMarkerLine n.endLine l) :
    outsideLines ms c.lines =
      outsideLines ms c.before ++ c.opening :: outsideLines ms (c.closing :: c.after) := by
  have hdrop : (c.content ++ c.closing :: c.after).dropWhile (fun l => !isMarkerLine m.endLine l) =
      c.closing :: c.after := by
    rw [List.dropWhile_append_of_pos (by simpa using hc.content)]
    simp [hc.closing]
  rw [Cut.lines, outsideLines_append hbefore, outsideLines,
    find?_eq_some_of_isMarkerLine hm hc.opening]
  simp only [hdrop]

/-- The one begin line of a marker opens its region. -/
theorem Standing.exists_cut (h : Standing ms text) (hm : m ∈ ms) {before rest : List (List Char)}
    (hlines : inclusiveLines text = before ++ line :: rest)
    (hline : isMarkerLine m.beginLine line) :
    ∃ c : Cut, c.IsOf m ∧ c.lines = inclusiveLines text ∧ c.before = before ∧
      rest = c.content ++ c.closing :: c.after := by
  have hlocate := Marker.locate_of_isOk (h.closed m hm)
  cases hregion : m.region? text with
  | none =>
    rw [hregion] at hlocate
    have hnone := locate_eq_none_iff.mp hlocate line (by simp [hlines])
    rw [hline] at hnone
    cases hnone
  | some r =>
    rw [hregion] at hlocate
    obtain ⟨c, hc, hclines, -⟩ := locate_eq_some_iff.mp hlocate
    have hbefore : ∀ l ∈ before, isMarkerLine m.beginLine l = false := by
      have honce := h.once m hm
      rw [hlines, List.countP_append, List.countP_cons_of_pos hline] at honce
      have hzero :=
        List.countP_eq_zero.mp (show before.countP (isMarkerLine m.beginLine) = 0 by omega)
      exact fun l hl => Bool.eq_false_iff.mpr (hzero l hl)
    have hcut : cutLines? (isMarkerLine m.beginLine) c.lines =
        some (c.before, c.opening, c.content ++ c.closing :: c.after) :=
      cutLines?_append hc.before hc.opening
    rw [hclines, hlines, cutLines?_append hbefore hline] at hcut
    cases hcut
    exact ⟨c, hc, hclines, rfl, rfl⟩

/-- In front of a region every other one that is opened is closed. -/
theorem Standing.closed_before (h : Standing ms text) (hm : m ∈ ms) (hc : c.IsOf m)
    (hclines : c.lines = inclusiveLines text) :
    ∀ n ∈ ms, ∀ before opening inside, c.before = before ++ opening :: inside →
      isMarkerLine n.beginLine opening → ∃ l ∈ inside, isMarkerLine n.endLine l := by
  intro n hn before opening inside hbefore hopening
  have hne : m ≠ n := by
    rintro rfl
    have hfalse := hc.before opening (by simp [hbefore])
    rw [hopening] at hfalse
    cases hfalse
  have hlines : inclusiveLines text =
      before ++ opening :: (inside ++ c.opening :: (c.content ++ c.closing :: c.after)) := by
    rw [← hclines, Cut.lines, hbefore]
    simp
  obtain ⟨d, hd, hdlines, rfl, -⟩ := h.exists_cut hn hlines hopening
  rcases h.apart.precedes_or_precedes hm hn hne hc hclines hd hdlines with
    ⟨gap, hgap, -⟩ | ⟨gap, hgap, -⟩
  · have hlength := congrArg List.length hbefore
    rw [hgap] at hlength
    simp only [List.length_append, List.length_cons] at hlength
    omega
  · rw [hbefore] at hgap
    obtain ⟨rfl, rfl⟩ := List.cons.inj (List.append_cancel_left hgap)
    exact ⟨d.closing, by simp, hd.closing⟩

/-! ## One patch -/

/-- Patching a region keeps the lines outside of all regions. -/
theorem Standing.outsideLines_patched (h : Standing ms text) (hm : m ∈ ms)
    (hcontent : Plain ms content) : outsideLines ms (inclusiveLines (m.patched text content)) =
      outsideLines ms (inclusiveLines text) := by
  cases hview : m.view text with
  | none => rw [patched_eq_of_view_eq_none hview]
  | some v =>
    obtain ⟨c, hc, hlines, -, hindent, -⟩ := exists_cut_of_view hview
    have hbefore := h.closed_before hm hc hlines
    have hself : (c.fill (inclusiveLines (m.written c.region.indent content))).IsOf m := by
      rw [← hindent]
      exact hc.fill fun l hl => ((hcontent.written hview l hl).2 m hm).2
    rw [hcontent.inclusiveLines_patched hc hlines, outsideLines_cut hm hself hbefore, ← hlines,
      outsideLines_cut hm hc hbefore]
    rfl

/-- Regions still stand when one of them is patched. -/
theorem Standing.patched (h : Standing ms text) (hm : m ∈ ms) (hcontent : Plain ms content) :
    Standing ms (m.patched text content) := by
  refine ⟨(h.toTidy.patched hm fun _ _ hview => hcontent.fits hview).1, fun n hn => ?_⟩
  cases hview : m.view text with
  | none =>
    rw [patched_eq_of_view_eq_none hview]
    exact h.once n hn
  | some v =>
    obtain ⟨c, hc, hlines, -, hindent, -⟩ := exists_cut_of_view hview
    have honce := h.once n hn
    rw [← hlines] at honce
    rw [hcontent.inclusiveLines_patched hc hlines, ← hindent]
    exact Nat.le_trans (Cut.countP_fill_le fun l hl =>
      ((hcontent.written hview l hl).2 n hn).1) honce

/-! ## Several patches -/

variable {sections sections' : List (Marker × List Char)}

/-- Patches of a text in another order come to the same text. -/
theorem Standing.patch_perm (hperm : sections.Perm sections') (h : Standing ms text)
    (hnodup : (sections.map (·.1)).Nodup)
    (hsections : ∀ entry ∈ sections, entry.1 ∈ ms ∧ Plain ms entry.2) :
    patch sections text = patch sections' text := by
  induction hperm generalizing text with
  | nil => rfl
  | cons entry _ ih =>
    obtain ⟨⟨hm, hplain⟩, hrest⟩ := List.forall_mem_cons.mp hsections
    rw [patch_cons (h.closed _ hm), patch_cons (h.closed _ hm)]
    exact ih (h.patched hm hplain) (List.nodup_cons.mp hnodup).2 hrest
  | swap second first _ =>
    obtain ⟨⟨hm, hplain⟩, hrest⟩ := List.forall_mem_cons.mp hsections
    obtain ⟨⟨hn, hplain'⟩, -⟩ := List.forall_mem_cons.mp hrest
    have hne : first.1 ≠ second.1 := by
      simp only [List.map_cons, List.nodup_cons, List.mem_cons, not_or] at hnodup
      exact hnodup.1.1
    rw [patch_cons (h.closed _ hm), patch_cons ((h.patched hm hplain).closed _ hn),
      patch_cons (h.closed _ hn), patch_cons ((h.patched hn hplain').closed _ hm),
      h.toTidy.patched_comm hm hn hne hplain hplain']
  | trans hfirst _ ih ih' =>
    have hmiddle := (hfirst.map (·.1)).nodup_iff.mp hnodup
    rw [ih h hnodup hsections]
    exact ih' h hmiddle fun entry hentry => hsections entry (hfirst.mem_iff.mpr hentry)

/-- Markers without a region have no effect. -/
theorem patch_append_of_view_eq_none (hclosed : ∀ entry ∈ sections, (locate entry.1 text).isOk)
    (hnone : ∀ entry ∈ sections, entry.1.view text = none) :
    patch (sections ++ sections') text = patch sections' text := by
  induction sections with
  | nil => rfl
  | cons entry sections ih =>
    obtain ⟨hm, hclosed⟩ := List.forall_mem_cons.mp hclosed
    obtain ⟨hview, hnone⟩ := List.forall_mem_cons.mp hnone
    rw [List.cons_append, patch_cons hm, patched_eq_of_view_eq_none hview, ih hclosed hnone]

/-- In a tidy text a region is absent exactly when no line begins it. -/
theorem Tidy.view_eq_none_iff (h : Tidy ms text) (hm : m ∈ ms) : m.view text = none ↔
    (inclusiveLines text).any (isMarkerLine m.beginLine) = false := by
  have hlocate := Marker.locate_of_isOk (h.closed m hm)
  rw [Marker.view, Option.map_eq_none_iff, List.any_eq_false]
  simp only [Bool.not_eq_true]
  rw [← locate_eq_none_iff]
  constructor
  · intro hnone
    rw [hlocate, hnone]
  · exact Marker.region?_of_locate

/-- Patching in any order is patching the regions that are there. -/
theorem Standing.patch_filter (h : Standing ms text) (hnodup : (sections.map (·.1)).Nodup)
    (hsections : ∀ entry ∈ sections, entry.1 ∈ ms ∧ Plain ms entry.2) :
    patch (sections.filter fun entry => (inclusiveLines text).any (isMarkerLine entry.1.beginLine))
      text = patch sections text := by
  let present : Marker × List Char → Bool := fun entry =>
    (inclusiveLines text).any (isMarkerLine entry.1.beginLine)
  have hperm : sections.Perm (sections.filter (!present ·) ++ sections.filter present) :=
    (List.filter_append_perm present sections).symm.trans List.perm_append_comm
  rw [h.patch_perm hperm hnodup hsections, patch_append_of_view_eq_none]
  · intro entry hentry
    exact h.closed _ (hsections entry (List.mem_of_mem_filter hentry)).1
  · intro entry hentry
    obtain ⟨hentry, habsent⟩ := List.mem_filter.mp hentry
    exact (h.toTidy.view_eq_none_iff (hsections entry hentry).1).mpr
      (by simpa [present] using habsent)

/-- Nothing outside of the regions changes. -/
theorem Standing.outsideLines_patch (h : Standing ms text) {text' : List Char}
    (hpatch : patch sections text = .ok text')
    (hsections : ∀ entry ∈ sections, entry.1 ∈ ms ∧ Plain ms entry.2) :
    outsideLines ms (inclusiveLines text') = outsideLines ms (inclusiveLines text) := by
  induction sections generalizing text with
  | nil => cases hpatch; rfl
  | cons entry sections ih =>
    obtain ⟨⟨hm, hplain⟩, hrest⟩ := List.forall_mem_cons.mp hsections
    rw [patch_cons (h.closed _ hm)] at hpatch
    exact (ih (h.patched hm hplain) hpatch hrest).trans (h.outsideLines_patched hm hplain)

/-- Regions that stand apart can be patched in any order: the text that this comes to is the same,
its lines outside of the regions are those that were there, markers that are absent have no effect,
and each region that is there reads back what was put into it. -/
theorem patch_in_any_order (hnodup : (sections.map (·.1)).Nodup)
    (htext : Standing (sections.map (·.1)) text)
    (hplain : ∀ entry ∈ sections, Plain (sections.map (·.1)) entry.2) :
    ∃ text', (∀ sections', sections'.Perm sections → patch sections' text = .ok text') ∧
      outsideLines (sections.map (·.1)) (inclusiveLines text') =
        outsideLines (sections.map (·.1)) (inclusiveLines text) ∧
      patch (sections.filter fun entry =>
        (inclusiveLines text).any (isMarkerLine entry.1.beginLine)) text = .ok text' ∧
      ∀ entry ∈ sections, (∃ line ∈ inclusiveLines text, isMarkerLine entry.1.beginLine line) →
        ∃ r, locate entry.1 text = .ok (some r) ∧
          entry.1.read text' = .ok (some (entry.1.settled entry.2, r.indent)) := by
  have hsections : ∀ entry ∈ sections, entry.1 ∈ sections.map (·.1) ∧
      Plain (sections.map (·.1)) entry.2 :=
    fun entry hentry => ⟨List.mem_map_of_mem hentry, hplain entry hentry⟩
  obtain ⟨text', hpatch, htidy, hviews, -⟩ := htext.toTidy.patch
    (fun entry hentry => (hsections entry hentry).1) hnodup
    fun entry hentry _ _ hview => (hplain entry hentry).fits hview
  refine ⟨text', fun sections' hperm => ?_, htext.outsideLines_patch hpatch hsections, ?_,
    fun entry hentry hbegin => ?_⟩
  · rw [← htext.patch_perm hperm.symm hnodup hsections, hpatch]
  · rw [htext.patch_filter hnodup hsections, hpatch]
  · have hm := (hsections entry hentry).1
    have hsome : entry.1.view text ≠ none := by
      rw [ne_eq, htext.toTidy.view_eq_none_iff hm, Bool.not_eq_false]
      exact List.any_eq_true.mpr hbegin
    obtain ⟨⟨indent, old⟩, hview⟩ := Option.ne_none_iff_exists'.mp hsome
    obtain ⟨c, hc, hlines, -, rfl, -⟩ := exists_cut_of_view hview
    have hbreak := (blank_of_view hview).2
    refine ⟨c.region, (region?_of_cut hc hlines).1, ?_⟩
    rw [Marker.read_of_isOk (htidy.closed _ hm), hviews entry hentry, hview, Option.map_some,
      Option.map_some, Marker.shown_written hbreak (hplain entry hentry).isLine]

/-- A text with a generated region and a shared one. -/
def twoRegions : List Char :=
  ("  // Generated Tags\n  old\n  // End of generated Tags\nkept\n" ++
    "// Partially generated Handlers\nmine\n// End of partially generated Handlers\n").toList

/-- Content for both regions, and for one that is not there. -/
def threePatches : List (Marker × List Char) :=
  [(⟨"Tags", .generated⟩, "first\n \nsecond\n".toList), (⟨"Types", .generated⟩, "new\n".toList),
    (⟨"Handlers", .shared⟩, "yours\n".toList)]

/-- Content for two regions and an absent one, in two orders. -/
theorem patch_in_any_order_twoRegions : ∃ text', patch threePatches twoRegions = .ok text' ∧
    patch threePatches.reverse twoRegions = .ok text' ∧
    (⟨"Tags", .generated⟩ : Marker).read text' =
      .ok (some ("first\n\nsecond\n".toList, "  ".toList)) := by
  have hnodup : (threePatches.map (·.1)).Nodup := by decide
  have htext : Standing (threePatches.map (·.1)) twoRegions :=
    ⟨⟨by decide +kernel, by decide +kernel⟩, by decide +kernel⟩
  have hplain : ∀ entry ∈ threePatches, Plain (threePatches.map (·.1)) entry.2 :=
    fun entry hentry => ⟨by revert entry; decide +kernel, by revert entry; decide +kernel⟩
  obtain ⟨text', hperm, -, -, hread⟩ := patch_in_any_order hnodup htext hplain
  obtain ⟨r, hr, htags⟩ := hread _ List.mem_cons_self (by decide +kernel)
  have hindent : r.indent = "  ".toList := by
    have hlocate : (locate ⟨"Tags", .generated⟩ twoRegions).map (·.map Region.indent) =
        .ok (some "  ".toList) := by decide +kernel
    rw [hr] at hlocate
    simpa [Except.map] using hlocate
  have hsettled : (⟨"Tags", .generated⟩ : Marker).settled "first\n \nsecond\n".toList =
      "first\n\nsecond\n".toList := by decide +kernel
  exact ⟨text', hperm _ (.refl _), hperm _ (List.reverse_perm _), by
    rw [← hsettled, ← hindent, htags]⟩

end Region

end TypeLang
