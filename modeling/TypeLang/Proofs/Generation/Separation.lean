import TypeLang.Proofs.Generation.Rounds
import TypeLang.Proofs.Region.Course

/-!
# Files do not interfere

All files are read into one record of prior contents, and still what a round makes of a file depends
on no other file: the sections of a file take up nothing but what was read from that file, whatever
else was read before or after it. A file that has an unclosed region is left alone, and the sections
are put into any other in turn.
-/
namespace TypeLang

namespace Prior

/-- Two records tell the same of a section. -/
structure AgreeAt (p q : Prior) (x : Section) : Prop where
  content : p.content? x = q.content? x
  indent : p.indent x = q.indent x

variable {p q : Prior} {x y : Section} {xs : List Section} {text : List Char}

theorem AgreeAt.trans {r : Prior} (h : p.AgreeAt q x) (h' : q.AgreeAt r x) : p.AgreeAt r x :=
  ⟨h.content.trans h'.content, h.indent.trans h'.indent⟩

theorem AgreeAt.symm (h : p.AgreeAt q x) : q.AgreeAt p x := ⟨h.content.symm, h.indent.symm⟩

theorem AgreeAt.insertAt (h : p.AgreeAt q x) (y : Section) (content indent : String) :
    (p.insertAt y content indent).AgreeAt (q.insertAt y content indent) x := by
  constructor
  · simp only [Prior.insertAt, insert, h.content]
  · simp only [Prior.insertAt, h.indent]

theorem agreeAt_insertAt_of_ne (hne : x ≠ y) (p : Prior) (content indent : String) :
    (p.insertAt y content indent).AgreeAt p x := by
  constructor <;> simp [insertAt, insert, hne]

/-- Reading one text keeps agreement. -/
theorem AgreeAt.readSections (h : p.AgreeAt q x) :
    (p.readSections text xs).1.AgreeAt (q.readSections text xs).1 x := by
  induction xs generalizing p q with
  | nil => exact h
  | cons y xs ih =>
    simp only [Prior.readSections]
    split
    · exact h
    · exact ih h
    · exact ih (h.insertAt y _ _)

/-- Reading other sections leaves what is known of a section, also when a fault ends it. -/
theorem agreeAt_readSections_of_notMem (hx : x ∉ xs) :
    (p.readSections text xs).1.AgreeAt p x := by
  induction xs generalizing p with
  | nil => exact ⟨rfl, rfl⟩
  | cons y xs ih =>
    rw [List.mem_cons, not_or] at hx
    simp only [Prior.readSections]
    split
    · exact ⟨rfl, rfl⟩
    · exact ih hx.2
    · exact (ih hx.2).trans (agreeAt_insertAt_of_ne hx.1 p _ _)

end Prior

/-- A section takes up what is known of it alone. -/
theorem Selection.render_congr {p q : Prior} {x : Section} (h : p.AgreeAt q x)
    (selection : Selection) (m : Model) (config : Config) :
    selection.render m config p x = selection.render m config q x := by
  cases x with
  | readInstances => rw [render, render, h.content]
  | writeInstances => rw [render, render, h.content]
  | handlerDefinitions => rw [render, render, h.content, h.indent]
  | _ => rfl

namespace Round

variable {m : Model} {config : Config} {files files' : List (String × String)}
  {file : String × String} {x : Section}

theorem agreeAt_readNext_of_ne {other : String × String} (hx : x ∈ Section.inFile file.1)
    (hne : other.1 ≠ file.1) (read : Prior × List (Option UnclosedRegion)) :
    (readNext read other).1.AgreeAt read.1 x :=
  Prior.agreeAt_readSections_of_notMem fun hmem =>
    hne ((Section.mem_inFile.mp hmem).symm.trans (Section.mem_inFile.mp hx))

/-- Reading other files changes nothing for the sections of a file. -/
theorem agreeAt_foldl_of_notMem (hx : x ∈ Section.inFile file.1)
    (hname : file.1 ∉ files.map (·.1)) (read : Prior × List (Option UnclosedRegion)) :
    (files.foldl readNext read).1.AgreeAt read.1 x := by
  induction files generalizing read with
  | nil => exact ⟨rfl, rfl⟩
  | cons other files ih =>
    rw [List.map_cons, List.mem_cons, not_or] at hname
    exact (ih hname.2 _).trans (agreeAt_readNext_of_ne hx (Ne.symm hname.1) read)

/-- What is known of a section when all files are read was read from its own file. -/
theorem agreeAt_foldl (hnodup : (files.map (·.1)).Nodup) (hfile : file ∈ files)
    (hx : x ∈ Section.inFile file.1) {read : Prior × List (Option UnclosedRegion)} {start : Prior}
    (hread : read.1.AgreeAt start x) :
    (files.foldl readNext read).1.AgreeAt (start.readTarget file.1 file.2).1 x := by
  induction files generalizing read with
  | nil => cases hfile
  | cons other files ih =>
    rw [List.map_cons, List.nodup_cons] at hnodup
    rcases List.mem_cons.mp hfile with rfl | hmem
    · exact (agreeAt_foldl_of_notMem hx hnodup.1 _).trans hread.readSections
    · have hne : other.1 ≠ file.1 := fun heq => hnodup.1 (heq ▸ List.mem_map_of_mem hmem)
      exact ih hnodup.2 hmem ((agreeAt_readNext_of_ne hx hne read).trans hread)

/-- When all files are read, as much is known of a section as when its own file is read alone. -/
theorem agreeAt_load (hnodup : (files.map (·.1)).Nodup) (hfile : file ∈ files)
    (hx : x ∈ Section.inFile file.1) :
    (load files).1.AgreeAt (Prior.empty.readTarget file.1 file.2).1 x :=
  agreeAt_foldl hnodup hfile hx ⟨rfl, rfl⟩

/-- What becomes of a file depends on the sections that lie in it alone. -/
theorem outcomeOf_congr {g g' : Generated} (h : ∀ x ∈ Section.inFile file.1, g x = g' x) :
    outcomeOf g file = outcomeOf g' file := by
  have hsections : ((Section.inFile file.1).map fun x => (x.marker, (g x).toList)) =
      (Section.inFile file.1).map fun x => (x.marker, (g' x).toList) :=
    List.map_congr_left fun x hx => by rw [h x hx]
  simp only [outcomeOf, outcome, Generated.patchFile, hsections]

/-- A round fails exactly when the selection does. -/
theorem run_eq_error {e : GenerationError} :
    run m config files = .error e ↔ m.select config = .error e := by
  simp only [run, generate]
  cases m.select config <;> simp [Except.map, bind, Except.bind, pure, Except.pure]

/-- The first entry for a file is the outcome for it. -/
theorem lookup_outcomes (hfile : file ∈ files) (hnodup : (files.map (·.1)).Nodup)
    (f : String × String → Outcome) :
    (files.map fun file => (file.1, f file)).lookup file.1 = some (f file) := by
  induction files with
  | nil => cases hfile
  | cons other files ih =>
    rw [List.map_cons, List.nodup_cons] at hnodup
    rw [List.map_cons, List.lookup_cons]
    rcases List.mem_cons.mp hfile with rfl | hmem
    · simp
    · have hne : file.1 ≠ other.1 := fun heq => hnodup.1 (heq ▸ List.mem_map_of_mem hmem)
      rw [beq_false_of_ne hne]
      exact ih hmem hnodup.2

/-- Two rounds that are given the same text of a file make the same of it. -/
theorem lookup_outcomes_congr (hnodup : (files.map (·.1)).Nodup)
    (hnodup' : (files'.map (·.1)).Nodup) (hfile : file ∈ files) (hfile' : file ∈ files')
    {outcomes outcomes' : List (String × Outcome)} (h : run m config files = .ok outcomes)
    (h' : run m config files' = .ok outcomes') :
    ∃ outcome, outcomes.lookup file.1 = some outcome ∧ outcomes'.lookup file.1 = some outcome := by
  obtain ⟨selection, hselect, rfl⟩ := run_eq_ok.mp h
  obtain ⟨selection', hselect', rfl⟩ := run_eq_ok.mp h'
  rw [hselect] at hselect'
  cases hselect'
  have hsame : outcomeOf (rendered selection m config files) file =
      outcomeOf (rendered selection m config files') file := outcomeOf_congr fun x hx =>
    Selection.render_congr ((agreeAt_load hnodup hfile hx).trans
      (agreeAt_load hnodup' hfile' hx).symm) selection m config
  refine ⟨_, lookup_outcomes hfile hnodup _, ?_⟩
  rw [lookup_outcomes hfile' hnodup', hsame]

/-! ## What becomes of a file -/

/-- What becomes of a file over the texts of its sections. If a region is not closed, the first such
section is to blame. Else the texts are put into the regions in turn. -/
inductive Makes (g : Generated) (file : String × String) : Outcome → Prop
  | unclosed {before behind : List Section} {x : Section} {number : Nat} :
      Section.inFile file.1 = before ++ x :: behind →
      (∀ y ∈ before, ∀ n, ¬y.marker.UnclosedAt file.2.toList n) →
      x.marker.UnclosedAt file.2.toList number →
      Makes g file (.error ⟨x.marker.beginLine, number⟩)
  | patched {result : Except UnclosedRegion (List Char)} :
      (∀ x ∈ Section.inFile file.1, ∀ n, ¬x.marker.UnclosedAt file.2.toList n) →
      Patches ((Section.inFile file.1).map fun x => (x.marker, (g x).toList)) file.2.toList result →
      Makes g file (result.map String.ofList)

/-- A fault is that of the first section with an unclosed region. -/
theorem exists_of_readSections_eq_some {p : Prior} {text : List Char} {xs : List Section}
    {e : UnclosedRegion} (h : (p.readSections text xs).2 = some e) :
    ∃ before x behind, xs = before ++ x :: behind ∧
      (∀ y ∈ before, ∀ n, ¬y.marker.UnclosedAt text n) ∧
      e.marker = x.marker.beginLine ∧ x.marker.UnclosedAt text e.line := by
  induction xs generalizing p with
  | nil => cases h
  | cons y xs ih =>
    simp only [Prior.readSections, Marker.read] at h
    cases hlocate : Region.locate y.marker text with
    | error fault =>
      simp only [hlocate, Except.map, Option.some.injEq] at h
      subst h
      exact ⟨[], y, xs, rfl, by simp, Marker.locate_eq_error_iff.mp hlocate⟩
    | ok found =>
      have hclosed : ∀ n, ¬y.marker.UnclosedAt text n :=
        isOk_locate_iff.mp (by rw [hlocate]; rfl)
      have hrest : ∃ q : Prior, (q.readSections text xs).2 = some e := by
        cases found with
        | none => exact ⟨p, by simpa only [hlocate, Except.map, Option.map_none] using h⟩
        | some r => exact ⟨_, by simpa only [hlocate, Except.map, Option.map_some] using h⟩
      obtain ⟨q, hq⟩ := hrest
      obtain ⟨before, x, behind, rfl, hbefore, hx⟩ := ih hq
      exact ⟨y :: before, x, behind, rfl, List.forall_mem_cons.mpr ⟨hclosed, hbefore⟩, hx⟩

/-- The outcome of a file is what the texts of its sections make of it. -/
theorem makes_outcomeOf (g : Generated) (file : String × String) :
    Makes g file (outcomeOf g file) := by
  cases hfault : fault file with
  | some e =>
    obtain ⟨before, x, behind, hsections, hbefore, hmarker, hunclosed⟩ :=
      exists_of_readSections_eq_some hfault
    rw [(after_of_fault g hfault).1]
    rcases e with ⟨marker, number⟩
    cases hmarker
    exact .unclosed hsections hbefore hunclosed
  | none =>
    rw [outcomeOf, hfault]
    exact .patched (fun x hx => isOk_locate_iff.mp (fault_eq_none_iff.mp hfault x hx))
      (patches_iff.mpr rfl)

/-- A round makes of a file what comes of the text of that file alone. -/
theorem makes_of_run (hnodup : (files.map (·.1)).Nodup) (hfile : file ∈ files)
    {outcomes : List (String × Outcome)} (h : run m config files = .ok outcomes) :
    ∃ selection outcome, m.select config = .ok selection ∧
      outcomes.lookup file.1 = some outcome ∧
      Makes (selection.render m config (Prior.empty.readTarget file.1 file.2).1) file outcome := by
  obtain ⟨selection, hselect, rfl⟩ := run_eq_ok.mp h
  have halone : outcomeOf (rendered selection m config files) file = outcomeOf
      (selection.render m config (Prior.empty.readTarget file.1 file.2).1) file :=
    outcomeOf_congr fun x hx =>
      Selection.render_congr (agreeAt_load hnodup hfile hx) selection m config
  refine ⟨selection, _, hselect, lookup_outcomes hfile hnodup _, ?_⟩
  rw [halone]
  exact makes_outcomeOf _ file

end Round

end TypeLang
