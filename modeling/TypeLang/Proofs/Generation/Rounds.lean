import TypeLang.Generation.Round
import TypeLang.Proofs.Generation.Sections

/-!
# What a round does to a file

Every file is read and patched on its own: what its sections hold is read from it and from no other
file, and a file with an unclosed region is left alone. A round over well kept files writes every
region that is there, leaves everything else, and keeps the files well kept.
-/
namespace TypeLang

open Text

/-! ## Sections of a file -/

theorem Section.mem_inFile {x : Section} {name : String} :
    x ∈ Section.inFile name ↔ x.file.name = name := by
  simp [Section.inFile, Section.mem_all]

theorem TargetFile.name_inj {a b : TargetFile} (h : a.name = b.name) : a = b := by
  revert h
  cases a <;> cases b <;> decide

/-- The sections of a file have different markers. -/
theorem Section.nodup_markers (name : String) :
    ((Section.inFile name).map Section.marker).Nodup := by
  have hall : Section.all.Nodup := by decide
  refine List.Nodup.map_on ?_ (hall.filter _)
  intro x hx y hy hmarker
  have hfile := (mem_inFile.mp hx).trans (mem_inFile.mp hy).symm
  exact Section.eq_of_file_of_marker (TargetFile.name_inj hfile) hmarker

/-! ## Reading files -/

namespace Prior

variable {p q : Prior} {text : List Char} {x y : Section} {xs : List Section}
  {indent content : List Char}

theorem shows_insertAt (p : Prior) (x : Section) (indent content : List Char) :
    (p.insertAt x (String.ofList (x.marker.shown indent content)) (String.ofList indent)).Shows
      x indent content := by
  constructor <;> simp [insertAt, insert]

theorem Shows.insertAt (h : p.Shows x indent content) (hne : x ≠ y) (a b : String) :
    (p.insertAt y a b).Shows x indent content := by
  constructor
  · simp [Prior.insertAt, insert, hne, h.content]
  · simp [Prior.insertAt, hne, h.indent]

/-- Reading other sections leaves what is known of a section. -/
theorem Shows.readSections (h : p.Shows x indent content) (hx : x ∉ xs) :
    (p.readSections text xs).1.Shows x indent content := by
  induction xs generalizing p with
  | nil => exact h
  | cons y xs ih =>
    rw [List.mem_cons, not_or] at hx
    simp only [Prior.readSections]
    split
    · exact h
    · exact ih h hx.2
    · exact ih (h.insertAt hx.1 _ _) hx.2

/-- Sections are read without a fault exactly when every region is closed. -/
theorem readSections_eq_none_iff : (p.readSections text xs).2 = none ↔
    ∀ x ∈ xs, (Region.locate x.marker text).isOk := by
  induction xs generalizing p with
  | nil => simp [Prior.readSections]
  | cons y xs ih =>
    simp only [Prior.readSections, List.forall_mem_cons, Marker.read]
    cases hlocate : Region.locate y.marker text with
    | error e => simp [Except.map, Except.isOk, Except.toBool]
    | ok found =>
      have hok : (Except.ok found : Except UnclosedRegion (Option Region)).isOk := rfl
      cases found with
      | none => simp only [Except.map, Option.map_none, ih, hok, true_and]
      | some r => simp only [Except.map, Option.map_some, ih, hok, true_and]

/-- Which fault is met does not depend on what was read before. -/
theorem snd_readSections (p q : Prior) (text : List Char) (xs : List Section) :
    (p.readSections text xs).2 = (q.readSections text xs).2 := by
  induction xs generalizing p q with
  | nil => rfl
  | cons y xs ih =>
    simp only [Prior.readSections]
    split
    · rfl
    · exact ih p q
    · exact ih _ _

/-- Of sections that are read without a fault what their regions show is known. -/
theorem shows_readSections (h : (p.readSections text xs).2 = none) (hx : x ∈ xs)
    (hview : x.marker.view text = some (indent, content)) :
    (p.readSections text xs).1.Shows x indent content := by
  induction xs generalizing p with
  | nil => cases hx
  | cons y xs ih =>
    have hclosed := readSections_eq_none_iff.mp h
    have hread := Marker.read_of_isOk (hclosed y List.mem_cons_self)
    by_cases hlater : x ∈ xs
    · simp only [Prior.readSections] at h ⊢
      split at h
      · cases h
      · next hnone => simpa only [hnone] using ih h hlater
      · next hsome => simpa only [hsome] using ih h hlater
    · have hfirst : x = y := by
        rcases List.mem_cons.mp hx with hx | hx
        · exact hx
        · exact absurd hx hlater
      subst hfirst
      rw [hview, Option.map_some] at hread
      simp only [Prior.readSections, hread]
      exact (shows_insertAt p x indent content).readSections hlater

end Prior

namespace Round

/-- Why a file cannot be read, if so. -/
def fault (file : String × String) : Option UnclosedRegion :=
  (Prior.empty.readTarget file.1 file.2).2

/-- A file is sound when each of its sections can be looked for. -/
theorem fault_eq_none_iff {file : String × String} : fault file = none ↔
    ∀ x ∈ Section.inFile file.1, (Region.locate x.marker file.2.toList).isOk :=
  Prior.readSections_eq_none_iff

/-- Reads one more file. -/
def readNext (read : Prior × List (Option UnclosedRegion)) (file : String × String) :
    Prior × List (Option UnclosedRegion) :=
  let (prior, error?) := read.1.readTarget file.1 file.2
  (prior, read.2 ++ [error?])

theorem load_eq (files : List (String × String)) :
    load files = files.foldl readNext (Prior.empty, []) := rfl

variable {files : List (String × String)} {file : String × String} {x : Section}
  {indent content : List Char}

theorem snd_foldl_readNext (files : List (String × String))
    (read : Prior × List (Option UnclosedRegion)) :
    (files.foldl readNext read).2 = read.2 ++ files.map fault := by
  induction files generalizing read with
  | nil => simp
  | cons file files ih =>
    have hfault : (read.1.readTarget file.1 file.2).2 = fault file := Prior.snd_readSections _ _ _ _
    rw [List.foldl_cons, ih, List.map_cons]
    simp [readNext, hfault]

theorem shows_foldl_of_notMem (hx : x ∈ Section.inFile file.1) (hname : file.1 ∉ files.map (·.1))
    {read : Prior × List (Option UnclosedRegion)} (h : read.1.Shows x indent content) :
    (files.foldl readNext read).1.Shows x indent content := by
  induction files generalizing read with
  | nil => exact h
  | cons other files ih =>
    rw [List.map_cons, List.mem_cons, not_or] at hname
    refine ih hname.2 (h.readSections fun hmem => hname.1 ?_)
    exact (Section.mem_inFile.mp hx).symm.trans (Section.mem_inFile.mp hmem)

/-- After all files are read, a section shows what its own file holds. -/
theorem shows_foldl (hnodup : (files.map (·.1)).Nodup) (hfile : file ∈ files)
    (hfault : fault file = none) (hx : x ∈ Section.inFile file.1)
    (hview : x.marker.view file.2.toList = some (indent, content))
    (read : Prior × List (Option UnclosedRegion)) :
    (files.foldl readNext read).1.Shows x indent content := by
  induction files generalizing read with
  | nil => cases hfile
  | cons other files ih =>
    rw [List.map_cons, List.nodup_cons] at hnodup
    rcases List.mem_cons.mp hfile with rfl | hmem
    · have hread : (read.1.readTarget file.1 file.2).2 = none :=
        (Prior.snd_readSections _ _ _ _).trans hfault
      exact shows_foldl_of_notMem hx hnodup.1 (Prior.shows_readSections hread hx hview)
    · exact ih hnodup.2 hmem _

/-- What a section shows is read from its own file. -/
theorem shows_load (hnodup : (files.map (·.1)).Nodup) (hfile : file ∈ files)
    (hfault : fault file = none) (hx : x ∈ Section.inFile file.1)
    (hview : x.marker.view file.2.toList = some (indent, content)) :
    (load files).1.Shows x indent content :=
  shows_foldl hnodup hfile hfault hx hview _

/-! ## One round -/

variable {m : Model} {config : Config} {selection : Selection}
  {outcomes : List (String × Outcome)}

def rendered (selection : Selection) (m : Model) (config : Config)
    (files : List (String × String)) : Generated :=
  selection.render m config (load files).1

/-- What a round makes of a file. -/
def outcomeOf (g : Generated) (file : String × String) : Outcome := outcome g file (fault file)

/-- A round that succeeds treats every file on its own. -/
theorem run_eq_ok : run m config files = .ok outcomes ↔ ∃ selection,
    m.select config = .ok selection ∧ outcomes = files.map fun file =>
      (file.1, outcomeOf (rendered selection m config files) file) := by
  have hfaults : (load files).2 = files.map fault := by
    rw [load_eq, snd_foldl_readNext, List.nil_append]
  simp only [run, generate, bind_eq_ok, map_eq_ok, pure_eq_ok, hfaults,
    ← List.map_prod_left_eq_zip, List.map_map, Function.comp_def, outcomeOf]
  constructor
  · rintro ⟨_, ⟨selection, hselect, rfl⟩, rfl⟩
    exact ⟨selection, hselect, rfl⟩
  · rintro ⟨selection, hselect, rfl⟩
    exact ⟨_, ⟨selection, hselect, rfl⟩, rfl⟩

/-- A round succeeds on any files when every type has its place. -/
theorem exists_run (h : (m.select config).isOk) (files : List (String × String)) :
    ∃ outcomes, run m config files = .ok outcomes := by
  obtain ⟨selection, hselect⟩ := exists_of_isOk h
  exact ⟨_, run_eq_ok.mpr ⟨selection, hselect, rfl⟩⟩

def after (g : Generated) (file : String × String) : String × String :=
  (file.1, (outcomeOf g file).toOption.getD file.2)

theorem apply_outcomes (g : Generated) (files : List (String × String)) :
    apply files (files.map fun file => (file.1, outcomeOf g file)) = files.map (after g) := by
  rw [apply, ← List.map_prod_left_eq_zip]
  simp [after]

abbrev markers (file : String × String) : List Marker :=
  (Section.inFile file.1).map Section.marker

/-- A file as a round may find it: regions that stand apart, and handlers with closing braces. -/
structure IsKept (file : String × String) : Prop where
  apart : Region.Apart (markers file) file.2.toList
  closed : .handlerDefinitions ∈ Section.inFile file.1 →
    ∀ r ∈ Section.handlerDefinitions.marker.region? file.2.toList,
      ∀ f ∈ FunctionText.ofText r.indent r.content, f.IsClosed r.indent

/-- Files as a round may find them, with one text for each name. -/
structure WellKept (files : List (String × String)) : Prop where
  nodup : (files.map (·.1)).Nodup
  kept : ∀ file ∈ files, IsKept file

theorem exists_apply_singleton {name text : String}
    (h : run m config [(name, text)] = .ok outcomes) :
    ∃ last, apply [(name, text)] outcomes = [(name, last)] := by
  obtain ⟨selection, -, rfl⟩ := run_eq_ok.mp h
  exact ⟨_, apply_outcomes _ _⟩

/-- A schema with a method that has a handler. -/
def handledText : String := "a#1 = A;\n---functions---\nauth.f#2 = A;\n"

/-- The file of the handlers. -/
def handlerFile : String := TargetFile.connectionSource.name

/-- The lines of a text of it, with a handler that is written by hand. -/
def handwrittenLines : List String :=
  ["  // Partially generated Telegram API RPC process methods\n",
    "  void CTelegramConnection::processAuthF(RpcProcessingContext *context)\n", "  \x7b\n",
    "#if 1\n", "    done();  \r\n", "  \x7d\n",
    "  // End of partially generated Telegram API RPC process methods\n"]

def handwritten : String := String.ofList (handwrittenLines.flatMap String.toList)

theorem handwritten_toList : handwritten.toList = handwrittenLines.flatMap String.toList :=
  String.toList_ofList

/-- The handwritten file is one that is kept. -/
theorem isKept_handwritten : IsKept (handlerFile, handwritten) := by
  have hregions : Region.Apart ((Section.inFile handlerFile).map Section.marker)
      handwritten.toList ∧ ∀ r ∈ Section.handlerDefinitions.marker.region? handwritten.toList,
        ∀ f ∈ FunctionText.ofText r.indent r.content, f.IsClosed r.indent := by
    rw [handwritten_toList]
    decide +kernel
  exact ⟨hregions.1, fun _ => hregions.2⟩

theorem IsKept.isFound (h : IsKept file) (hx : x ∈ Section.inFile file.1)
    (hview : x.marker.view file.2.toList = some (indent, content)) : x.IsFound indent content := by
  obtain ⟨hblank, hbreak⟩ := Region.blank_of_view hview
  refine ⟨hblank, hbreak, Region.isLine_of_view hview, fun hhandlers => ?_⟩
  subst hhandlers
  obtain ⟨r, hr, heq⟩ := Option.map_eq_some_iff.mp hview
  cases heq
  exact h.closed hx r hr

theorem IsKept.tidy (h : IsKept file) (hfault : fault file = none) :
    Region.Tidy (markers file) file.2.toList := by
  refine ⟨?_, h.apart⟩
  simp only [List.forall_mem_map]
  exact fault_eq_none_iff.mp hfault

/-- A file that cannot be read is left alone. -/
theorem after_of_fault {e : UnclosedRegion} (g : Generated) (hfault : fault file = some e) :
    outcomeOf g file = .error e ∧ after g file = file := by
  have houtcome : outcomeOf g file = .error e := by rw [outcomeOf, hfault, outcome]
  exact ⟨houtcome, by rw [after, houtcome]; rfl⟩

theorem after_of_patchFile {g : Generated} {text : List Char} (hfault : fault file = none)
    (hpatch : g.patchFile file.1 file.2 = .ok (String.ofList text)) :
    outcomeOf g file = .ok (String.ofList text) ∧ after g file = (file.1, String.ofList text) := by
  have houtcome : outcomeOf g file = .ok (String.ofList text) := by
    rw [outcomeOf, hfault, outcome, hpatch]
  exact ⟨houtcome, by rw [after, houtcome]; rfl⟩

/-- A file whose regions hold what is written into them stays as it is. -/
theorem patchFile_of_view {g : Generated} {name : String} {text : List Char}
    (hclosed : ∀ x ∈ Section.inFile name, (Region.locate x.marker text).isOk)
    (hviews : ∀ x ∈ Section.inFile name, ∀ indent content,
      x.marker.view text = some (indent, content) →
        x.marker.written indent (g x).toList = content) :
    g.patchFile name (String.ofList text) = .ok (String.ofList text) := by
  have hunchanged : patch ((Section.inFile name).map fun x => (x.marker, (g x).toList)) text =
      .ok text :=
    Region.patch_of_view (List.forall_mem_map.mpr hclosed) (List.forall_mem_map.mpr hviews)
  simp only [Generated.patchFile, String.toList_ofList, hunchanged]
  rfl

section Step

variable (hm : m.IsUnbroken) (hselect : m.select config = .ok selection)
  (hsender : Unbroken config.sender) (hnodup : (files.map (·.1)).Nodup) (hfile : file ∈ files)
  (hkept : IsKept file)
include hm hselect hsender hnodup hfile hkept

/-- What a round writes into the regions of a file that it can read. -/
theorem exists_patchFile (hfault : fault file = none) : ∃ text,
    (rendered selection m config files).patchFile file.1 file.2 = .ok (String.ofList text) ∧
      Region.Tidy (markers file) text ∧ ∀ x ∈ Section.inFile file.1,
        x.marker.view text = (x.marker.view file.2.toList).map fun v =>
          (v.1, selection.rewritten m config (load files).1 x v.1) := by
  have hunbroken := hm.select hselect
  have hmarkers : (((Section.inFile file.1).map fun x =>
      (x.marker, (rendered selection m config files x).toList)).map (·.1)).Nodup := by
    rw [List.map_map]
    exact Section.nodup_markers file.1
  have hfits : ∀ x ∈ Section.inFile file.1, ∀ indent old,
      x.marker.view file.2.toList = some (indent, old) → Region.Fits (markers file) old
        (selection.rewritten m config (load files).1 x indent) := by
    intro x hx indent old hview
    exact Selection.fits_rewritten hunbroken hm hsender (hkept.isFound hx hview)
      (shows_load hnodup hfile hfault hx hview) _
  obtain ⟨text, hpatch, htidy, hviews, -⟩ := (hkept.tidy hfault).patch
    (List.forall_mem_map.mpr fun x hx => List.mem_map_of_mem hx) hmarkers
    (List.forall_mem_map.mpr hfits)
  refine ⟨text, ?_, htidy, fun x hx => ?_⟩
  · simp only [Generated.patchFile, hpatch]
    rfl
  · have hview := List.forall_mem_map.mp hviews x hx
    simp only [rendered] at hview
    simp only [Selection.rewritten]
    exact hview

/-- What a round leaves in a region: what it wrote, or, in a file that it cannot read, what was
there. -/
theorem view_after (hx : x ∈ Section.inFile file.1) :
    x.marker.view (after (rendered selection m config files) file).2.toList =
      (x.marker.view file.2.toList).map fun v => (v.1,
        if fault file = none then selection.rewritten m config (load files).1 x v.1 else v.2) := by
  cases hfault : fault file with
  | some e =>
    rw [(after_of_fault _ hfault).2]
    simp
  | none =>
    obtain ⟨text, hpatch, -, hviews⟩ :=
      exists_patchFile hm hselect hsender hnodup hfile hkept hfault
    rw [(after_of_patchFile hfault hpatch).2, String.toList_ofList, hviews x hx]
    simp

/-- A round does not change whether a file can be read. -/
theorem fault_after : fault (after (rendered selection m config files) file) = fault file := by
  cases hfault : fault file with
  | some e => rw [(after_of_fault _ hfault).2, hfault]
  | none =>
    obtain ⟨text, hpatch, htidy, -⟩ :=
      exists_patchFile hm hselect hsender hnodup hfile hkept hfault
    rw [(after_of_patchFile hfault hpatch).2, fault_eq_none_iff, String.toList_ofList]
    exact fun x hx => htidy.closed _ (List.mem_map_of_mem hx)

/-- A round keeps a file as it may be found. -/
theorem isKept_after : IsKept (after (rendered selection m config files) file) := by
  refine ⟨?_, fun hx r hr => ?_⟩
  · cases hfault : fault file with
    | some e =>
      rw [(after_of_fault _ hfault).2]
      exact hkept.apart
    | none =>
      obtain ⟨text, hpatch, htidy, -⟩ :=
        exists_patchFile hm hselect hsender hnodup hfile hkept hfault
      rw [(after_of_patchFile hfault hpatch).2, String.toList_ofList]
      exact htidy.apart
  · have hview : Section.handlerDefinitions.marker.view
        (after (rendered selection m config files) file).2.toList = some (r.indent, r.content) := by
      simp [Marker.view, Option.mem_def.mp hr]
    rw [view_after hm hselect hsender hnodup hfile hkept hx] at hview
    obtain ⟨⟨indent, old⟩, hold, heq⟩ := Option.map_eq_some_iff.mp hview
    simp only [Prod.mk.injEq] at heq
    obtain ⟨rfl, hcontent⟩ := heq
    have hfound := hkept.isFound hx hold
    rw [← hcontent]
    split
    · next hfault =>
      exact (Selection.isFound_rewritten (hm.select hselect) hm hsender hfound
        (shows_load hnodup hfile hfault hx hold)).closed rfl
    · exact hfound.closed rfl

end Step

/-- A round keeps files well kept. -/
theorem WellKept.apply (hm : m.IsUnbroken) (hsender : Unbroken config.sender)
    (hfiles : WellKept files) (h : run m config files = .ok outcomes) :
    WellKept (apply files outcomes) := by
  obtain ⟨selection, hselect, rfl⟩ := run_eq_ok.mp h
  rw [apply_outcomes]
  constructor
  · have hnames : (Prod.fst ∘ after (rendered selection m config files)) = Prod.fst := rfl
    rw [List.map_map, hnames]
    exact hfiles.nodup
  · simp only [List.forall_mem_map]
    intro file hfile
    exact isKept_after hm hselect hsender hfiles.nodup hfile (hfiles.kept file hfile)

end Round

end TypeLang
