import TypeLang.Command.Run
import TypeLang.Proofs.Command.FileTree
import TypeLang.Proofs.Generation.Separation

/-!
# Target files do not interfere

A run in memory makes of the target files that it can read what a round makes of them, and writes
each on its own. A file that cannot be read or patched is left as it is, and the others do not
suffer from it.
-/
namespace TypeLang.Command

open Text

/-- The name of a target file leads to a file. -/
theorem TargetFile.isFileName (file : TargetFile) : IsFileName file.name := by
  constructor <;> cases file <;> decide

/-- The target files of a directory that can be read, with their texts. -/
def FileTree.targets (tree : FileTree) (dir : String) (files : List TargetFile) :
    List (TargetFile × String) :=
  files.filterMap fun file => (tree.readText (joinPath dir file.name)).toOption.map (file, ·)

theorem FileTree.targets_cons_of_error {tree : FileTree} {dir : String} {file : TargetFile}
    {files : List TargetFile} {e : FileError}
    (h : tree.readText (joinPath dir file.name) = .error e) :
    tree.targets dir (file :: files) = tree.targets dir files := by
  rw [targets, List.filterMap_cons_none (by rw [h]; rfl)]
  rfl

theorem FileTree.targets_cons_of_ok {tree : FileTree} {dir text : String} {file : TargetFile}
    {files : List TargetFile} (h : tree.readText (joinPath dir file.name) = .ok text) :
    tree.targets dir (file :: files) = (file, text) :: tree.targets dir files := by
  rw [targets, List.filterMap_cons_some (by rw [h]; rfl)]
  rfl

/-- Names and texts of target files. -/
abbrev named (targets : List (TargetFile × String)) : List (String × String) :=
  targets.map fun target => (target.1.name, target.2)

/-- Target files without a fault. -/
abbrev sound (targets : List (TargetFile × String)) : List (TargetFile × String) :=
  targets.filter fun target => Round.fault (target.1.name, target.2) = none

/-! ## Runs in memory -/

theorem run_bind_of_eq {α β : Type} {x : StateM Rehearsal α} {r r' : Rehearsal} {a : α}
    (h : x.run r = (a, r')) (f : α → StateM Rehearsal β) : (x >>= f).run r = (f a).run r' := by
  rw [StateT.run_bind, h]
  rfl

theorem run_loadText (path : String) (r : Rehearsal) :
    (Rehearsal.host.loadText path).run r = (r.tree.readText path, r) := by
  have hload : (Rehearsal.host.load path).run r = (r.tree.read path, r) := rfl
  rw [Host.loadText, run_bind_of_eq hload, FileTree.readText]
  cases r.tree.read path with
  | error e => rfl
  | ok bytes =>
    simp only
    cases Utf8.decode? bytes <;> rfl

/-! ## Reading -/

variable {file : TargetFile} {targets : Targets} {dir text : String} {r : Rehearsal}

/-- A file that cannot be read adds nothing, and the tree stays. -/
theorem run_loadFile_of_error {e : FileError}
    (h : r.tree.readText (joinPath dir file.name) = .error e) :
    ∃ targets' r', (Targets.loadFile Rehearsal.host dir targets file).run r = (targets', r') ∧
      r'.tree = r.tree ∧ targets'.prior = targets.prior ∧ targets'.texts = targets.texts := by
  have hload := run_loadText (joinPath dir file.name) r
  rw [h] at hload
  rw [Targets.loadFile, run_bind_of_eq hload]
  exact ⟨_, _, rfl, rfl, rfl, rfl⟩

/-- A file that is read adds its sections, and its text when they are sound. -/
theorem run_loadFile_of_ok (h : r.tree.readText (joinPath dir file.name) = .ok text) :
    ∃ targets' r', (Targets.loadFile Rehearsal.host dir targets file).run r = (targets', r') ∧
      r'.tree = r.tree ∧ targets'.prior = (targets.prior.readTarget file.name text).1 ∧
      targets'.texts = targets.texts ++ sound [(file, text)] := by
  have hload := run_loadText (joinPath dir file.name) r
  have hfault : (targets.prior.readTarget file.name text).2 = Round.fault (file.name, text) :=
    Prior.snd_readSections _ _ _ _
  rw [h] at hload
  rw [Targets.loadFile, run_bind_of_eq hload]
  simp only [List.filter_singleton, ← hfault]
  cases hread : targets.prior.readTarget file.name text with
  | mk prior fault =>
    cases fault with
    | none => exact ⟨_, _, rfl, rfl, rfl, by simp⟩
    | some e => exact ⟨_, _, rfl, rfl, rfl, by simp⟩

/-- Reading target files leaves them, and finds what a round finds. -/
theorem run_foldlM_loadFile (dir : String) (files : List TargetFile)
    (faults : List (Option UnclosedRegion))
    (targets : Targets) (r : Rehearsal) :
    ∃ targets' r', (files.foldlM (Targets.loadFile Rehearsal.host dir) targets).run r =
        (targets', r') ∧
      r'.tree = r.tree ∧
      targets'.prior =
        ((named (r.tree.targets dir files)).foldl Round.readNext (targets.prior, faults)).1 ∧
      targets'.texts = targets.texts ++ sound (r.tree.targets dir files) := by
  induction files generalizing targets r faults with
  | nil => exact ⟨targets, r, rfl, rfl, rfl, by simp [FileTree.targets, sound]⟩
  | cons file files ih =>
    rw [List.foldlM_cons]
    cases hread : r.tree.readText (joinPath dir file.name) with
    | error e =>
      obtain ⟨mid, r', hrun, htree, hprior, htexts⟩ := run_loadFile_of_error hread
      obtain ⟨last, r'', hrest, htree', hprior', htexts'⟩ := ih faults mid r'
      rw [run_bind_of_eq hrun, FileTree.targets_cons_of_error hread]
      exact ⟨last, r'', hrest, htree'.trans htree, by rw [hprior', htree, hprior],
        by rw [htexts', htree, htexts]⟩
    | ok text =>
      obtain ⟨mid, r', hrun, htree, hprior, htexts⟩ := run_loadFile_of_ok hread
      obtain ⟨last, r'', hrest, htree', hprior', htexts'⟩ := ih
        (faults ++ [(targets.prior.readTarget file.name text).2]) mid r'
      rw [run_bind_of_eq hrun, FileTree.targets_cons_of_ok hread]
      refine ⟨last, r'', hrest, htree'.trans htree, by rw [hprior', htree, hprior]; rfl, ?_⟩
      rw [htexts', htree, htexts, List.append_assoc, ← List.filter_append, List.singleton_append]

/-! ## Writing -/

variable {generated : Generated} {tally : Tally} {dryRun : Bool} {path patched : String}
  {tree : FileTree}

/-- What is written to a file where a text can be put, or where the text stands already. -/
def FileTree.Ready (tree : FileTree) (path text : String) : Prop :=
  tree.TakesText path ∨ tree.read path = .ok (Utf8.encode text)

theorem FileTree.SameAt.ready {tree' : FileTree} (h : SameAt path tree tree')
    (hready : tree.Ready path text) : tree'.Ready path text := by
  rcases hready with htakes | hread
  · exact .inl (h.takesText htakes)
  · exact .inr (h.read_iff.mpr hread)

theorem run_store (path : String) (bytes : List UInt8) (r : Rehearsal) :
    (Rehearsal.host.store path bytes).run r =
      match r.tree.write path bytes with
      | .error e => (.error e, r)
      | .ok tree => (.ok (), { r with tree }) := by
  cases h : r.tree.write path bytes <;> simp [Rehearsal.host, h] <;> rfl

/-- A change writes the file, unless it is rehearsed or fails. -/
theorem run_change (tally : Tally) (dryRun : Bool) (path patched : String) (r : Rehearsal) :
    ∃ tally' r', (Tally.update.change tally Rehearsal.host dryRun path patched).run r =
        (tally', r') ∧
      r'.tree = if dryRun then r.tree
        else (r.tree.write path (Utf8.encode patched)).toOption.getD r.tree := by
  have hstore := run_store path (Utf8.encode patched) r
  rw [Tally.update.change]
  cases dryRun with
  | true => exact ⟨_, _, rfl, rfl⟩
  | false =>
    simp only [Bool.false_eq_true, if_false]
    cases hwrite : r.tree.write path (Utf8.encode patched) with
    | error e =>
      rw [hwrite] at hstore
      rw [run_bind_of_eq hstore]
      exact ⟨_, _, rfl, rfl⟩
    | ok tree =>
      rw [hwrite] at hstore
      rw [run_bind_of_eq hstore]
      exact ⟨_, _, rfl, rfl⟩

/-- Bringing a file to a text leaves the tree, or writes the text. Where the text can be put it is
what the file reads as afterwards. -/
theorem run_update (tally : Tally) (dryRun : Bool) (path patched : String) (r : Rehearsal) :
    ∃ tally' r', (tally.update Rehearsal.host dryRun path patched).run r = (tally', r') ∧
      (r'.tree = r.tree ∨ r.tree.write path (Utf8.encode patched) = .ok r'.tree) ∧
      (dryRun = false → path.endsWith "/" = false → r.tree.Ready path patched →
        r'.tree.read path = .ok (Utf8.encode patched)) := by
  have hload := run_loadText path r
  obtain ⟨tally', r', hchange, htree⟩ := run_change tally dryRun path patched r
  have hleft : r'.tree = r.tree ∨ r.tree.write path (Utf8.encode patched) = .ok r'.tree := by
    rw [htree]
    cases dryRun <;> cases r.tree.write path (Utf8.encode patched) <;> simp [Except.toOption]
  have hwritten : dryRun = false → path.endsWith "/" = false → r.tree.TakesText path →
      r'.tree.read path = .ok (Utf8.encode patched) := by
    intro hdry hslash htakes
    obtain ⟨tree, hwrite, hread⟩ := htakes.exists_write hslash (Utf8.encode patched)
    rw [htree, hdry, hwrite]
    exact hread
  rw [Tally.update, run_bind_of_eq hload]
  cases hread : r.tree.readText path with
  | ok current =>
    simp only
    split
    · next heq =>
      exact ⟨_, _, rfl, .inl rfl, fun _ _ _ => heq ▸ FileTree.readText_eq_ok_iff.mp hread⟩
    · next hne =>
      refine ⟨_, _, hchange, hleft, fun hdry hslash hready => ?_⟩
      rcases hready with htakes | hsame
      · exact hwritten hdry hslash htakes
      · rw [FileTree.readText_eq_ok_iff.mpr hsame] at hread
        exact absurd (Except.ok.inj hread).symm hne
  | error e =>
    have hready : path.endsWith "/" = false → r.tree.Ready path patched →
        r.tree.TakesText path ∧ e = .notFound := by
      rintro hslash (htakes | hsame)
      · rcases htakes.readText hslash with hnone | ⟨text, htext⟩
        · exact ⟨htakes, by rw [hread] at hnone; exact Except.error.inj hnone⟩
        · rw [hread] at htext
          cases htext
      · rw [FileTree.readText_eq_ok_iff.mpr hsame] at hread
        cases hread
    cases e with
    | notFound =>
      exact ⟨_, _, hchange, hleft, fun hdry hslash h => hwritten hdry hslash (hready hslash h).1⟩
    | _ =>
      refine ⟨_, _, rfl, .inl rfl, fun _ hslash h => ?_⟩
      cases (hready hslash h).2

/-- Patching a target file leaves those of other names, whatever their directory. When the file can
be patched, its path reads as what that gives. -/
theorem run_patchFile (tally : Tally) (dryRun : Bool) (dir text : String) (file : TargetFile)
    (r : Rehearsal) :
    ∃ tally' r', (Tally.patchFile Rehearsal.host generated dryRun dir tally (file, text)).run r =
        (tally', r') ∧
      (∀ other : TargetFile, other ≠ file ∨ (∃ e, generated.patchFile file.name text = .error e) →
        ∀ elsewhere, FileTree.SameAt (joinPath elsewhere other.name) r.tree r'.tree) ∧
      ∀ patched, generated.patchFile file.name text = .ok patched → dryRun = false →
        r.tree.Ready (joinPath dir file.name) patched →
          r'.tree.read (joinPath dir file.name) = .ok (Utf8.encode patched) := by
  have hname := TargetFile.isFileName file
  simp only [Tally.patchFile]
  cases hpatch : generated.patchFile file.name text with
  | error e => exact ⟨_, _, rfl, fun _ _ _ => .refl _ _, nofun⟩
  | ok patched =>
    obtain ⟨tally', r', hrun, hleft, hwritten⟩ :=
      run_update tally dryRun (joinPath dir file.name) patched r
    refine ⟨tally', r', hrun, fun other hother elsewhere => ?_, ?_⟩
    · have hne : file.name ≠ other.name := by
        rcases hother with hne | ⟨e, he⟩
        · exact fun heq => hne (TargetFile.name_inj heq).symm
        · cases he
      rcases hleft with hsame | hwrite
      · rw [hsame]
        exact .refl _ _
      · exact FileTree.sameAt_of_write hname (TargetFile.isFileName other) hne hwrite elsewhere
    · rintro _ ⟨⟩ hdry hready
      exact hwritten hdry (endsWith_joinPath hname dir) hready

/-- Patching files in turn leaves every file that is not among them or fails, and those that succeed
have their new texts where these can be put. -/
theorem run_foldlM_patchFile {texts : List (TargetFile × String)}
    (hnodup : (texts.map (·.1)).Nodup) (tally : Tally) (dryRun : Bool) (dir : String)
    (r : Rehearsal) :
    ∃ tally' r', (texts.foldlM (Tally.patchFile Rehearsal.host generated dryRun dir) tally).run r =
        (tally', r') ∧
      (∀ other : TargetFile, (∀ text, (other, text) ∈ texts →
          ∃ e, generated.patchFile other.name text = .error e) →
        ∀ elsewhere, FileTree.SameAt (joinPath elsewhere other.name) r.tree r'.tree) ∧
      ∀ target ∈ texts, ∀ patched, generated.patchFile target.1.name target.2 = .ok patched →
        dryRun = false → r.tree.Ready (joinPath dir target.1.name) patched →
          r'.tree.read (joinPath dir target.1.name) = .ok (Utf8.encode patched) := by
  induction texts generalizing tally r with
  | nil => exact ⟨tally, r, rfl, fun _ _ _ => .refl _ _, nofun⟩
  | cons first texts ih =>
    obtain ⟨file, text⟩ := first
    rw [List.map_cons, List.nodup_cons] at hnodup
    obtain ⟨mid, r', hfirst, hothers, hwritten⟩ := run_patchFile tally dryRun dir text file r
    obtain ⟨last, r'', hrest, hothers', hwritten'⟩ := ih hnodup.2 mid r'
    rw [List.foldlM_cons, run_bind_of_eq hfirst]
    refine ⟨last, r'', hrest, fun other hother elsewhere => ?_, ?_⟩
    · have hfile : other ≠ file ∨ ∃ e, generated.patchFile file.name text = .error e := by
        by_cases heq : other = file
        · exact .inr (heq ▸ hother text (by simp [heq]))
        · exact .inl heq
      exact (hothers other hfile elsewhere).trans
        (hothers' other (fun text htext => hother text (List.mem_cons_of_mem _ htext)) elsewhere)
    · refine List.forall_mem_cons.mpr ⟨fun patched hpatch hdry hready => ?_,
        fun target htarget patched hpatch hdry hready => ?_⟩
      · have hkept := hothers' file fun text htext =>
          absurd (List.mem_map.mpr ⟨_, htext, rfl⟩) hnodup.1
        exact (hkept dir).read_iff.mpr (hwritten patched hpatch hdry hready)
      · have hne : target.1 ≠ file := fun heq =>
          hnodup.1 (List.mem_map.mpr ⟨target, htarget, heq⟩)
        exact hwritten' target htarget patched hpatch hdry
          ((hothers target.1 (.inl hne) dir).ready hready)

/-! ## Runs -/

variable {options : Options} {model : Model} {config : Config}

theorem run_lift_of_eq {α : Type} {x : StateM Rehearsal α} {r' : Rehearsal} {a : α}
    (h : x.run r = (a, r')) :
    (liftM x : ExceptT Failure (StateM Rehearsal) α).run.run r = (.ok a, r') := by
  rw [ExceptT.run_liftM, StateT.run_map, h]
  rfl

theorem run_lift_bind_of_eq {α β : Type} {x : StateM Rehearsal α} {r' : Rehearsal} {a : α}
    (h : x.run r = (a, r')) (f : α → ExceptT Failure (StateM Rehearsal) β) :
    (liftM x >>= f).run.run r = (f a).run.run r' := by
  rw [ExceptT.run_bind, run_bind_of_eq (run_lift_of_eq h)]

/-- When generation fails the run ends with the tree as it was loaded. -/
theorem run_regenerate_of_error {targets : Targets} {r' : Rehearsal} {e : GenerationError}
    (hload : (Targets.load Rehearsal.host options.inputDir).run r = (targets, r'))
    (hgenerate : generate model config targets.prior = .error e) :
    (regenerate Rehearsal.host options model config).run.run r =
      (.error (.generation e), r') := by
  rw [regenerate, run_lift_bind_of_eq hload, hgenerate]
  rfl

/-- When generation succeeds the run ends as patching does. -/
theorem run_regenerate_of_ok {targets : Targets} {r' : Rehearsal} {generated : Generated}
    (hload : (Targets.load Rehearsal.host options.inputDir).run r = (targets, r'))
    (hgenerate : generate model config targets.prior = .ok generated) :
    ∃ mid, mid.tree = r'.tree ∧ ∀ tally last,
      (targets.patch Rehearsal.host generated (options.has .dryRun) options.outputDir).run mid =
        (tally, last) →
      (regenerate Rehearsal.host options model config).run.run r = (.ok tally, last) := by
  have hpure : (MonadExcept.ofExcept ((Except.ok generated).mapError Failure.generation) :
      ExceptT Failure (StateM Rehearsal) Generated) = pure generated := rfl
  have hprint : (Rehearsal.host.print (dumpText generated)).run r' =
      ((), { r' with output := r'.output ++ dumpText generated }) := rfl
  rw [regenerate, run_lift_bind_of_eq hload, hgenerate, hpure, pure_bind]
  cases options.has .dump with
  | true =>
    refine ⟨{ r' with output := r'.output ++ dumpText generated }, rfl, fun tally last hpatch => ?_⟩
    simp only [if_true]
    rw [run_lift_bind_of_eq hprint]
    exact run_lift_of_eq hpatch
  | false => exact ⟨r', rfl, fun tally last hpatch => run_lift_of_eq hpatch⟩

/-! ## Rounds -/

theorem FileTree.sublist_targets (tree : FileTree) (dir : String) (files : List TargetFile) :
    ((tree.targets dir files).map (·.1)).Sublist files := by
  induction files with
  | nil => exact List.Sublist.slnil
  | cons file files ih =>
    cases h : tree.readText (joinPath dir file.name) with
    | error e =>
      rw [targets_cons_of_error h]
      exact ih.cons file
    | ok text =>
      rw [targets_cons_of_ok h]
      exact ih.cons_cons file

/-- A target that is loaded has the text that its path reads as. -/
theorem FileTree.readText_of_mem_targets {tree : FileTree} {files : List TargetFile}
    (h : (file, text) ∈ tree.targets dir files) :
    tree.readText (joinPath dir file.name) = .ok text := by
  obtain ⟨other, -, hread⟩ := List.mem_filterMap.mp h
  obtain ⟨text', htext, heq⟩ := Option.map_eq_some_iff.mp hread
  cases heq
  cases hread : tree.readText (joinPath dir file.name) with
  | error e =>
    rw [hread] at htext
    cases htext
  | ok text =>
    rw [hread] at htext
    cases htext
    rfl

/-- The target files of a directory that can be read: their names and texts. -/
def FileTree.readable (tree : FileTree) (dir : String) : List (String × String) :=
  named (tree.targets dir TargetFile.all)

theorem nodup_targets (tree : FileTree) (dir : String) :
    ((tree.targets dir TargetFile.all).map (·.1)).Nodup :=
  (tree.sublist_targets dir _).nodup (by decide)

/-- No target file is read twice. -/
theorem nodup_readable (tree : FileTree) (dir : String) :
    ((tree.readable dir).map (·.1)).Nodup := by
  have hnames : (tree.readable dir).map (·.1) =
      ((tree.targets dir TargetFile.all).map (·.1)).map TargetFile.name := by
    simp [FileTree.readable, named]
  rw [hnames]
  exact (nodup_targets tree dir).map fun _ _ => TargetFile.name_inj

/-- What the outcomes of a round say of a target file. -/
theorem lookup_outcomes_eq_ok_iff {tree : FileTree} {g : Generated} :
    ((tree.readable dir).map fun file => (file.1, Round.outcomeOf g file)).lookup file.name =
        some (.ok patched) ↔
      ∃ text, (file, text) ∈ sound (tree.targets dir TargetFile.all) ∧
        g.patchFile file.name text = .ok patched := by
  constructor
  · intro h
    obtain ⟨front, back, hlist, -⟩ := List.lookup_eq_some_iff.mp h
    have hmem : (file.name, Except.ok patched) ∈
        (tree.readable dir).map fun file => (file.1, Round.outcomeOf g file) := by
      rw [hlist]
      simp
    obtain ⟨entry, hentry, heq⟩ := List.mem_map.mp hmem
    obtain ⟨⟨other, text⟩, htext, rfl⟩ := List.mem_map.mp hentry
    simp only [Prod.mk.injEq] at heq
    obtain ⟨hname, houtcome⟩ := heq
    obtain rfl := TargetFile.name_inj hname
    cases hfault : Round.fault (other.name, text) with
    | some e =>
      rw [(Round.after_of_fault g hfault).1] at houtcome
      cases houtcome
    | none =>
      rw [Round.outcomeOf, hfault] at houtcome
      exact ⟨text, List.mem_filter.mpr ⟨htext, decide_eq_true hfault⟩, houtcome⟩
  · rintro ⟨text, htext, hpatch⟩
    obtain ⟨hmem, hfault⟩ := List.mem_filter.mp htext
    have hnamed : (file.name, text) ∈ tree.readable dir := List.mem_map.mpr ⟨_, hmem, rfl⟩
    rw [Round.lookup_outcomes hnamed (nodup_readable tree dir), Round.outcomeOf,
      of_decide_eq_true hfault, Round.outcome, hpatch]

/-- An empty text has no regions to patch. -/
theorem patchFile_empty (g : Generated) (name : String) : g.patchFile name "" = .ok "" := by
  have hnone : ∀ m : Marker, Region.locate m [] = .ok none := fun m =>
    Region.locate_eq_none_iff.mpr nofun
  refine Round.patchFile_of_view (fun x _ => isOk_of_eq_ok (hnone x.marker))
    fun x _ indent content hview => ?_
  rw [Marker.view, Marker.region?_of_locate (hnone x.marker)] at hview
  cases hview

/-- What is patched in place can be put there. -/
theorem ready_of_readText {tree : FileTree} {g : Generated}
    (hread : tree.readText (joinPath dir file.name) = .ok text)
    (hpatch : g.patchFile file.name text = .ok patched) :
    tree.Ready (joinPath dir file.name) patched := by
  have hbytes := FileTree.readText_eq_ok_iff.mp hread
  obtain ⟨q, entry, hq, hentry, -, rfl | ⟨rfl, hempty⟩⟩ := FileTree.read_eq_ok_iff.mp hbytes
  · exact .inl ⟨q, hq, .inr ⟨text, hentry⟩⟩
  · have htext : text = "" := by
      have hdecode := Utf8.decode?_encode text
      rw [hempty] at hdecode
      exact (Option.some.inj hdecode).symm
    subst htext
    rw [patchFile_empty] at hpatch
    cases hpatch
    exact .inr hbytes

/-- Target files do not interfere. What a round makes of a file, and whether generation fails, does
not depend on the texts of the other files. It is what comes of the text of the file alone: the
sections that lie in it, over what its own regions hold, are put into them in turn, unless a region
is not closed. A run over the target files of a directory makes of those that it can read what a
round makes of them: when generation fails nothing is written; otherwise every file that was read
and patched has its new text where that can be put, and a file that could not be read or patched is
left as it was. -/
theorem regenerate_separately (model : Model) (config : Config) :
    (∀ files files' : List (String × String),
      (files.map (·.1)).Nodup → (files'.map (·.1)).Nodup →
        (∀ e, Round.run model config files = .error e ↔ Round.run model config files' = .error e) ∧
        ∀ file ∈ files, file ∈ files' → ∀ outcomes outcomes',
          Round.run model config files = .ok outcomes →
          Round.run model config files' = .ok outcomes' →
            ∃ outcome, outcomes.lookup file.1 = some outcome ∧
              outcomes'.lookup file.1 = some outcome) ∧
    (∀ (files : List (String × String)) (outcomes : List (String × Outcome)),
      (files.map (·.1)).Nodup → Round.run model config files = .ok outcomes →
        ∀ file ∈ files, ∃ selection outcome, model.select config = .ok selection ∧
          outcomes.lookup file.1 = some outcome ∧
          Round.Makes (selection.render model config
            (Prior.empty.readTarget file.1 file.2).1) file outcome) ∧
    ∀ (options : Options) (r : Rehearsal),
      (∀ e, Round.run model config (r.tree.readable options.inputDir) = .error e →
        ∃ last, (regenerate Rehearsal.host options model config).run.run r =
          (.error (.generation e), last) ∧ last.tree = r.tree) ∧
      ∀ outcomes, Round.run model config (r.tree.readable options.inputDir) = .ok outcomes →
        ∃ tally last, (regenerate Rehearsal.host options model config).run.run r =
            (.ok tally, last) ∧
          ∀ file : TargetFile,
            (∀ patched, outcomes.lookup file.name = some (.ok patched) →
              options.has .dryRun = false →
              (options.outputDir = options.inputDir ∨
                r.tree.TakesText (joinPath options.outputDir file.name)) →
              last.tree.read (joinPath options.outputDir file.name) =
                .ok (Utf8.encode patched)) ∧
            ((∀ patched, outcomes.lookup file.name ≠ some (.ok patched)) → ∀ dir bytes,
              last.tree.read (joinPath dir file.name) = .ok bytes ↔
                r.tree.read (joinPath dir file.name) = .ok bytes) := by
  refine ⟨fun files files' hnodup hnodup' => ⟨fun e => ?_, fun file hfile hfile' _ _ h h' =>
    Round.lookup_outcomes_congr hnodup hnodup' hfile hfile' h h'⟩,
    fun _ _ hnodup h _ hfile => Round.makes_of_run hnodup hfile h, fun options r => ?_⟩
  · rw [Round.run_eq_error, Round.run_eq_error]
  obtain ⟨targets, mid, hload, htree, hprior, htexts⟩ :=
    run_foldlM_loadFile options.inputDir TargetFile.all [] {} r
  have hprior' : targets.prior = (Round.load (r.tree.readable options.inputDir)).1 := hprior
  refine ⟨fun e h => ?_, fun outcomes h => ?_⟩
  · have hgenerate : generate model config targets.prior = .error e := by
      rw [generate, Round.run_eq_error.mp h]
      rfl
    exact ⟨mid, run_regenerate_of_error hload hgenerate, htree⟩
  · obtain ⟨selection, hselect, rfl⟩ := Round.run_eq_ok.mp h
    have hgenerate : generate model config targets.prior =
        .ok (Round.rendered selection model config (r.tree.readable options.inputDir)) := by
      rw [generate, hselect, hprior']
      rfl
    obtain ⟨start, hstart, hrun⟩ := run_regenerate_of_ok hload hgenerate
    have hnodup : (targets.texts.map (·.1)).Nodup := by
      rw [htexts]
      exact (nodup_targets r.tree options.inputDir).sublist (List.filter_sublist.map _)
    obtain ⟨tally, last, hpatch, hkept, hwritten⟩ := run_foldlM_patchFile hnodup
      { failed := targets.failed } (options.has .dryRun) options.outputDir start
    refine ⟨tally, last, hrun tally last hpatch, fun file => ⟨fun patched hok hdry htakes => ?_,
      fun hnot dir bytes => ?_⟩⟩
    · obtain ⟨text, htext, hpatched⟩ := lookup_outcomes_eq_ok_iff.mp hok
      refine hwritten (file, text) (by rwa [htexts]) patched hpatched hdry ?_
      rw [hstart, htree]
      rcases htakes with hsame | htakes
      · rw [hsame]
        exact ready_of_readText
          (FileTree.readText_of_mem_targets (List.mem_of_mem_filter htext)) hpatched
      · exact .inl htakes
    · rw [← htree, ← hstart]
      refine (hkept file (fun text htext => ?_) dir).read_iff
      rw [htexts] at htext
      cases hpatched : (Round.rendered selection model config
          (r.tree.readable options.inputDir)).patchFile file.name text with
      | error e => exact ⟨e, rfl⟩
      | ok patched =>
        exact absurd (lookup_outcomes_eq_ok_iff.mpr ⟨text, htext, hpatched⟩) (hnot patched)

/-- A model with one type and one method. -/
def handledModel : Model := buildModel {} (definitionsOf Round.handledText)

/-- A file whose constants are out of date. -/
def staleValues : String :=
  "\x7b\n  // Generated TLValues\n  Old = 1\n  // End of generated TLValues\n\x7d\n"

/-- The file with the constants of the model. -/
def freshValues : String :=
  "\x7b\n  // Generated TLValues\n  A = 0x00000001,\n\n  AuthF = 0x00000002,\n" ++
    "  // End of generated TLValues\n\x7d\n"

/-- A text with a region that is not closed. -/
def unclosedTypes : String := "// Generated TLTypes\n"

/-- A directory with these files, and one whose bytes are no text. -/
def damagedTree : FileTree where
  entries := [
    ([TargetFile.values.name], .file (Utf8.encode staleValues)),
    ([TargetFile.types.name], .file (Utf8.encode unclosedTypes)),
    ([TargetFile.streamHeader.name], .file [0xff])]

/-- Options that name the working directory. -/
def plainOptions : Options where
  schema := "schema.tl"
  switches := []
  url := Options.publishedUrl
  inputDir := "."
  outputDir := "."

/-- A file of handlers beside a file with an unclosed region, and alone. And a run over damaged
files: the sound one gets its constants, and the others stay. -/
theorem regenerate_separately_handwritten :
    (∃ outcomes outcomes' outcome, ∃ selection : Selection,
      Round.run handledModel {} [(TargetFile.values.name, "// Generated TLValues\n"),
          (Round.handlerFile, Round.handwritten)] = .ok outcomes ∧
        Round.run handledModel {} [(Round.handlerFile, Round.handwritten)] = .ok outcomes' ∧
        outcomes.lookup Round.handlerFile = some outcome ∧
        outcomes'.lookup Round.handlerFile = some outcome ∧
        Round.Makes (selection.render handledModel {}
          (Prior.empty.readTarget Round.handlerFile Round.handwritten).1)
            (Round.handlerFile, Round.handwritten) outcome) ∧
    ∃ tally last, (regenerate Rehearsal.host plainOptions handledModel {}).run.run
        { tree := damagedTree } = (.ok tally, last) ∧
      last.tree.read "./TLValues.hpp" = .ok (Utf8.encode freshValues) ∧
      last.tree.read "./TLTypes.hpp" = .ok (Utf8.encode unclosedTypes) ∧
      last.tree.read "./CTelegramStream.hpp" = .ok [0xff] := by
  have hselect : (handledModel.select {}).isOk := by decide +kernel
  obtain ⟨hsame, hmakes, hruns⟩ := regenerate_separately handledModel {}
  refine ⟨?_, ?_⟩
  · have hnodup : ([(Round.handlerFile, Round.handwritten)].map (·.1)).Nodup :=
      List.nodup_singleton _
    obtain ⟨outcomes, hrun⟩ := Round.exists_run hselect
      [(TargetFile.values.name, "// Generated TLValues\n"),
        (Round.handlerFile, Round.handwritten)]
    obtain ⟨outcomes', hrun'⟩ := Round.exists_run hselect [(Round.handlerFile, Round.handwritten)]
    obtain ⟨outcome, h, h'⟩ := (hsame _ _ (by decide) hnodup).2
      (Round.handlerFile, Round.handwritten) (by simp) (by simp) _ _ hrun hrun'
    obtain ⟨selection, made, -, hmade, hcourse⟩ := hmakes _ _ hnodup hrun'
      (Round.handlerFile, Round.handwritten) (by simp)
    cases hmade.symm.trans h'
    exact ⟨outcomes, outcomes', _, selection, hrun, hrun', h, h', hcourse⟩
  · obtain ⟨outcomes, hrun⟩ := Round.exists_run hselect (damagedTree.readable ".")
    have hreadable : damagedTree.readable "." =
        [(TargetFile.values.name, staleValues), (TargetFile.types.name, unclosedTypes)] := by
      decide +kernel
    -- What the round says of a file is worked out on the two that can be read.
    have houtcome : ∀ name, (outcomes.lookup name).bind (·.toOption) =
        ((Round.run handledModel {} [(TargetFile.values.name, staleValues),
          (TargetFile.types.name, unclosedTypes)]).toOption.bind (·.lookup name)).bind
            (·.toOption) := by
      intro name
      rw [← hreadable, hrun]
      rfl
    have hvalues : outcomes.lookup "TLValues.hpp" = some (.ok freshValues) := by
      have hfresh := (houtcome "TLValues.hpp").trans (b := _) (c := some freshValues)
        (by decide +kernel)
      obtain ⟨outcome, hlookup, hok⟩ := Option.bind_eq_some_iff.mp hfresh
      cases outcome with
      | error e => cases hok
      | ok text =>
        cases hok
        exact hlookup
    have hleft : ∀ name ∈ ["TLTypes.hpp", "CTelegramStream.hpp"], ∀ patched,
        outcomes.lookup name ≠ some (.ok patched) := by
      intro name hname patched hlookup
      have hnone : ∀ name ∈ ["TLTypes.hpp", "CTelegramStream.hpp"],
          ((Round.run handledModel {} [(TargetFile.values.name, staleValues),
            (TargetFile.types.name, unclosedTypes)]).toOption.bind (·.lookup name)).bind
              (·.toOption) = none := by decide +kernel
      have hsome := houtcome name
      rw [hlookup, hnone name hname] at hsome
      cases hsome
    obtain ⟨tally, last, hlast, hfiles⟩ :=
      (hruns plainOptions { tree := damagedTree }).2 outcomes hrun
    have hpaths : joinPath "." "TLValues.hpp" = "./TLValues.hpp" ∧
        joinPath "." "TLTypes.hpp" = "./TLTypes.hpp" ∧
        joinPath "." "CTelegramStream.hpp" = "./CTelegramStream.hpp" := by decide +kernel
    refine ⟨tally, last, hlast, ?_, ?_, ?_⟩
    · rw [← hpaths.1]
      exact (hfiles .values).1 freshValues hvalues (by decide) (.inl rfl)
    · rw [← hpaths.2.1]
      exact ((hfiles .types).2 (hleft _ (by decide)) "." _).mpr (by decide +kernel)
    · rw [← hpaths.2.2]
      exact ((hfiles .streamHeader).2 (hleft _ (by decide)) "." _).mpr (by decide +kernel)

end TypeLang.Command
