import TypeLang.Command.Host
import TypeLang.Proofs.Success
import TypeLang.Proofs.Text.Splitting

/-!
# Files of different names

A path into a directory leads to a place whose last name is the file's. So files of different names
stand at different places, whatever the directories are, and what is written to one leaves the
others as they are: the directories on the way to them stay, since a file is put only where no
directory stands.
-/
namespace TypeLang.Command

open Text

/-- A name that leads from a directory to a file. -/
structure IsFileName (name : String) : Prop where
  nonempty : name ≠ ""
  noSlash : '/' ∉ name.toList
  ne_self : name ≠ "."
  ne_parent : name ≠ ".."

variable {dir name other path : String}

/-! ## Paths -/

theorem endsWith_slash_iff : path.endsWith "/" ↔ ['/'] <:+ path.toList := by
  rw [String.endsWith_eq_endsWith_toSlice, String.Slice.endsWith_string_iff]
  simp

theorem exists_toList_joinPath (dir file : String) :
    ∃ front, (joinPath dir file).toList = front ++ '/' :: file.toList := by
  rw [joinPath]
  split
  · next h =>
    obtain ⟨front, hfront⟩ := endsWith_slash_iff.mp h
    exact ⟨front, by rw [String.toList_append, ← hfront]; simp⟩
  · exact ⟨dir.toList, by simp [String.toList_append]⟩

/-- A path that ends in a file name does not end in a slash. -/
theorem endsWith_joinPath (h : IsFileName name) (dir : String) :
    (joinPath dir name).endsWith "/" = false := by
  rw [Bool.eq_false_iff, ne_eq, endsWith_slash_iff]
  obtain ⟨front, hfront⟩ := exists_toList_joinPath dir name
  have hne : name.toList ≠ [] := fun hnil => h.nonempty (String.toList_inj.mp hnil)
  obtain ⟨start, last, hname⟩ := List.eq_nil_or_concat name.toList |>.resolve_left hne
  rintro ⟨rest, hrest⟩
  rw [hfront, hname, List.concat_eq_append, ← List.cons_append, ← List.append_assoc] at hrest
  obtain ⟨-, hlast⟩ := List.append_inj' hrest rfl
  exact h.noSlash (by simp [hname, ← hlast])

/-- The last name of a path into a directory is the one of the file. -/
theorem exists_names_joinPath (h : IsFileName name) (dir : String) :
    ∃ front, FileTree.names (joinPath dir name) = front ++ [name] := by
  obtain ⟨front, hfront⟩ := exists_toList_joinPath dir name
  have hpiece : splitWhere (· == '/') name.toList = [name.toList] :=
    splitWhere_of_forall fun c hc => beq_false_of_ne fun heq => h.noSlash (heq ▸ hc)
  have hne : name.toList ≠ [] := fun hnil => h.nonempty (String.toList_inj.mp hnil)
  refine ⟨((splitWhere (· == '/') front).filter (!·.isEmpty)).map String.ofList, ?_⟩
  rw [FileTree.names, hfront, splitWhere_append_cons (by decide), hpiece, List.filter_append,
    List.map_append]
  simp [hne]

namespace FileTree

variable {tree tree' : FileTree} {place start q : Place} {ns rest : List String}
  {bytes : List UInt8} {entry : FileEntry}

/-! ## Following names -/

theorem follow_singleton (hself : name ≠ ".") (hparent : name ≠ "..") :
    tree.follow start [name] = .ok (start ++ [name]) := by
  rw [follow.eq_def]
  split <;> simp_all

/-- A name that is not the last leads into a directory. -/
theorem follow_cons_eq_ok_iff (hself : name ≠ ".") (hparent : name ≠ "..") (hrest : rest ≠ []) :
    tree.follow start (name :: rest) = .ok q ↔
      tree.lookUp (start ++ [name]) = .ok (some .directory) ∧
        tree.follow (start ++ [name]) rest = .ok q := by
  rw [follow.eq_def]
  split <;> simp_all
  split <;> simp_all

/-- Following a path leads to an entry of its last name. -/
theorem getLast?_of_follow (h : IsFileName name)
    (hq : tree.follow start (ns ++ [name]) = .ok q) : q.getLast? = some name := by
  induction ns generalizing start with
  | nil =>
    rw [List.nil_append, follow_singleton h.ne_self h.ne_parent] at hq
    cases hq
    exact List.getLast?_concat
  | cons first ns ih =>
    rw [List.cons_append] at hq
    by_cases hself : first = "."
    · rw [hself, follow] at hq
      exact ih hq
    · by_cases hparent : first = ".."
      · rw [hparent, follow] at hq
        exact ih hq
      · exact ih ((follow_cons_eq_ok_iff hself hparent (by simp)).mp hq).2

/-- The last name of the place of a file is the file's. -/
theorem getLast?_of_place (h : IsFileName name) (hq : tree.place (joinPath dir name) = .ok q) :
    q.getLast? = some name := by
  obtain ⟨front, hnames⟩ := exists_names_joinPath h dir
  simp only [place, hnames] at hq
  split at hq
  · cases hq
  · split at hq
    · cases hq
    · exact getLast?_of_follow h hq

/-! ## A file put into a tree -/

theorem find?_of_lookUp {found : Option FileEntry} (h : tree.lookUp q = .ok found) :
    tree.find? q = found := by
  rw [lookUp] at h
  split at h
  · cases h
  · exact Except.ok.inj h

theorem lookUp_insert_self {found : Option FileEntry} (h : tree.lookUp q = .ok found)
    (hq : q ≠ []) (entry : FileEntry) : (tree.insert q entry).lookUp q = .ok (some entry) := by
  rw [lookUp] at h ⊢
  split at h
  · cases h
  · next hshort => rw [if_neg hshort, find?_insert tree q q entry hq, if_pos rfl]

theorem lookUp_insert_of_ne (hq : q ≠ []) (hplace : place ≠ q) (entry : FileEntry) :
    (tree.insert place entry).lookUp q = tree.lookUp q := by
  rw [lookUp, lookUp, find?_insert tree place q entry hq, if_neg hplace.symm]

section Insert

variable (hplace : tree.find? place ≠ some .directory)
include hplace

theorem ne_nil_of_find? : place ≠ [] := by
  rintro rfl
  exact hplace rfl

/-- Putting a file at a place neither makes a directory nor removes one. -/
theorem lookUp_insert_directory_iff (hq : q ≠ []) (bytes : List UInt8) :
    (tree.insert place (.file bytes)).lookUp q = .ok (some .directory) ↔
      tree.lookUp q = .ok (some .directory) := by
  by_cases heq : place = q
  · subst heq
    simp only [lookUp, find?_insert tree place place _ hq]
    split <;> simp [hplace]
  · rw [lookUp_insert_of_ne hq heq]

/-- The way to a place does not lead through a file that is put where no directory is. -/
theorem follow_insert_iff (bytes : List UInt8) :
    (tree.insert place (.file bytes)).follow start ns = .ok q ↔ tree.follow start ns = .ok q := by
  induction ns generalizing start with
  | nil => rw [follow, follow]
  | cons name rest ih =>
    by_cases hself : name = "."
    · rw [hself, follow, follow]
      exact ih
    · by_cases hparent : name = ".."
      · rw [hparent, follow, follow]
        exact ih
      · by_cases hrest : rest = []
        · rw [hrest, follow_singleton hself hparent, follow_singleton hself hparent]
        · rw [follow_cons_eq_ok_iff hself hparent hrest, follow_cons_eq_ok_iff hself hparent hrest,
            ih, lookUp_insert_directory_iff hplace (by simp)]

/-- Putting a file at a place keeps where paths lead. -/
theorem place_insert_iff (bytes : List UInt8) (path : String) :
    (tree.insert place (.file bytes)).place path = .ok q ↔ tree.place path = .ok q := by
  simp only [FileTree.place]
  split
  · rfl
  · split
    · rfl
    · exact follow_insert_iff hplace bytes

end Insert

/-! ## Paths that are left as they are -/

/-- A path leads to the same place in two trees, and the same stands there. -/
structure SameAt (path : String) (tree tree' : FileTree) : Prop where
  place_iff : ∀ q, tree'.place path = .ok q ↔ tree.place path = .ok q
  lookUp_eq : ∀ q, tree.place path = .ok q → tree'.lookUp q = tree.lookUp q

theorem SameAt.refl (path : String) (tree : FileTree) : SameAt path tree tree :=
  ⟨fun _ => Iff.rfl, fun _ _ => rfl⟩

theorem SameAt.trans {tree'' : FileTree} (h : SameAt path tree tree')
    (h' : SameAt path tree' tree'') : SameAt path tree tree'' :=
  ⟨fun q => (h'.place_iff q).trans (h.place_iff q), fun q hq =>
    (h'.lookUp_eq q ((h.place_iff q).mpr hq)).trans (h.lookUp_eq q hq)⟩

/-- What a path reads as, if anything, is told by what stands at its place. -/
theorem read_eq_ok_iff : tree.read path = .ok bytes ↔ ∃ q entry, tree.place path = .ok q ∧
    tree.lookUp q = .ok (some entry) ∧ path.endsWith "/" = false ∧
      (entry = .file bytes ∨ entry = .sink ∧ bytes = []) := by
  simp only [read, bind_eq_ok]
  constructor
  · rintro ⟨q, hq, found, hentry, h⟩
    refine ⟨q, ?_⟩
    split at h
    · cases h
    · cases h
    · split at h
      · cases h
      · next hslash =>
        cases h
        exact ⟨_, hq, hentry, Bool.eq_false_iff.mpr hslash, .inl rfl⟩
    · split at h
      · cases h
      · next hslash =>
        cases h
        exact ⟨_, hq, hentry, Bool.eq_false_iff.mpr hslash, .inr ⟨rfl, rfl⟩⟩
  · rintro ⟨q, entry, hq, hentry, hslash, rfl | ⟨rfl, rfl⟩⟩
    · exact ⟨q, hq, _, hentry, by simp [hslash]⟩
    · exact ⟨q, hq, _, hentry, by simp [hslash]⟩

/-- Where two trees are the same at a path, it reads alike. -/
theorem SameAt.read_iff (h : SameAt path tree tree') :
    tree'.read path = .ok bytes ↔ tree.read path = .ok bytes := by
  simp only [read_eq_ok_iff, h.place_iff]
  constructor
  · rintro ⟨q, entry, hq, hentry, hrest⟩
    exact ⟨q, entry, hq, h.lookUp_eq q hq ▸ hentry, hrest⟩
  · rintro ⟨q, entry, hq, hentry, hrest⟩
    exact ⟨q, entry, hq, (h.lookUp_eq q hq).trans hentry, hrest⟩

/-- What is written is lost, or stands where no directory stood. -/
theorem of_write (h : tree.write path bytes = .ok tree') : ∃ q, tree.place path = .ok q ∧
    (tree' = tree ∨ tree.find? q ≠ some .directory ∧ tree' = tree.insert q (.file bytes)) := by
  simp only [write, bind_eq_ok] at h
  obtain ⟨q, hq, h⟩ := h
  refine ⟨q, hq, ?_⟩
  split at h
  · cases h
  · simp only [bind_eq_ok] at h
    obtain ⟨found, hentry, h⟩ := h
    have hfind := find?_of_lookUp hentry
    split at h
    · cases h
    · cases h
      exact .inl rfl
    · cases h
      exact .inr ⟨by simp [hfind], rfl⟩
    · cases h
      exact .inr ⟨by simp [hfind], rfl⟩

/-- Writing a file leaves the files of other names, in whatever directory. -/
theorem sameAt_of_write (hname : IsFileName name) (hother : IsFileName other) (hne : name ≠ other)
    (h : tree.write (joinPath dir name) bytes = .ok tree') (elsewhere : String) :
    SameAt (joinPath elsewhere other) tree tree' := by
  obtain ⟨q, hq, rfl | ⟨hfind, rfl⟩⟩ := of_write h
  · exact .refl _ _
  · refine ⟨fun _ => place_insert_iff hfind bytes _, fun p hp => ?_⟩
    have hp' := getLast?_of_place hother hp
    have hpq : q ≠ p := by
      rintro rfl
      rw [getLast?_of_place hname hq] at hp'
      exact hne (Option.some.inj hp')
    exact lookUp_insert_of_ne (by rintro rfl; cases hp') hpq _

/-! ## Texts -/

/-- Reads a file that must be text. -/
def readText (tree : FileTree) (path : String) : Except FileError String :=
  match tree.read path with
  | .error e => .error e
  | .ok bytes =>
    match Utf8.decode? bytes with
    | none => .error .malformedText
    | some text => .ok text

/-- A file reads as a text exactly when it holds the bytes of the text. -/
theorem readText_eq_ok_iff {text : String} :
    tree.readText path = .ok text ↔ tree.read path = .ok (Utf8.encode text) := by
  simp only [readText]
  cases tree.read path with
  | error e => simp
  | ok bytes =>
    simp only [Except.ok.injEq, ← Utf8.decode?_eq_some_iff]
    cases Utf8.decode? bytes <;> simp

/-- A text can be put at the path: nothing stands there, or a text file. -/
def TakesText (tree : FileTree) (path : String) : Prop :=
  ∃ q, tree.place path = .ok q ∧ (tree.lookUp q = .ok none ∨
    ∃ text, tree.lookUp q = .ok (some (.file (Utf8.encode text))))

theorem SameAt.takesText (h : SameAt path tree tree') (htakes : tree.TakesText path) :
    tree'.TakesText path := by
  obtain ⟨q, hq, hentry⟩ := htakes
  exact ⟨q, (h.place_iff q).mpr hq, by rwa [h.lookUp_eq q hq]⟩

/-- Where a text can be put there is a text, or nothing yet. -/
theorem TakesText.readText (h : tree.TakesText path) (hslash : path.endsWith "/" = false) :
    tree.readText path = .error .notFound ∨ ∃ text, tree.readText path = .ok text := by
  obtain ⟨q, hq, hnone | ⟨text, htext⟩⟩ := h
  · refine .inl ?_
    have hread : tree.read path = .error .notFound := by
      rw [read, hq]
      simp only [bind, Except.bind, hnone]
    rw [FileTree.readText, hread]
  · exact .inr ⟨text, readText_eq_ok_iff.mpr
      (read_eq_ok_iff.mpr ⟨q, _, hq, htext, hslash, .inl rfl⟩)⟩

/-- What is written where a text can be put is read back. -/
theorem TakesText.exists_write (h : tree.TakesText path) (hslash : path.endsWith "/" = false)
    (bytes : List UInt8) :
    ∃ tree', tree.write path bytes = .ok tree' ∧ tree'.read path = .ok bytes := by
  obtain ⟨q, hq, hentry⟩ := h
  obtain ⟨found, hlookUp, hwrite⟩ : ∃ found, tree.lookUp q = .ok found ∧
      (found = none ∨ ∃ text, found = some (.file (Utf8.encode text))) := by
    rcases hentry with hnone | ⟨text, htext⟩
    · exact ⟨none, hnone, .inl rfl⟩
    · exact ⟨_, htext, .inr ⟨text, rfl⟩⟩
  have hdirectory : tree.find? q ≠ some .directory := by
    rw [find?_of_lookUp hlookUp]
    rcases hwrite with rfl | ⟨text, rfl⟩ <;> simp
  have hself := lookUp_insert_self hlookUp (ne_nil_of_find? hdirectory) (.file bytes)
  refine ⟨tree.insert q (.file bytes), ?_, read_eq_ok_iff.mpr
    ⟨q, _, (place_insert_iff hdirectory bytes path).mpr hq, hself, hslash, .inl rfl⟩⟩
  simp only [write, bind_eq_ok]
  refine ⟨q, hq, ?_⟩
  rw [hslash, hlookUp]
  rcases hwrite with rfl | ⟨text, rfl⟩ <;> rfl

end FileTree

end TypeLang.Command
