import TypeLang.Generation.Generated
import TypeLang.Proofs.Emit.Heads
import TypeLang.Proofs.Emit.Instances
import TypeLang.Proofs.Model.Order
import TypeLang.Proofs.Model.Reach

/-!
# Operators

Which structs and operators are generated, and which vector instantiations. Every type that is
neither built in nor withheld gets a struct, the operators that read it and those that print it. A
type gets a write operator only when the arguments of a method that gets code can hold it, and a
vector gets an instantiation only when it is met: nothing is missing, and nothing is superfluous.
-/
namespace TypeLang

/-- A type that another one has a field of, directly or in vectors. -/
def TaggedType.Holds (t u : TaggedType) : Prop :=
  ∃ c ∈ t.constructors, ∃ f ∈ c.fields, f.type.isIndirect = false ∧ f.type.base = u.name

/-- Of two elements that would be out of order the other way round the first comes first. -/
theorem idxOf_lt_of_pairwise {α : Type} [DecidableEq α] {r : α → α → Prop} {as : List α} {a b : α}
    (h : as.Pairwise r) (ha : a ∈ as) (hb : b ∈ as) (hne : a ≠ b) (hr : ¬r a b) :
    as.idxOf b < as.idxOf a := by
  by_contra hle
  have hlt : as.idxOf a < as.idxOf b := by
    refine Nat.lt_of_le_of_ne (Nat.le_of_not_lt hle) fun heq => hne ?_
    exact (List.idxOf_inj ha).mp heq
  have hpair := List.pairwise_iff_getElem.mp h _ _ (List.idxOf_lt_length_of_mem ha)
    (List.idxOf_lt_length_of_mem hb) hlt
  rw [List.getElem_idxOf, List.getElem_idxOf] at hpair
  exact hr hpair

namespace Model

variable {m : Model} {config : Config} {selection : Selection} {t u : TaggedType}

/-- Whether a type gets code of its own. -/
structure Emits (m : Model) (config : Config) (t : TaggedType) : Prop where
  mem : t ∈ m.types
  not_builtin : t.isBuiltin = false
  not_withheld : t.name ∉ config.withheldNames

/-- A type that a method with code takes as an argument, marks apart. -/
def IsArgument (m : Model) (config : Config) (type : TargetType) : Prop :=
  ∃ method ∈ m.methods, config.allows method ∧ ∃ f ∈ wireFields method.fields, f.type = type

/-- A type that a method with code returns. -/
def IsResult (m : Model) (config : Config) (type : TargetType) : Prop :=
  ∃ method ∈ m.methods, config.allows method ∧ method.result = type

/-- What a walk from the arguments meets. -/
def IsWritten (m : Model) (config : Config) : TargetType → Prop :=
  m.Met (Reach.Enters config.withheldNames) (m.IsArgument config)

/-- What a walk from the types with code, the results and the arguments meets. -/
def IsRead (m : Model) (config : Config) : TargetType → Prop :=
  m.Met (Reach.Enters config.withheldNames) fun type =>
    (∃ t, m.Emits config t ∧ .ofText t.name = type) ∨ m.IsResult config type ∨
      m.IsArgument config type

/-! ## Selected types -/

/-- What is known of a selection: every type has its place in the order, and each part comes from
the types in that order and the methods that get code. -/
structure Selected (m : Model) (config : Config) (selection : Selection) : Prop where
  complete : m.resolve.unresolved = []
  types : selection.types =
    (m.resolve.ordered.filter fun name => name ∉ config.withheldNames).filterMap m.type?
  read : ∃ roots, selection.read = m.reach config.withheldNames roots ∧ ∀ type, type ∈ roots ↔
    (∃ t ∈ selection.types, .ofText t.name = type) ∨ m.IsResult config type ∨
      m.IsArgument config type
  written : ∃ roots, selection.written = m.reach config.withheldNames roots ∧
    ∀ type, type ∈ roots ↔ m.IsArgument config type

/-- What is selected is all that is known of a selection. -/
theorem selected_of_select (h : m.select config = .ok selection) : m.Selected config selection := by
  simp only [Model.select] at h
  split at h
  · cases h
  · next hcomplete =>
    cases h
    refine ⟨?_, rfl, ⟨_, rfl, fun type => ?_⟩, ⟨_, rfl, fun type => ?_⟩⟩
    · simpa [Resolution.isComplete] using hcomplete
    · simp [IsResult, IsArgument, and_assoc]
    · simp [IsArgument, and_assoc]

section Selected

variable (hm : (m.types.map (·.name)).Nodup) (h : m.Selected config selection)
include hm h

/-- When generation succeeds, every type that is not built in has its place in the order. -/
theorem Selected.mem_ordered {name : String} : name ∈ m.resolve.ordered ↔
    ∃ t ∈ m.types, t.isBuiltin = false ∧ t.name = name := by
  have hperm := perm_resolve hm
  rw [h.complete, List.map_nil, List.append_nil] at hperm
  simp [hperm.mem_iff, and_assoc]

/-- The types selected are those that get code. -/
theorem Selected.mem_types : t ∈ selection.types ↔ m.Emits config t := by
  rw [h.types, List.mem_filterMap]
  simp only [List.mem_filter, h.mem_ordered hm]
  constructor
  · rintro ⟨name, ⟨⟨u, hu, hbuiltin, rfl⟩, hwithheld⟩, ht⟩
    obtain ⟨ht, hname⟩ := mem_types_of_type? ht
    obtain rfl : t = u := List.inj_on_of_nodup_map hm ht hu hname
    exact ⟨hu, hbuiltin, by simpa using hwithheld⟩
  · rintro ⟨ht, hbuiltin, hwithheld⟩
    exact ⟨t.name, ⟨⟨t, ht, hbuiltin, rfl⟩, by simpa using hwithheld⟩,
      (type?_eq_some_iff hm).mpr ⟨ht, rfl⟩⟩

/-- A type with a place holds only types with places in front of it. -/
theorem Selected.idxOf_ordered_lt (ht : t ∈ m.types)
    (htb : t.isBuiltin = false) (hub : u.isBuiltin = false) (hholds : t.Holds u) :
    m.resolve.ordered.idxOf u.name < m.resolve.ordered.idxOf t.name := by
  have hplaced : t.name ∈ m.resolve.ordered := (h.mem_ordered hm).mpr ⟨t, ht, htb, rfl⟩
  exact (before_resolve hm ht hplaced (TaggedType.mem_dependencies.mpr hholds) hub).2

/-- No type is selected twice, and none holds one that is behind it. -/
theorem Selected.pairwise_types :
    selection.types.Pairwise fun t u => t ≠ u ∧ ¬t.Holds u := by
  have hnodup : m.resolve.ordered.Nodup := (List.nodup_append.mp (nodup_resolve hm)).1
  have hordered : m.resolve.ordered.Pairwise fun a b => ∀ t ∈ m.type? a, ∀ u ∈ m.type? b,
      t ≠ u ∧ ¬t.Holds u := by
    rw [List.pairwise_iff_getElem]
    intro i j hi hj hlt t ht u hu
    obtain ⟨ht, hti⟩ := mem_types_of_type? ht
    obtain ⟨hu, huj⟩ := mem_types_of_type? hu
    have hplaces : m.resolve.ordered.idxOf t.name < m.resolve.ordered.idxOf u.name := by
      rwa [hti, huj, hnodup.idxOf_getElem, hnodup.idxOf_getElem]
    refine ⟨fun heq => ?_, fun hholds => ?_⟩
    · rw [heq] at hplaces
      exact Nat.lt_irrefl _ hplaces
    · have htb := not_isBuiltin_of_mem_ordered hm (hti ▸ List.getElem_mem hi)
      have hub := not_isBuiltin_of_mem_ordered hm (huj ▸ List.getElem_mem hj)
      exact Nat.lt_asymm hplaces (h.idxOf_ordered_lt hm ht htb hub hholds)
  rw [h.types]
  exact List.pairwise_filterMap.mpr (hordered.sublist List.filter_sublist)

theorem Selected.idxOf_lt (ht : t ∈ selection.types) (hu : u ∈ selection.types)
    (hholds : t.Holds u) : selection.types.idxOf u < selection.types.idxOf t := by
  refine idxOf_lt_of_pairwise (h.pairwise_types hm) ht hu ?_ fun hr => hr.2 hholds
  rintro rfl
  obtain ⟨ht, hbuiltin, -⟩ := (h.mem_types hm).mp ht
  exact Nat.lt_irrefl _ (h.idxOf_ordered_lt hm ht hbuiltin hbuiltin hholds)

/-! ## Walks -/

theorem Selected.mem_written_types {name : String} (hbuiltin : TargetType.isBuiltin name = false) :
    name ∈ selection.written.types ↔ m.IsWritten config (.plain name) := by
  obtain ⟨roots, hwritten, hroots⟩ := h.written
  have heq : (fun type => type ∈ roots) = m.IsArgument config := funext fun _ => propext (hroots _)
  rw [hwritten, mem_types_reach hm hbuiltin, IsWritten, heq]

theorem Selected.mem_written_vectors {type : TargetType} : type ∈ selection.written.vectors ↔
    (∃ item, type = .vector item) ∧ m.IsWritten config type := by
  obtain ⟨roots, hwritten, hroots⟩ := h.written
  have heq : (fun type => type ∈ roots) = m.IsArgument config := funext fun _ => propext (hroots _)
  rw [hwritten, mem_vectors_reach hm, IsWritten, heq]

/-- The vectors read are those that the walk from types, results and arguments meets. -/
theorem Selected.mem_read_vectors {type : TargetType} : type ∈ selection.read.vectors ↔
    (∃ item, type = .vector item) ∧ m.IsRead config type := by
  obtain ⟨roots, hread, hroots⟩ := h.read
  have heq : (fun type => type ∈ roots) = fun type =>
      (∃ t, m.Emits config t ∧ .ofText t.name = type) ∨ m.IsResult config type ∨
        m.IsArgument config type := by
    simp only [h.mem_types hm] at hroots
    exact funext fun _ => propext (hroots _)
  rw [hread, mem_vectors_reach hm, IsRead, heq]

theorem Selected.mem_writtenTypes : t ∈ selection.writtenTypes ↔
    m.Emits config t ∧ m.IsWritten config (.plain t.name) := by
  rw [Selection.writtenTypes, List.mem_filter, decide_eq_true_eq, h.mem_types hm]
  exact and_congr_right fun hemits => h.mem_written_types hm hemits.not_builtin

end Selected

/-- Every type has a constructor. -/
theorem Derived.constructors_ne_nil {ds : List Definition} (h : Derived ds m) :
    ∀ t ∈ m.types, t.constructors ≠ [] := by
  refine h.forall_types (P := fun t => t.constructors ≠ []) (fun t ht => ?_) (fun e t ht => ?_)
    fun t ht => ?_
  · obtain ⟨d, hd, hcategory, hname, -⟩ := (regroups_ofDefinitions ds).exists_first ht
    rw [(regroups_ofDefinitions ds).constructors t ht]
    refine List.ne_nil_of_mem (List.mem_map_of_mem (List.mem_filter.mpr ⟨hd, ?_⟩))
    exact Definition.constructs_iff.mpr ⟨hcategory, hname.symm⟩
  · rw [Edge.wrapType]
    split <;> simpa using ht
  · exact bake_of_renameType (P := fun t => t.constructors ≠ [])
      (fun rename t ht => by simpa [Baking.renameType] using ht) ht

end Model

/-! ## Instantiations -/

namespace Emit

variable {d : Direction} {vectors : List TargetType}

/-- The lines that instantiate the operator of vector types. -/
def instanceLines (d : Direction) (prior : Option String) (vectors : List TargetType) :
    List String :=
  let spelled := (vectors.map TargetType.text).mergeSort fun a b => decide (a ≤ b)
  mergeLines ((prior.map statedLines).getD []) (spelled.map (instanceLine d))

/-- Whatever the region holds already, there is a line for each vector and no other. -/
theorem mem_instanceLines {prior : Option String} {line : String} :
    line ∈ instanceLines d prior vectors ↔ ∃ type ∈ vectors, line = instanceLine d type.text := by
  simp [instanceLines, mem_mergeLines, List.mem_mergeSort, eq_comm]

end Emit

/-! ## Sections -/

/-- What the structs, the operators and the instantiations are generated for. -/
structure Operators where
  /-- The types with a struct, an operator that reads and one that prints, in the order of the
  structs. -/
  types : List TaggedType
  /-- The types with an operator that writes. -/
  written : List TaggedType
  readInstances : List String
  writeInstances : List String

/-- The operators are those of the generated sections, and they are the ones that are needed. The
structs open with one line for each type, in order, and the definitions of operators have one
signature for each. -/
structure Operators.Exact (o : Operators) (m : Model) (config : Config) (g : Generated) : Prop where
  nodup_types : o.types.Nodup
  mem_types : ∀ t, t ∈ o.types ↔ m.Emits config t
  constructors_ne_nil : ∀ t ∈ o.types, t.constructors ≠ []
  after_held : ∀ t ∈ o.types, ∀ u ∈ o.types, t.Holds u → o.types.idxOf u < o.types.idxOf t
  structs : g .types = (Emit.structsCode config.sources o.types).text
  structHeads : (Emit.structsCode config.sources o.types).filter CodeLine.opensStruct =
    o.types.map Emit.structHead
  readDeclarations : g .readDeclarations =
    Code.text (o.types.flatMap (Emit.streamDeclaration .read))
  readDefinitions : g .readDefinitions =
    Code.text (Code.blocks (o.types.map (Emit.streamDefinition .read)))
  readHeads : (Code.blocks (o.types.map (Emit.streamDefinition .read))).filter
    CodeLine.isSignature = o.types.map (Emit.operatorHead .read)
  debugDeclarations : g .debugDeclarations = Code.text (o.types.flatMap Emit.printerDeclaration)
  debugDefinitions : g .debugDefinitions =
    Code.text (Code.blocks (o.types.map Emit.printerDefinition))
  debugHeads : (Code.blocks (o.types.map Emit.printerDefinition)).filter CodeLine.isSignature =
    o.types.map Emit.printerHead
  written_sublist : o.written.Sublist o.types
  mem_written : ∀ t ∈ o.types, t ∈ o.written ↔ m.IsWritten config (.plain t.name)
  writeDeclarations : g .writeDeclarations =
    Code.text (o.written.flatMap (Emit.streamDeclaration .write))
  writeDefinitions : g .writeDefinitions =
    Code.text (Code.blocks (o.written.map (Emit.streamDefinition .write)))
  writeHeads : (Code.blocks (o.written.map (Emit.streamDefinition .write))).filter
    CodeLine.isSignature = o.written.map (Emit.operatorHead .write)
  nodup_readInstances : o.readInstances.Nodup
  mem_readInstances : ∀ line, line ∈ o.readInstances ↔ ∃ item,
    m.IsRead config (.vector item) ∧ line = Emit.instanceLine .read (TargetType.vector item).text
  readInstances_eq : g .readInstances = Code.text (o.readInstances.flatMap Code.line)
  nodup_writeInstances : o.writeInstances.Nodup
  mem_writeInstances : ∀ line, line ∈ o.writeInstances ↔ ∃ item,
    m.IsWritten config (.vector item) ∧
      line = Emit.instanceLine .write (TargetType.vector item).text
  writeInstances_eq : g .writeInstances = Code.text (o.writeInstances.flatMap Code.line)

/-- The generated operators are closed and minimal, whatever the target files hold already. -/
theorem Model.Derived.exists_operators {m : Model} {ds : List Definition} (hm : m.Derived ds)
    {config : Config} {prior : Prior} {g : Generated} (hg : generate m config prior = .ok g) :
    ∃ o : Operators, o.Exact m config g := by
  obtain ⟨selection, hselect, rfl⟩ := map_eq_ok.mp hg
  have hnames := hm.nodup_type_names
  have h := Model.selected_of_select hselect
  have hlines : ∀ {met : TargetType → Prop} {vectors : List TargetType} (d : Direction)
      (prior : Option String),
      (∀ {type}, type ∈ vectors ↔ (∃ item, type = .vector item) ∧ met type) →
      ∀ line, line ∈ Emit.instanceLines d prior vectors ↔
        ∃ item, met (.vector item) ∧ line = Emit.instanceLine d (TargetType.vector item).text := by
    intro met vectors d prior hvectors line
    simp only [Emit.mem_instanceLines, hvectors]
    constructor
    · rintro ⟨-, ⟨⟨item, rfl⟩, hmet⟩, hline⟩
      exact ⟨item, hmet, hline⟩
    · rintro ⟨item, hmet, hline⟩
      exact ⟨_, ⟨⟨item, rfl⟩, hmet⟩, hline⟩
  refine ⟨⟨selection.types, selection.writtenTypes,
    Emit.instanceLines .read (prior.content? .readInstances) selection.read.vectors,
    Emit.instanceLines .write (prior.content? .writeInstances) selection.written.vectors⟩, ?_⟩
  exact {
    nodup_types := (h.pairwise_types hnames).imp And.left
    mem_types := fun t => h.mem_types hnames
    constructors_ne_nil := fun t ht => hm.constructors_ne_nil t ((h.mem_types hnames).mp ht).mem
    after_held := fun t ht u hu => h.idxOf_lt hnames ht hu
    structs := rfl
    structHeads := Emit.filter_structsCode config.sources fun t ht =>
      hm.constructors_ne_nil t ((h.mem_types hnames).mp ht).mem
    readDeclarations := rfl
    readDefinitions := rfl
    readHeads := Emit.filter_streamDefinitions .read _
    debugDeclarations := rfl
    debugDefinitions := rfl
    debugHeads := Emit.filter_printerDefinitions _
    written_sublist := List.filter_sublist
    mem_written := fun t ht => by
      rw [h.mem_writtenTypes hnames]
      exact and_iff_right ((h.mem_types hnames).mp ht)
    writeDeclarations := rfl
    writeDefinitions := rfl
    writeHeads := Emit.filter_streamDefinitions .write _
    nodup_readInstances := Emit.nodup_mergeLines _ _
    mem_readInstances := hlines _ _ (h.mem_read_vectors hnames)
    readInstances_eq := rfl
    nodup_writeInstances := Emit.nodup_mergeLines _ _
    mem_writeInstances := hlines _ _ (h.mem_written_vectors hnames)
    writeInstances_eq := rfl }

/-- Points in vectors of vectors, and a method that takes them and returns a leaf. -/
def sketchText : String :=
  "point#1 x:int = Point;\nline#2 ends:Vector<Vector<Point>> = Line;\nleaf#3 = Leaf;\n" ++
    "---functions---\nauth.draw#4 line:Line = Leaf;"

def sketch : Model := buildModel {} (definitionsOf sketchText)

/-- A prior content with an instantiation that is not needed any more. -/
def outdated : Prior :=
  Prior.empty.insert .writeInstances (Emit.instanceLine .write "TLVector<TLLeaf>" ++ "\n")

/-- The inner vectors of the sketch are instantiated, and no vector of leaves is, though one was in
the file. -/
theorem exists_operators_sketch : ∃ g, generate sketch {} outdated = .ok g ∧
    ∃ o : Operators, o.Exact sketch {} g ∧
      Emit.instanceLine .write "TLVector<TLPoint>" ∈ o.writeInstances ∧
      Emit.instanceLine .write "TLVector<TLLeaf>" ∉ o.writeInstances := by
  let points := TargetType.vector (.plain "TLPoint")
  let seen := [.plain "TLLine", .vector points, points, .plain "TLPoint", .plain "quint32"]
  have hrun : (sketch.select {}).isOk ∧
      (∃ method ∈ sketch.methods, ({} : Config).allows method ∧
        ∃ f ∈ wireFields method.fields, f.type = .plain "TLLine") ∧
      (∃ t ∈ sketch.types, t.name = "TLLine" ∧ t.isBuiltin = false ∧
        t.name ∉ ({} : Config).withheldNames ∧ ∃ f ∈ wireFields t.fields, f.type = .vector points) ∧
      (∀ method ∈ sketch.methods, ∀ f ∈ wireFields method.fields, f.type ∈ seen) ∧
      ∀ t ∈ sketch.types, .plain t.name ∈ seen → ∀ f ∈ wireFields t.fields, f.type ∈ seen := by
    decide +kernel
  obtain ⟨hselect, ⟨method, hmethod, hallows, f, hf, hline⟩, ⟨t, ht, hname, hbuiltin, hwithheld,
    e, he, hends⟩, harguments, hfields⟩ := hrun
  have hm : Model.Derived (definitionsOf sketchText) sketch := Model.derived_buildModel {} _
  obtain ⟨selection, hselection⟩ := exists_of_isOk hselect
  have hg : generate sketch {} outdated = .ok (selection.render sketch {} outdated) :=
    map_eq_ok.mpr ⟨selection, hselection, rfl⟩
  obtain ⟨o, ho⟩ := hm.exists_operators hg
  refine ⟨_, hg, o, ho, (ho.mem_writeInstances _).mpr ⟨.plain "TLPoint", ?_, rfl⟩, fun hleaf => ?_⟩
  · have hmet : sketch.IsWritten {} (.plain "TLLine") :=
      .root ⟨method, hmethod, hallows, f, hf, hline⟩
    have hentered := hmet.field ht ⟨by rw [hname], hbuiltin, hwithheld⟩ he
    rw [hends] at hentered
    exact hentered.item
  · obtain ⟨item, hmet, hline⟩ := (ho.mem_writeInstances _).mp hleaf
    have hseen : .vector item ∈ seen := by
      refine hmet.mem ?_ ?_ (by simp [seen, points]) fun t ht hmem _ => hfields t ht hmem
      · rintro _ ⟨method, hmethod, -, f, hf, rfl⟩
        exact harguments method hmethod f hf
      · rintro item hitem
        simp only [seen, points, List.mem_cons, reduceCtorEq, TargetType.vector.injEq,
          List.not_mem_nil, false_or, or_false] at hitem
        rcases hitem with rfl | rfl <;> simp [seen, points]
    have hitem : item = points ∨ item = .plain "TLPoint" := by simpa [seen, points] using hseen
    rcases hitem with rfl | rfl <;> revert hline <;> decide

/-- A type named like a built-in one, and one named like a vector. -/
def namesakesText : String :=
  "foo#1 = Foo;\nbox#2 x:Foo = Bool;\na#5 v:Vector<int> = A;\nrow#4 y:Foo = Vector<int>;\n" ++
    "---functions---\nauth.f#3 b:Bool v:Vector<int> = Foo;"

def namesakes : Model := buildModel {} (definitionsOf namesakesText)

/-- A method with code has arguments of a built-in type and of a vector only, so that no operator
writes any of the namesakes. -/
theorem writtenTypes_namesakes {selection : Selection} (h : namesakes.Selected {} selection) :
    selection.writtenTypes = [] := by
  let numbers := TargetType.vector (.plain "quint32")
  let seen := [.plain "bool", numbers, .plain "quint32"]
  have hrun : (∀ method ∈ namesakes.methods, ∀ f ∈ wireFields method.fields, f.type ∈ seen) ∧
      ∀ t ∈ namesakes.types, .plain t.name ∈ seen → t.isBuiltin := by
    decide +kernel
  obtain ⟨harguments, hbuiltin⟩ := hrun
  have hm : Model.Derived (definitionsOf namesakesText) namesakes := Model.derived_buildModel {} _
  refine List.eq_nil_iff_forall_not_mem.mpr fun t ht => ?_
  obtain ⟨⟨ht, hnew, -⟩, hmet⟩ := (h.mem_writtenTypes hm.nodup_type_names).mp ht
  have hseen : .plain t.name ∈ seen := by
    refine hmet.mem ?_ (by simp [seen, numbers]) (by simp [seen, numbers]) ?_
    · rintro _ ⟨method, hmethod, -, f, hf, rfl⟩
      exact harguments method hmethod f hf
    · intro t ht hmem hnew
      simp [hbuiltin t ht hmem] at hnew
  simp [hbuiltin t ht hseen] at hnew

/-- Going into any type of the same spelling that is not withheld, built in or not. -/
def EntersNamesake (type : TargetType) (t : TaggedType) : Prop :=
  type.text = t.name ∧ t.name ∉ ({} : Config).withheldNames

/-- A walk that went into namesakes would find two types to write where there is none, and the
struct of one of them comes after one with a field of its spelling. -/
theorem namesakes_not_written : ∃ selection g, namesakes.select {} = .ok selection ∧
    generate namesakes {} Prior.empty = .ok g ∧ g .writeDeclarations = "" ∧
    g .types = (Emit.structsCode false selection.types).text ∧
    selection.types.map (·.name) = ["TLFoo", "TLA", "TLVector<quint32>"] ∧
    (∃ a, namesakes.Emits {} a ∧ a.name = "TLA" ∧
      ∃ c ∈ a.constructors, ∃ f ∈ c.fields, f.type.text = "TLVector<quint32>") ∧
    ∀ name ∈ ["TLFoo", "TLVector<quint32>"], ∃ t, namesakes.Emits {} t ∧ t.name = name ∧
      ∃ type, type.text = name ∧ namesakes.Met EntersNamesake (namesakes.IsArgument {}) type := by
  have hrun : (namesakes.select {}).isOk ∧
      (∀ selection ∈ (namesakes.select {}).toOption,
        selection.types.map (·.name) = ["TLFoo", "TLA", "TLVector<quint32>"]) ∧
      (∃ method ∈ namesakes.methods, ({} : Config).allows method ∧
        (∃ f ∈ wireFields method.fields, f.type = .plain "bool") ∧
        ∃ f ∈ wireFields method.fields, f.type = .vector (.plain "quint32")) ∧
      (∃ t ∈ namesakes.types, t.name = "bool" ∧
        ∃ f ∈ wireFields t.fields, f.type = .plain "TLFoo") ∧
      ∃ a ∈ namesakes.types, a.name = "TLA" ∧
        ∃ c ∈ a.constructors, ∃ f ∈ c.fields, f.type.text = "TLVector<quint32>" := by
    decide +kernel
  obtain ⟨hselect, hnames, ⟨method, hmethod, hallows, ⟨b, hb, hbool⟩, v, hv, hvector⟩,
    ⟨box, hbox, hboxName, x, hx, hfoo⟩, a, ha, haName, hheld⟩ := hrun
  obtain ⟨selection, hselection⟩ := exists_of_isOk hselect
  have hordered := hnames selection (by rw [hselection]; rfl)
  have hm : Model.Derived (definitionsOf namesakesText) namesakes := Model.derived_buildModel {} _
  have hselected := Model.selected_of_select hselection
  have hemits : ∀ name ∈ ["TLFoo", "TLA", "TLVector<quint32>"],
      ∃ t, namesakes.Emits {} t ∧ t.name = name := by
    intro name hname
    obtain ⟨t, ht, rfl⟩ := List.mem_map.mp (hordered ▸ hname)
    exact ⟨t, (hselected.mem_types hm.nodup_type_names).mp ht, rfl⟩
  refine ⟨selection, _, hselection, map_eq_ok.mpr ⟨selection, hselection, rfl⟩, ?_, rfl, hordered,
    ⟨a, ?_, haName, hheld⟩, ?_⟩
  · simp [Selection.render, writtenTypes_namesakes hselected]
  · obtain ⟨t, ht, hname⟩ := hemits "TLA" (by simp)
    rwa [List.inj_on_of_nodup_map hm.nodup_type_names ha ht.mem (haName.trans hname.symm)]
  · have hmet : ∀ type, namesakes.IsArgument {} type →
        namesakes.Met EntersNamesake (namesakes.IsArgument {}) type := fun _ => .root
    have hboxMet := (hmet _ ⟨method, hmethod, hallows, b, hb, hbool⟩).field hbox
      ⟨hboxName.symm, by rw [hboxName]; decide⟩ hx
    rw [hfoo] at hboxMet
    intro name hname
    obtain rfl | rfl : name = "TLFoo" ∨ name = "TLVector<quint32>" := by simpa using hname
    · obtain ⟨t, ht, htName⟩ := hemits "TLFoo" (by simp)
      exact ⟨t, ht, htName, _, rfl, hboxMet⟩
    · obtain ⟨t, ht, htName⟩ := hemits "TLVector<quint32>" (by simp)
      exact ⟨t, ht, htName, _, rfl, hmet _ ⟨method, hmethod, hallows, v, hv, hvector⟩⟩

end TypeLang
