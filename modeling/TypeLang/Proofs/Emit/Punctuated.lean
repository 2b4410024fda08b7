import TypeLang.Generation.Generated
import TypeLang.Proofs.Model.Unbroken

/-!
# Emitted lines

Every line of emitted code is blank, or a single line that ends with punctuation. This tells
emitted lines from marker lines, whose last word is a name.
-/
namespace TypeLang

/-- The characters that lines of code end with. -/
def punctuation : List Char := [';', ',', ':', '\x7b', '\x7d', ')']

/-- A text on one line that ends with punctuation. -/
structure Punctuated (s : String) : Prop where
  unbroken : Unbroken s
  last : s.toList.getLast?.any fun c => decide (c ∈ punctuation)

theorem punctuated_iff {s : String} : Punctuated s ↔
    Unbroken s ∧ s.toList.getLast?.any fun c => decide (c ∈ punctuation) :=
  ⟨fun h => ⟨h.unbroken, h.last⟩, fun h => ⟨h.1, h.2⟩⟩

instance (s : String) : Decidable (Punctuated s) := decidable_of_iff _ punctuated_iff.symm

/-- What stands in front of the punctuation does not matter. -/
@[simp] theorem punctuated_append {s t : String} (ht : Punctuated t) :
    Punctuated (s ++ t) ↔ Unbroken s := by
  refine ⟨fun h => (unbroken_append.mp h.unbroken).1, fun hs => ⟨?_, ?_⟩⟩
  · exact unbroken_append.mpr ⟨hs, ht.unbroken⟩
  · have hlast := ht.last
    rw [String.toList_append, List.getLast?_append]
    cases ht' : t.toList.getLast? with
    | none => simp [ht'] at hlast
    | some c => simpa [ht'] using hlast

/-- Every line of a piece of code is blank or ends with punctuation. -/
def Code.IsPunctuated (code : Code) : Prop :=
  ∀ depth text, .code depth text ∈ code → Punctuated text

namespace Code

variable {code more : Code} {text : String}

@[simp] theorem punctuated_nil : IsPunctuated [] := by simp [IsPunctuated]

@[simp] theorem punctuated_append :
    IsPunctuated (code ++ more) ↔ code.IsPunctuated ∧ more.IsPunctuated := by
  simp only [IsPunctuated, List.mem_append, or_imp, forall_and]

@[simp] theorem punctuated_line : (line text).IsPunctuated ↔ Punctuated text := by
  simp [IsPunctuated, line]

@[simp] theorem punctuated_blank : blank.IsPunctuated := by simp [IsPunctuated, blank]

@[simp] theorem punctuated_nest : (nest code).IsPunctuated ↔ code.IsPunctuated := by
  simp only [IsPunctuated, nest, List.mem_map]
  constructor
  · exact fun h depth text hline => h (depth + 1) text ⟨_, hline, rfl⟩
  · rintro h depth text ⟨_ | ⟨d, t⟩, hline, heq⟩
    · cases heq
    · cases heq
      exact h d text hline

@[simp] theorem punctuated_flatMap {α : Type} {f : α → Code} {as : List α} :
    IsPunctuated (as.flatMap f) ↔ ∀ a ∈ as, (f a).IsPunctuated := by
  simp only [IsPunctuated, List.mem_flatMap]
  constructor
  · exact fun h a ha depth text hline => h depth text ⟨a, ha, hline⟩
  · rintro h depth text ⟨a, ha, hline⟩
    exact h a ha depth text hline

/-- Only blank lines stand between blocks. -/
theorem mem_blocks {bs : List Code} {line : CodeLine} (h : line ∈ blocks bs) :
    line = .blank ∨ ∃ b ∈ bs, line ∈ b := by
  have hintercalate : ∀ bs : List Code, line ∈ [.blank].intercalate bs →
      line = .blank ∨ ∃ b ∈ bs, line ∈ b := by
    intro bs
    induction bs with
    | nil => simp [List.intercalate]
    | cons b bs ih =>
      cases bs with
      | nil => simpa [List.intercalate] using Or.inr
      | cons c bs =>
        rw [List.intercalate_cons_cons, List.mem_append, List.mem_append, List.mem_singleton]
        rintro ((hline | hline) | hline)
        · exact .inr ⟨b, List.mem_cons_self, hline⟩
        · exact .inl hline
        · exact (ih hline).imp_right fun ⟨d, hd, hmem⟩ => ⟨d, List.mem_cons_of_mem _ hd, hmem⟩
  exact (hintercalate _ h).imp_right fun ⟨b, hb, hline⟩ => ⟨b, List.mem_of_mem_filter hb, hline⟩

theorem punctuated_blocks {bs : List Code} (h : ∀ b ∈ bs, b.IsPunctuated) :
    (blocks bs).IsPunctuated := by
  intro depth text hline
  rcases mem_blocks hline with hblank | ⟨b, hb, hline⟩
  · cases hblank
  · exact h b hb depth text hline

@[simp] theorem punctuated_braced {head trailer : String} :
    (braced head code trailer).IsPunctuated ↔
      Unbroken head ∧ code.IsPunctuated ∧ Punctuated ("\x7d" ++ trailer) := by
  simp +decide [braced]

@[simp] theorem punctuated_function {signature : String} :
    (function signature code).IsPunctuated ↔ Punctuated signature ∧ code.IsPunctuated := by
  simp +decide [function]

@[simp] theorem punctuated_arm {label : String} :
    (arm label code).IsPunctuated ↔ Punctuated label ∧ code.IsPunctuated := by
  simp [arm]

@[simp] theorem punctuated_switch {scrutinee : String} :
    (switch scrutinee code more).IsPunctuated ↔
      Unbroken scrutinee ∧ code.IsPunctuated ∧ more.IsPunctuated := by
  simp +decide [switch]

theorem unbroken_bit {owner : String} (howner : Unbroken owner) {g : FieldGate}
    (hg : Unbroken g.member) : Unbroken (bit owner g) := by
  simp +decide [bit, howner, hg]

theorem punctuated_gated {owner : String} (howner : Unbroken owner) {gate : Option FieldGate}
    (hgate : ∀ g ∈ gate, Unbroken g.member) (hcode : code.IsPunctuated) :
    (gated owner gate code).IsPunctuated := by
  cases gate with
  | none => exact hcode
  | some g =>
    have hbit := unbroken_bit howner (hgate g rfl)
    simp +decide [gated, hbit, hcode]

theorem punctuated_source {source : Option String} (shown : Bool)
    (h : ∀ text ∈ source, Document.IsStatement text.toList) :
    (Code.source shown source).IsPunctuated := by
  simp only [Code.source]
  split
  · cases source with
    | none => simp
    | some text =>
      have htext := h text rfl
      have hline : Punctuated text :=
        ⟨⟨htext.newline_notMem⟩, by rw [htext.closed]; decide⟩
      simp +decide [hline]
  · exact punctuated_nil

end Code

namespace Emit

variable {t : TaggedType} {method : Method} {f : Field} {tag : String}

/-! ## Operators -/

theorem unbroken_tagConstant (h : Unbroken tag) : Unbroken (tagConstant tag) := by
  simp +decide [tagConstant, h]

theorem punctuated_caseLabel (h : Unbroken tag) : Punctuated (caseLabel tag) := by
  simp +decide [caseLabel, unbroken_tagConstant h]

theorem punctuated_tagSwitch {scrutinee : String} (hscrutinee : Unbroken scrutinee)
    {cases : List (String × Code)} (htags : ∀ entry ∈ cases, Unbroken entry.1)
    (hcodes : ∀ entry ∈ cases, entry.2.IsPunctuated) :
    (tagSwitch scrutinee cases).IsPunctuated := by
  simp only [tagSwitch]
  split
  · exact Code.punctuated_nil
  · simp +decide only [Code.punctuated_switch, Code.punctuated_flatMap, Code.punctuated_arm,
      Code.punctuated_append, Code.punctuated_line, hscrutinee, true_and, and_true]
    exact fun entry he => ⟨punctuated_caseLabel (htags entry he), hcodes entry he⟩

theorem unbroken_argument (d : Direction) {type name : String} (htype : Unbroken type)
    (hname : Unbroken name) : Unbroken (d.argument type name) := by
  cases d <;> simp +decide [Direction.argument, htype, hname]

theorem unbroken_operator (d : Direction) : Unbroken d.operator := by cases d <;> decide

theorem punctuated_transfers {stream operator owner : String} (hstream : Unbroken stream)
    (hoperator : Unbroken operator) (howner : Unbroken owner) {fields : List Field}
    (hfields : ∀ f ∈ fields, f.IsUnbroken) :
    Code.IsPunctuated ((Transfer.ofFields fields).flatMap
      (Transfer.code stream operator owner)) := by
  simp only [Code.punctuated_flatMap, Transfer.ofFields, wireFields, List.mem_map, List.mem_filter]
  rintro _ ⟨f, ⟨hf, -⟩, rfl⟩
  have hfield := hfields f hf
  refine Code.punctuated_gated howner hfield.gate ?_
  simp +decide [Transfer.ofField, hstream, hoperator, howner, hfield.name]

theorem punctuated_streamDeclaration (d : Direction) (h : t.IsUnbroken) :
    (streamDeclaration d t).IsPunctuated := by
  have hvariable := TargetType.unbroken_valueVariable h.name
  simp +decide [streamDeclaration, unbroken_operator, unbroken_argument d h.name hvariable]

/-- The definition of an operator is punctuated when its type is on one line. -/
theorem punctuated_streamDefinition (d : Direction) (h : t.IsUnbroken) :
    (streamDefinition d t).IsPunctuated := by
  have hvariable := TargetType.unbroken_valueVariable h.name
  have hargument := unbroken_argument d h.name hvariable
  have hoperator := unbroken_operator d
  have hcases : ∀ owner : String, Unbroken owner →
      (tagSwitch (owner ++ "tlType") ((transferCases t).map fun entry =>
        (entry.tag, entry.transfers.flatMap
          (Transfer.code "*this" d.operator owner)))).IsPunctuated := by
    intro owner howner
    have hentries : ∀ entry ∈ transferCases t, ∃ c ∈ t.constructors,
        entry = ⟨c.tag, Transfer.ofFields c.fields⟩ := by
      intro entry hentry
      obtain ⟨c, hc, rfl⟩ := List.mem_map.mp (List.mem_of_mem_filter hentry)
      exact ⟨c, hc, rfl⟩
    apply punctuated_tagSwitch
    · simp +decide [howner]
    · simp only [List.mem_map]
      rintro _ ⟨entry, hentry, rfl⟩
      obtain ⟨c, hc, rfl⟩ := hentries entry hentry
      exact Naming.unbroken_tag (h.constructors c hc).name
    · simp only [List.mem_map]
      rintro _ ⟨entry, hentry, rfl⟩
      obtain ⟨c, hc, rfl⟩ := hentries entry hentry
      exact punctuated_transfers (by decide) hoperator howner (h.constructors c hc).fields
  cases d
  · have hswitch := hcases "result." (by decide)
    simp only [streamDefinition]
    split
    · simp +decide [h.name, hvariable, hargument]
    · simpa +decide [h.name, hvariable, hargument] using hswitch
  · have hswitch := hcases (TargetType.valueVariable t.name ++ ".") (by simp +decide [hvariable])
    simp only [streamDefinition]
    split <;> simp +decide [hvariable, hargument, hswitch]

/-! ## Structs -/

theorem punctuated_forwardDeclarations {types : List TaggedType}
    (h : ∀ t ∈ types, t.IsUnbroken) : (forwardDeclarations types).IsPunctuated := by
  simp only [forwardDeclarations, Code.punctuated_flatMap, List.mem_mergeSort, mem_distinct,
    List.mem_map, List.mem_filter, List.mem_flatMap, TaggedType.fields]
  rintro target ⟨f, ⟨⟨t, ht, c, hc, hf⟩, -⟩, rfl⟩
  have hbase := (((h t ht).constructors c hc).fields f hf).type
  simp +decide [hbase]

theorem unbroken_members (h : t.IsUnbroken) : ∀ f ∈ t.members, f.IsUnbroken := by
  intro f hf
  have hmem := List.mem_of_mem_filter ((distinctBy_sublist _ _).subset hf)
  obtain ⟨c, hc, hf⟩ := List.mem_flatMap.mp hmem
  exact (h.constructors c hc).fields f hf

theorem punctuated_constructorCode (h : t.IsUnbroken) {first : Constructor}
    (hfirst : first ∈ t.constructors) : (constructorCode t first).IsPunctuated := by
  have htag := unbroken_tagConstant (Naming.unbroken_tag (h.constructors first hfirst).name)
  have hzeros : Code.IsPunctuated (t.members.flatMap fun f =>
      f.type.zero?.toList.flatMap fun zero => Code.line (f.name ++ "(" ++ zero ++ "),")) := by
    simp only [Code.punctuated_flatMap, Option.mem_toList]
    intro f hf zero hzero
    have hname := (unbroken_members h f hf).name
    simp +decide [hname, TargetType.unbroken_zero? hzero]
  simp +decide only [constructorCode, Code.punctuated_append, Code.punctuated_nest,
    Code.punctuated_line, hzeros]
  simp +decide [h.name, Constructor.tag, htag]

theorem punctuated_predicateCode (h : t.IsUnbroken) : (predicateCode t).IsPunctuated := by
  have hlabels : ∀ c ∈ t.constructors, Punctuated (caseLabel c.tag) := fun c hc =>
    punctuated_caseLabel (Naming.unbroken_tag (h.constructors c hc).name)
  simp +decide [predicateCode]
  exact hlabels

/-- The marks of a type are those of its constructors. -/
theorem mem_marks {mark : String × String × FieldGate} : mark ∈ t.marks ↔
    ∃ c ∈ t.constructors, ∃ f ∈ c.fields, f.isMark = true ∧ f.gate = some mark.2.2 ∧
      mark.1 = f.name ∧ mark.2.1 = c.tag := by
  rcases mark with ⟨name, tag, gate⟩
  simp only [TaggedType.marks, List.mem_flatMap, List.mem_filterMap]
  refine exists_congr fun c => and_congr_right fun _ => exists_congr fun f =>
    and_congr_right fun _ => ?_
  split
  · next hmark => simp [hmark, eq_comm, and_left_comm, and_comm]
  · next hmark => simp [hmark]

theorem punctuated_accessor {a : Accessor} (hname : Unbroken a.name)
    (hgates : ∀ entry ∈ a.gates, Unbroken entry.1 ∧ Unbroken entry.2.member) :
    a.code.IsPunctuated := by
  have hbit : ∀ entry ∈ a.gates, Unbroken (Code.bit "" entry.2) := fun entry hentry =>
    Code.unbroken_bit (by decide) (hgates entry hentry).2
  simp only [Accessor.code, Accessor.body]
  split
  · next always gate hbody =>
    -- The gate of an accessor that looks at no tag is that of its first declaration.
    have hgate : Unbroken (Code.bit "" gate) := by
      split at hbody
      · cases hbody
      · next tag first rest hentries =>
        split at hbody
        · cases hbody
          exact hbit (tag, gate) (by simp [hentries])
        · cases hbody
    simp +decide [hname, hgate]
  · next gates hbody =>
    have hsubset : gates ⊆ a.gates := by
      split at hbody
      · cases hbody
        exact List.nil_subset _
      · split at hbody
        · cases hbody
        · cases hbody
          exact List.Subset.refl _
    simp +decide only [Code.punctuated_braced, Code.punctuated_switch, Code.punctuated_flatMap,
      Code.punctuated_arm, Code.punctuated_line, and_true, true_and]
    refine ⟨by simp +decide [hname], fun entry hentry => ?_⟩
    have hmem := hsubset hentry
    exact ⟨punctuated_caseLabel (hgates entry hmem).1, by simp +decide [hbit entry hmem]⟩

theorem punctuated_accessors (h : t.IsUnbroken) {a : Accessor} (ha : a ∈ t.accessors) :
    a.code.IsPunctuated := by
  simp only [TaggedType.accessors, List.mem_map, mem_distinct] at ha
  obtain ⟨name, ⟨mark, hmark, rfl⟩, rfl⟩ := ha
  have hunbroken : ∀ mark ∈ t.marks,
      Unbroken mark.1 ∧ Unbroken mark.2.1 ∧ Unbroken mark.2.2.member := by
    intro mark hmark
    obtain ⟨c, hc, f, hf, -, hgate, hname, htag⟩ := mem_marks.mp hmark
    have hconstructor := h.constructors c hc
    rw [hname, htag]
    exact ⟨(hconstructor.fields f hf).name, Naming.unbroken_tag hconstructor.name,
      (hconstructor.fields f hf).gate _ hgate⟩
  apply punctuated_accessor
  · exact (hunbroken mark hmark).1
  · intro entry hentry
    obtain ⟨other, hother, rfl⟩ := List.mem_map.mp hentry
    exact (hunbroken other (List.mem_of_mem_filter hother)).2

/-- The code of a struct is punctuated when its type is on one line. -/
theorem punctuated_structCode (sources : Bool) (h : t.IsUnbroken) :
    (structCode sources t).IsPunctuated := by
  simp only [structCode]
  split
  · exact Code.punctuated_nil
  · next first rest hconstructors =>
    have hmem : first ∈ t.constructors := by simp [hconstructors]
    have hfirst := punctuated_constructorCode h hmem
    have hmembers : ∀ f ∈ t.members, Unbroken f.type.text ∧ Unbroken f.name := fun f hf =>
      ⟨TargetType.unbroken_text.mpr (unbroken_members h f hf).type, (unbroken_members h f hf).name⟩
    simp +decide only [Code.punctuated_append, Code.punctuated_braced, Code.punctuated_flatMap,
      Code.punctuated_blank, Code.punctuated_line, hfirst, punctuated_predicateCode h, and_true,
      true_and]
    refine ⟨fun c hc => Code.punctuated_source _ (h.constructors c hc).source,
      by simp +decide [h.name], fun a ha => punctuated_accessors h ha, fun f hf => ?_⟩
    simp +decide [hmembers f hf]

theorem punctuated_structsCode (sources : Bool) {types : List TaggedType}
    (h : ∀ t ∈ types, t.IsUnbroken) : (structsCode sources types).IsPunctuated := by
  apply Code.punctuated_blocks
  simp only [List.forall_mem_cons, List.forall_mem_map]
  exact ⟨punctuated_forwardDeclarations h, fun t ht => punctuated_structCode sources (h t ht)⟩

/-! ## Debug output -/

theorem punctuated_printLine {name expression : String} (hname : Unbroken name)
    (hexpression : Unbroken expression) : Punctuated (printLine name expression) := by
  simp +decide [printLine, hname, hexpression]

theorem punctuated_printField (h : f.IsUnbroken) : (printField f).IsPunctuated := by
  simp only [printField]
  split
  · rw [Code.punctuated_line]
    exact punctuated_printLine h.name (by simp +decide [h.name])
  · refine Code.punctuated_gated (by decide) h.gate ?_
    rw [Code.punctuated_line]
    exact punctuated_printLine h.name (by simp +decide [h.name])

theorem punctuated_printerDeclaration (h : t.IsUnbroken) :
    (printerDeclaration t).IsPunctuated := by
  simp +decide [printerDeclaration, h.name]

/-- The definition of a printer is punctuated when its type is on one line. -/
theorem punctuated_printerDefinition (h : t.IsUnbroken) :
    (printerDefinition t).IsPunctuated := by
  have hswitch : (tagSwitch "type.tlType" ((t.constructors.filter fun c => !c.fields.isEmpty).map
      fun c => (c.tag, c.fields.flatMap printField))).IsPunctuated := by
    apply punctuated_tagSwitch (by decide)
    · simp only [List.forall_mem_map]
      exact fun c hc =>
        Naming.unbroken_tag (h.constructors c (List.mem_of_mem_filter hc)).name
    · simp only [List.forall_mem_map, Code.punctuated_flatMap]
      exact fun c hc f hf =>
        punctuated_printField ((h.constructors c (List.mem_of_mem_filter hc)).fields f hf)
  simp only [printerDefinition, Code.punctuated_function, Code.punctuated_append, hswitch]
  simp +decide [h.name]

theorem punctuated_dumpField (h : f.IsUnbroken) : (dumpField f).IsPunctuated := by
  simp only [dumpField]
  split
  · simp only [Code.punctuated_flatMap, Option.mem_toList, Code.punctuated_line]
    intro g hg
    have hempty : Unbroken "" := by decide
    have hbit := Code.unbroken_bit hempty (h.gate g hg)
    exact punctuated_printLine h.name (by simp +decide [hbit])
  · have hprint := punctuated_printLine h.name h.name
    have htype := TargetType.unbroken_text.mpr h.type
    have hgated : (Code.gated "" f.gate (Code.line ("stream >> " ++ f.name ++ ";") ++
        Code.line (printLine f.name f.name))).IsPunctuated := by
      refine Code.punctuated_gated (by decide) h.gate ?_
      simp +decide [h.name, hprint]
    simp +decide only [Code.punctuated_append, Code.punctuated_line, hgated, and_true]
    simp +decide [htype, h.name]

theorem punctuated_dumpCase (h : method.IsUnbroken) : (dumpCase method).IsPunctuated := by
  have htag := Naming.unbroken_tag h.name
  have hlabel := (punctuated_caseLabel htag).unbroken
  have hfields : Code.IsPunctuated (method.fields.flatMap dumpField) := by
    rw [Code.punctuated_flatMap]
    exact fun f hf => punctuated_dumpField (h.fields f hf)
  simp only [dumpCase, Code.punctuated_braced, Code.punctuated_append, hfields]
  simp +decide [Method.tag, htag, hlabel]

/-! ## Requests and handlers -/

theorem unbroken_argumentList (h : method.IsUnbroken) : Unbroken (argumentList method) := by
  apply unbroken_intercalate (by decide)
  simp only [wireFields, List.forall_mem_map]
  intro f hf
  have hfield := h.fields f (List.mem_of_mem_filter hf)
  exact TargetType.unbroken_argumentText hfield.type hfield.name

theorem punctuated_stubDeclaration (h : method.IsUnbroken) :
    (stubDeclaration method).IsPunctuated := by
  simp +decide [stubDeclaration, h.name, unbroken_argumentList h]

/-- The definition of a request is punctuated when its method is on one line. -/
theorem punctuated_stubDefinition (sources : Bool) {sender : String} (hsender : Unbroken sender)
    (h : method.IsUnbroken) : (stubDefinition sources sender method).IsPunctuated := by
  have htag := unbroken_tagConstant (Naming.unbroken_tag h.name)
  have hliterals : Unbroken "outputStream" ∧ Unbroken "<<" ∧ Unbroken "" := by decide
  have htransfers := punctuated_transfers hliterals.1 hliterals.2.1 hliterals.2.2 h.fields
  have hsource := Code.punctuated_source sources h.source
  simp only [stubDefinition, Code.punctuated_append, Code.punctuated_function, htransfers, hsource]
  simp +decide [h.name, unbroken_argumentList h, Method.tag, htag, hsender]

theorem unbroken_handlerSignature (h : Unbroken method.name) :
    Unbroken (handlerSignature method) := by
  have hclass : Unbroken "void CTelegramConnection::" := by decide
  have harguments : Unbroken handlerArguments := by decide
  exact unbroken_append.mpr
    ⟨unbroken_append.mpr ⟨hclass, Naming.unbroken_handler h⟩, harguments⟩

theorem punctuated_handlerStub (h : Unbroken method.result.base) :
    (handlerStub method).IsPunctuated := by
  have hresult := TargetType.unbroken_text.mpr h
  simp +decide [handlerStub, hresult]

theorem punctuated_handlerDeclaration (h : method.IsUnbroken) :
    (handlerDeclaration method).IsPunctuated := by
  simp +decide [handlerDeclaration, handlerArguments, Naming.unbroken_handler h.name]

theorem punctuated_resultCase (h : method.IsUnbroken) : (resultCase method).IsPunctuated := by
  have hlabel := punctuated_caseLabel (Naming.unbroken_tag h.name)
  simp +decide [resultCase, Method.tag, hlabel, Naming.unbroken_handler h.name]

theorem punctuated_updatesCase (h : method.IsUnbroken) : (updatesCase method).IsPunctuated := by
  have hlabel := punctuated_caseLabel (Naming.unbroken_tag h.name)
  simp [updatesCase, Method.tag, hlabel]

/-! ## Constants and instantiations -/

/-- Every constant in a block comes from a group. -/
theorem mem_valueBlocks {seen : List String} {groups : List Group} {block : List GroupEntry}
    {entry : GroupEntry} (hblock : block ∈ valueBlocks seen groups) (hentry : entry ∈ block) :
    ∃ group ∈ groups, entry ∈ group.entries := by
  induction groups generalizing seen with
  | nil => simp [valueBlocks] at hblock
  | cons group rest ih =>
    have hrest : ∀ {seen : List String}, block ∈ valueBlocks seen rest →
        ∃ g ∈ group :: rest, entry ∈ g.entries := by
      intro seen hmem
      obtain ⟨g, hg, he⟩ := ih hmem
      exact ⟨g, List.mem_cons_of_mem _ hg, he⟩
    simp only [valueBlocks] at hblock
    split at hblock
    · exact hrest hblock
    · rcases List.mem_cons.mp hblock with rfl | hblock
      · exact ⟨group, List.mem_cons_self, (distinctFrom_sublist _ _ _).subset hentry⟩
      · exact hrest hblock

/-- The constants of a model are punctuated when it is on one line. -/
theorem punctuated_valuesCode (sources : Bool) {m : Model} (h : m.IsUnbroken) :
    (valuesCode sources m).IsPunctuated := by
  apply Code.punctuated_blocks
  simp only [List.forall_mem_map, Code.punctuated_flatMap]
  intro block hblock entry hentry
  obtain ⟨group, hgroup, hmem⟩ := mem_valueBlocks hblock hentry
  have hunbroken := h.groups group hgroup entry hmem
  simp only [valueCode, Code.punctuated_append, Code.punctuated_source _ hunbroken.source]
  simp +decide [hunbroken.tag]

theorem punctuated_instanceLine (d : Direction) {vector : String} (h : Unbroken vector) :
    Punctuated (instanceLine d vector) := by
  have hopen : Unbroken "template CTelegramStream &CTelegramStream::operator" := by decide
  have hbracket : Unbroken "(" := by decide
  have hvariable : Unbroken "v" := by decide
  have hend : Punctuated ");" := by decide
  have hhead := unbroken_append.mpr ⟨hopen, unbroken_operator d⟩
  have hargument := unbroken_argument d h hvariable
  exact (punctuated_append hend).mpr
    (unbroken_append.mpr ⟨unbroken_append.mpr ⟨hhead, hbracket⟩, hargument⟩)

theorem mem_mergeLines {prior wanted : List String} {line : String} :
    line ∈ mergeLines prior wanted ↔ line ∈ wanted := by
  simp only [mergeLines, List.mem_append, mem_distinct, List.mem_filter, decide_eq_true_eq]
  by_cases hprior : line ∈ prior
  · simp [hprior]
  · simp [hprior]

/-- Instantiations are punctuated when their vectors are on one line. -/
theorem punctuated_instancesCode (d : Direction) (prior : Option String)
    {vectors : List TargetType} (h : ∀ vector ∈ vectors, Unbroken vector.base) :
    (instancesCode d prior vectors).IsPunctuated := by
  simp only [instancesCode, Code.punctuated_flatMap, Code.punctuated_line]
  intro line hline
  have hwanted := mem_mergeLines.mp hline
  simp only [List.mem_map, List.mem_mergeSort] at hwanted
  obtain ⟨_, ⟨vector, hvector, rfl⟩, rfl⟩ := hwanted
  exact punctuated_instanceLine d (TargetType.unbroken_text.mpr (h vector hvector))

end Emit

end TypeLang
