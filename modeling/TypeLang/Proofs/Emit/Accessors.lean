import TypeLang.Proofs.Emit.Constants
import TypeLang.Proofs.Emit.Declarations
import TypeLang.Proofs.Model.Gates

/-!
# What accessors tell

The truth value that the accessor of a mark returns, read off its lines: for the tag of a value and
the flags words in it. With a switch over the tag it tells whether the constructor of the tag
declares the mark and has the bit of its gate set. Where all declarations of the mark have one gate
there is no switch, and the accessor tells the bit of that gate for every tag, also for one whose
constructor uses the bit for something else.
-/
namespace TypeLang

open Text

namespace Emit

/-! ## Evaluation -/

/-- What an expression for a bit ends with, behind the flags word. -/
def bitEnd (bit : Fin 32) : List Char := " & 1 << ".toList ++ Nat.toDigits 10 bit.val

/-- The truth value of an expression: of `false`, or of the bit of a gate. -/
def truth? (words : String → UInt32) (expression : List Char) : Option Bool :=
  if expression = "false".toList then some false
  else (List.finRange 32).findSome? fun bit =>
    (dropEnd? (bitEnd bit) expression).map fun member =>
      FieldGate.isSet words ⟨String.ofList member, bit⟩

/-- The truth value that a statement returns. -/
def returned? (words : String → UInt32) (statement : List Char) : Option Bool :=
  (dropStart? "return ".toList statement).bind fun cs => (dropLast? ';' cs).bind (truth? words)

/-- The truth value that a switch returns behind the label of a tag, or behind `default` where the
tag has no label. Two labels may not be the same. -/
def switched? (words : String → UInt32) (tag : String) (lines : List String) : Option Bool :=
  if (lines.filter fun line => decide (IsLabel line)).Nodup then
    (arm (if caseLabel tag ∈ lines then caseLabel tag else "default:") lines).head?.bind
      fun line => returned? words line.toList
  else none

/-- The truth value that the lines of a member function return, for a value with a tag and with
these flags words. -/
def told? (name tag : String) (words : String → UInt32) : List String → Option Bool
  | [] => none
  | [line] =>
    (dropStart? ("bool " ++ name ++ "() const \x7b ").toList line.toList).bind fun cs =>
      (dropEnd? " \x7d".toList cs).bind (returned? words)
  | head :: scrutinee :: lines =>
    if head = "bool " ++ name ++ "() const \x7b" ∧ scrutinee = "switch (tlType) \x7b" then
      switched? words tag lines
    else none

/-! ## Statements that were emitted -/

def returnLine (g : FieldGate) : String := "return " ++ Code.bit "" g ++ ";"

theorem eq_of_bitEnd_suffix {i j : Fin 32} (h : bitEnd i <:+ bitEnd j) : i = j := by
  revert i j
  decide +kernel

/-- The text of a bit is true when the bit is set. -/
theorem truth?_bit (words : String → UInt32) (g : FieldGate) :
    truth? words (Code.bit "" g).toList = some (g.isSet words) := by
  have hbit : (Code.bit "" g).toList = g.member.toList ++ bitEnd g.bit := toList_bit "" g
  have hne : (Code.bit "" g).toList ≠ "false".toList := by
    intro h
    have hshift : '<' ∈ " & 1 << ".toList := by decide
    have hmem : '<' ∈ (Code.bit "" g).toList := by
      rw [hbit]
      unfold bitEnd
      simp only [List.mem_append, hshift, true_or, or_true]
    rw [h] at hmem
    exact absurd hmem (by decide)
  have hfound := findSome?_dropEnd? eq_of_bitEnd_suffix
    (fun bit member => FieldGate.isSet words ⟨String.ofList member, bit⟩) g.bit g.member.toList
  rw [truth?, if_neg hne, hbit, hfound, String.ofList_toList]

theorem returned?_returnLine (words : String → UInt32) (g : FieldGate) :
    returned? words (returnLine g).toList = some (g.isSet words) := by
  have hline : (returnLine g).toList = "return ".toList ++ ((Code.bit "" g).toList ++ [';']) := by
    rw [returnLine, String.toList_append, String.toList_append, List.append_assoc]
    rfl
  rw [returned?, hline, dropStart?_append, Option.bind_some, dropLast?_concat, Option.bind_some,
    truth?_bit]

theorem returned?_false (words : String → UInt32) :
    returned? words "return false;".toList = some false := rfl

theorem returnLine_ne {g : FieldGate} {line : String} (h : line.toList.head? ≠ some 'r') :
    returnLine g ≠ line := by
  rintro rfl
  exact h (by simp [returnLine, String.toList_append])

/-! ## Switches -/

/-- The lines of a switch behind its head, with the accessor's closing brace. -/
def switchLines (gates : List (String × FieldGate)) : List String :=
  gates.flatMap (fun entry => [caseLabel entry.1, returnLine entry.2]) ++
    ["default:", "return false;", "\x7d", "\x7d"]

/-- The labels of a switch are the tags of its cases. -/
theorem labels_switchLines (gates : List (String × FieldGate)) :
    (switchLines gates).filter (fun line => decide (IsLabel line)) =
      gates.map fun entry => caseLabel entry.1 := by
  have hend : ["default:", "return false;", "\x7d", "\x7d"].filter
      (fun line => decide (IsLabel line)) = [] := by decide
  rw [switchLines, List.filter_append, hend, List.append_nil]
  induction gates with
  | nil => rfl
  | cons entry gates ih =>
    have hreturn : ¬IsLabel (returnLine entry.2) := by
      simp [IsLabel, returnLine, String.toList_append]
    have hentry : [caseLabel entry.1, returnLine entry.2].filter
        (fun line => decide (IsLabel line)) = [caseLabel entry.1] := by
      simp [isLabel_caseLabel, hreturn]
    rw [List.flatMap_cons, List.filter_append, hentry, ih, List.map_cons, List.singleton_append]

theorem caseLabel_mem_switchLines {gates : List (String × FieldGate)} {tag : String} :
    caseLabel tag ∈ switchLines gates ↔ tag ∈ gates.map (·.1) := by
  have hlabels : caseLabel tag ∈ switchLines gates ↔
      caseLabel tag ∈ gates.map fun entry => caseLabel entry.1 := by
    rw [← labels_switchLines, List.mem_filter, decide_eq_true (isLabel_caseLabel tag)]
    exact (and_iff_left rfl).symm
  rw [hlabels, List.mem_map, List.mem_map]
  exact exists_congr fun entry => and_congr_right fun _ =>
    ⟨fun h => caseLabel_inj h, fun h => congrArg caseLabel h⟩

theorem head?_arm_cons {label line : String} (h : line ≠ "break;") (lines : List String) :
    (arm label (label :: line :: lines)).head? = some line := by
  have hline : (line != "break;") = true := bne_iff_ne.mpr h
  rw [arm, List.dropWhile_cons_of_neg (by simp), List.drop_one, List.tail_cons, List.takeWhile_cons,
    hline]
  rfl

/-- Behind the label of a tag stands the first return that was written for it. -/
theorem head?_arm_caseLabel {gates : List (String × FieldGate)} {tag : String} {g : FieldGate}
    (hnodup : (gates.map (·.1)).Nodup) (hmem : (tag, g) ∈ gates) :
    (arm (caseLabel tag) (switchLines gates)).head? = some (returnLine g) := by
  rw [switchLines]
  generalize ["default:", "return false;", "\x7d", "\x7d"] = back
  induction gates with
  | nil => cases hmem
  | cons entry gates ih =>
    rw [List.map_cons, List.nodup_cons] at hnodup
    rw [List.flatMap_cons, List.append_assoc]
    rcases List.mem_cons.mp hmem with rfl | hmem
    · exact head?_arm_cons (returnLine_ne (by decide)) _
    · have htag : tag ≠ entry.1 := fun heq =>
        hnodup.1 (heq ▸ List.mem_map_of_mem (f := (·.1)) hmem)
      have hlabel : caseLabel tag ≠ caseLabel entry.1 := fun heq => htag (caseLabel_inj heq)
      have hreturn : caseLabel tag ≠ returnLine entry.2 :=
        (returnLine_ne (by simp [caseLabel, tagConstant, String.toList_append])).symm
      rw [arm_append_of_notMem (by simp [hlabel, hreturn])]
      exact ih hnodup.2 hmem

/-- The default arm of a switch is false. -/
theorem head?_arm_default (gates : List (String × FieldGate)) :
    (arm "default:" (switchLines gates)).head? = some "return false;" := by
  rw [switchLines, arm_append_of_notMem]
  · exact head?_arm_cons (by decide) _
  · intro hmem
    obtain ⟨entry, -, hline⟩ := List.mem_flatMap.mp hmem
    simp only [List.mem_cons, List.not_mem_nil, or_false] at hline
    rcases hline with hline | hline
    · exact absurd (hline ▸ isLabel_caseLabel entry.1) (by decide)
    · exact returnLine_ne (by decide) hline.symm

/-- A switch returns the bit of the gate that is written for the tag, and false for other tags. -/
theorem switched?_switchLines {gates : List (String × FieldGate)}
    (hnodup : (gates.map (·.1)).Nodup) (words : String → UInt32) (tag : String) :
    switched? words tag (switchLines gates) =
      some (gates.any fun entry => entry.1 == tag && entry.2.isSet words) := by
  have hlabels : ((switchLines gates).filter fun line => decide (IsLabel line)).Nodup := by
    rw [labels_switchLines, List.Nodup, List.pairwise_map]
    rw [List.Nodup, List.pairwise_map] at hnodup
    exact hnodup.imp fun hne heq => hne (caseLabel_inj heq)
  rw [switched?, if_pos hlabels]
  by_cases htag : tag ∈ gates.map (·.1)
  · obtain ⟨⟨own, g⟩, hmem, rfl⟩ := List.mem_map.mp htag
    have hown : ∀ entry ∈ gates, entry.1 = own → entry = (own, g) := fun entry hentry heq =>
      List.inj_on_of_nodup_map hnodup hentry hmem heq
    rw [if_pos (caseLabel_mem_switchLines.mpr htag), head?_arm_caseLabel hnodup hmem,
      Option.bind_some, returned?_returnLine, Option.some.injEq, Bool.eq_iff_iff, List.any_eq_true]
    constructor
    · exact fun hset => ⟨_, hmem, by simpa using hset⟩
    · rintro ⟨entry, hentry, hset⟩
      rw [Bool.and_eq_true, beq_iff_eq] at hset
      rw [hown entry hentry hset.1] at hset
      exact hset.2
  · rw [if_neg fun hmem => htag (caseLabel_mem_switchLines.mp hmem), head?_arm_default,
      Option.bind_some, returned?_false, Option.some.injEq, eq_comm, List.any_eq_false]
    intro entry hentry hset
    rw [Bool.and_eq_true, beq_iff_eq] at hset
    exact htag (hset.1 ▸ List.mem_map_of_mem hentry)

end Emit

open Emit

/-! ## Accessors -/

namespace Accessor

/-- The accessor with a switch over the tag. -/
def switchCode (a : Accessor) : Code :=
  let arms := a.gates.flatMap fun entry => Code.arm (caseLabel entry.1)
    (Code.line ("return " ++ Code.bit "" entry.2 ++ ";"))
  Code.braced ("bool " ++ a.name ++ "() const")
    (Code.switch "tlType" arms (Code.line "return false;"))

/-- The accessor without one. -/
def plainCode (a : Accessor) (g : FieldGate) : Code :=
  Code.line ("bool " ++ a.name ++ "() const" ++ (" \x7b return " ++ Code.bit "" g ++ "; \x7d"))

variable {a : Accessor} {g : FieldGate}

/-- An accessor with one gate has no switch. -/
theorem code_of_same (hne : a.gates ≠ []) (h : ∀ entry ∈ a.gates, entry.2 = g) :
    a.code = a.plainCode g := by
  obtain ⟨first, rest, hgates⟩ := List.exists_cons_of_ne_nil hne
  rw [hgates, List.forall_mem_cons] at h
  have hall : (rest.all fun entry => entry.2 == first.2) = true := by
    rw [List.all_eq_true]
    exact fun entry hentry => beq_iff_eq.mpr ((h.2 entry hentry).trans h.1.symm)
  have hbody : a.body = .always g := by
    rw [← h.1]
    simp only [body, hgates, hall, if_true]
  simp only [code, hbody, plainCode, String.append_assoc]

theorem code_of_not_same (h : ¬∃ g, ∀ entry ∈ a.gates, entry.2 = g) : a.code = a.switchCode := by
  have hbody : a.body = .byTag a.gates := by
    cases hgates : a.gates with
    | nil => simp only [body, hgates]
    | cons first rest =>
      have hall : ¬(rest.all fun entry => entry.2 == first.2) = true := fun hall =>
        h ⟨first.2, by
          rw [hgates, List.forall_mem_cons]
          exact ⟨rfl, fun entry hentry => beq_iff_eq.mp (List.all_eq_true.mp hall entry hentry)⟩⟩
      simp only [body, hgates, hall]
      rfl
  simp only [code, hbody, switchCode]

/-- An accessor without a switch tells the one gate. -/
theorem told?_plainCode (a : Accessor) (g : FieldGate) (tag : String) (words : String → UInt32) :
    told? a.name tag words (a.plainCode g).statements = some (g.isSet words) := by
  have hline : ("bool " ++ a.name ++ "() const" ++
      (" \x7b return " ++ Code.bit "" g ++ "; \x7d")).toList =
        ("bool " ++ a.name ++ "() const \x7b ").toList ++
          ((returnLine g).toList ++ " \x7d".toList) := by
    simp [returnLine, String.toList_append]
  rw [plainCode, Code.statements_line, told?, hline, dropStart?_append, Option.bind_some,
    dropEnd?_append, Option.bind_some, returned?_returnLine]

/-- An accessor with a switch tells the gate of the constructor that is there. -/
theorem told?_switchCode (hnodup : (a.gates.map (·.1)).Nodup) (tag : String)
    (words : String → UInt32) : told? a.name tag words a.switchCode.statements =
      some (a.gates.any fun entry => entry.1 == tag && entry.2.isSet words) := by
  have hstatements : a.switchCode.statements =
      ("bool " ++ a.name ++ "() const \x7b") :: "switch (tlType) \x7b" :: switchLines a.gates := by
    simp [switchCode, switchLines, returnLine, Code.braced, Code.switch, Code.arm,
      String.append_assoc]
  rw [hstatements, told?, if_pos ⟨rfl, rfl⟩, switched?_switchLines hnodup]

end Accessor

/-! ## Gates of a mark -/

/-- The gates that a constructor declares marks of a name with. -/
def Constructor.gatesOf (c : Constructor) (name : String) : List FieldGate :=
  c.fields.filterMap fun f => if f.isMark && f.name == name then f.gate else none

/-- Whether a constructor declares a mark of this name and has the bit of its gate set. -/
def Constructor.sets (c : Constructor) (name : String) (words : String → UInt32) : Bool :=
  (c.gatesOf name).any fun g => g.isSet words

theorem Constructor.mem_gatesOf {c : Constructor} {name : String} {g : FieldGate} :
    g ∈ c.gatesOf name ↔ ∃ f ∈ c.fields, f.isMark = true ∧ f.name = name ∧ f.gate = some g := by
  simp only [gatesOf, List.mem_filterMap]
  refine exists_congr fun f => and_congr_right fun _ => ?_
  split
  · next h => simp_all
  · next h => simp_all

namespace TaggedType

variable {t : TaggedType} {a : Accessor} {c : Constructor} {g : FieldGate}

/-- The gates of an accessor, constructor by constructor. -/
theorem gates_eq (ha : a ∈ t.accessors) : a.gates =
    t.constructors.flatMap fun c => (c.gatesOf a.name).map fun g => (c.tag, g) := by
  obtain ⟨name, -, rfl⟩ := List.mem_map.mp ha
  simp only [marks, List.filter_flatMap, List.map_flatMap]
  refine List.flatMap_congr fun c _ => ?_
  simp only [Constructor.gatesOf, List.filter_filterMap, List.map_filterMap]
  refine List.filterMap_congr fun f _ => ?_
  cases f.isMark <;> cases f.gate <;> by_cases hname : f.name = name <;> simp [hname]

theorem mem_gates (ha : a ∈ t.accessors) {entry : String × FieldGate} :
    entry ∈ a.gates ↔ ∃ c ∈ t.constructors, c.tag = entry.1 ∧ entry.2 ∈ c.gatesOf a.name := by
  rcases entry with ⟨tag, g⟩
  simp only [gates_eq ha, List.mem_flatMap, List.mem_map, Prod.mk.injEq]
  exact exists_congr fun c => and_congr_right fun _ =>
    ⟨fun ⟨_, hg, htag, heq⟩ => ⟨htag, heq ▸ hg⟩, fun ⟨htag, hg⟩ => ⟨g, hg, htag, rfl⟩⟩

theorem gates_ne_nil (ha : a ∈ t.accessors) : a.gates ≠ [] := by
  obtain ⟨name, hname, rfl⟩ := List.mem_map.mp ha
  obtain ⟨mark, hmark, rfl⟩ := List.mem_map.mp (mem_distinct.mp hname)
  exact List.ne_nil_of_mem (List.mem_map_of_mem (List.mem_filter.mpr ⟨hmark, beq_self_eq_true _⟩))

/-- A tag stands in front of the gates of its constructor. -/
theorem any_gates (ha : a ∈ t.accessors) (htags : (t.constructors.map Constructor.tag).Nodup)
    (hc : c ∈ t.constructors) (words : String → UInt32) :
    (a.gates.any fun entry => entry.1 == c.tag && entry.2.isSet words) = c.sets a.name words := by
  rw [Bool.eq_iff_iff]
  simp only [Constructor.sets, List.any_eq_true, Bool.and_eq_true, beq_iff_eq]
  constructor
  · rintro ⟨entry, hentry, htag, hset⟩
    obtain ⟨b, hb, hown, hgate⟩ := (mem_gates ha).mp hentry
    obtain rfl := List.inj_on_of_nodup_map htags hb hc (hown.trans htag)
    exact ⟨entry.2, hgate, hset⟩
  · rintro ⟨g, hg, hset⟩
    exact ⟨(c.tag, g), (mem_gates ha).mpr ⟨c, hc, rfl, hg⟩, rfl, hset⟩

/-- No tag stands in front of two gates when no constructor declares the mark twice. -/
theorem nodup_tags_gates (ha : a ∈ t.accessors)
    (htags : (t.constructors.map Constructor.tag).Nodup)
    (honce : ∀ b ∈ t.constructors, (b.gatesOf a.name).length ≤ 1) :
    (a.gates.map (·.1)).Nodup := by
  rw [gates_eq ha, List.map_flatMap, List.nodup_flatMap]
  constructor
  · intro b hb
    have hlength := honce b hb
    cases hgates : b.gatesOf a.name with
    | nil => simp
    | cons g rest =>
      rw [hgates, List.length_cons] at hlength
      rw [List.length_eq_zero_iff.mp (by omega : rest.length = 0)]
      simp
  · rw [List.Nodup, List.pairwise_map] at htags
    refine htags.imp fun hne => ?_
    simp only [Function.onFun, List.map_map]
    intro tag hb hc
    obtain ⟨_, -, rfl⟩ := List.mem_map.mp hb
    obtain ⟨_, -, heq⟩ := List.mem_map.mp hc
    exact hne heq.symm

/-! ## In the struct -/

/-- The lines of a declaration stand in the struct. -/
theorem isInfix_structCode {d : Declaration} (h : d ∈ t.declarations)
    (hne : t.constructors ≠ []) (sources : Bool) : Code.nest d.code <:+: structCode sources t := by
  obtain ⟨first, rest, hconstructors⟩ := List.exists_cons_of_ne_nil hne
  obtain ⟨front, back, hsplit⟩ := List.append_of_mem h
  have hinside : d.code <:+: t.declarations.flatMap Declaration.code := by
    rw [hsplit, List.flatMap_append, List.flatMap_cons, ← List.append_assoc]
    exact List.infix_append _ _ _
  have hnested : Code.nest d.code <:+: Code.nest
      (constructorCode t first ++ Code.blank ++ t.declarations.flatMap Declaration.code) :=
    (hinside.trans (List.suffix_append _ _).isInfix).map _
  rw [structCode_eq (by rw [hconstructors, List.head?_cons]) sources, Code.braced]
  exact (hnested.trans (List.infix_append _ _ _)).trans (List.suffix_append _ _).isInfix

/-- The flags words that a type looks at are numbers in its struct. -/
theorem Uniform.word_mem_structCode (h : t.Uniform) (hgated : Field.Gated c.fields)
    (hc : c ∈ t.constructors) {name : String} (hg : g ∈ c.gatesOf name) (sources : Bool) :
    .code 1 ("quint32 " ++ g.member ++ ";") ∈ structCode sources t := by
  obtain ⟨f, hf, -, -, hgate⟩ := Constructor.mem_gatesOf.mp hg
  obtain ⟨word, hword, hisWord, hname⟩ := hgated.exists_word hf hgate
  have hfield : word ∈ t.fields := List.mem_flatMap.mpr ⟨c, hc, hword⟩
  have hvalue : word.isMark = false := Field.isMark_of_isWord hisWord
  obtain ⟨held, hheld, hsame⟩ :=
    List.mem_map.mp (mem_names_members.mpr ⟨word, hfield, hvalue, rfl⟩)
  have htype : held.type = .plain "quint32" := by
    rw [← h.type_eq_of_mem_members hheld hfield hvalue hsame.symm]
    exact hgated.type_of_isWord word hword hisWord
  have hdeclared : held.declaration ∈ t.declarations := by
    simp only [declarations, List.mem_append]
    exact .inl (.inr (List.mem_map_of_mem hheld))
  have hline : .code 1 ("quint32 " ++ g.member ++ ";") ∈ Code.nest held.declaration.code := by
    rw [Field.code_declaration, htype, hsame, hname]
    exact List.mem_singleton_self _
  exact (isInfix_structCode hdeclared (List.ne_nil_of_mem hc) sources).subset hline

/-! ## One gate or several -/

/-- All declarations of a mark have this gate. -/
def HasOneGate (t : TaggedType) (name : String) (g : FieldGate) : Prop :=
  ∀ c ∈ t.constructors, ∀ own ∈ c.gatesOf name, own = g

/-- No constructor declares the mark twice. -/
def DeclaresOnce (t : TaggedType) (name : String) : Prop :=
  ∀ c ∈ t.constructors, (c.gatesOf name).length ≤ 1

instance (t : TaggedType) (name : String) (g : FieldGate) : Decidable (t.HasOneGate name g) :=
  inferInstanceAs (Decidable (∀ c ∈ t.constructors, ∀ own ∈ c.gatesOf name, own = g))

instance (t : TaggedType) (name : String) : Decidable (t.DeclaresOnce name) :=
  inferInstanceAs (Decidable (∀ c ∈ t.constructors, (c.gatesOf name).length ≤ 1))

/-- An accessor has one gate when all marks with its name do. -/
theorem hasOneGate_iff (ha : a ∈ t.accessors) :
    t.HasOneGate a.name g ↔ ∀ entry ∈ a.gates, entry.2 = g := by
  constructor
  · intro h entry hentry
    obtain ⟨c, hc, -, hown⟩ := (mem_gates ha).mp hentry
    exact h c hc entry.2 hown
  · exact fun h c hc own hown => h (c.tag, own) ((mem_gates ha).mpr ⟨c, hc, rfl, hown⟩)

/-- With one gate for all declarations its bit tells the mark of a constructor, unless it is set
and the constructor does not declare the mark. -/
theorem HasOneGate.isSet_eq_sets_iff {name : String} (h : t.HasOneGate name g)
    (hc : c ∈ t.constructors) (words : String → UInt32) :
    g.isSet words = c.sets name words ↔ c.gatesOf name ≠ [] ∨ g.isSet words = false := by
  have hown : ∀ own ∈ c.gatesOf name, own = g := h c hc
  rw [Constructor.sets]
  cases hgates : c.gatesOf name with
  | nil => simp
  | cons own rest =>
    rw [hgates] at hown
    have hany : (own :: rest).any (fun own => own.isSet words) = g.isSet words := by
      rw [Bool.eq_iff_iff, List.any_eq_true]
      constructor
      · rintro ⟨other, hmem, hset⟩
        rwa [hown other hmem] at hset
      · exact fun hset => ⟨own, List.mem_cons_self, hown own List.mem_cons_self ▸ hset⟩
    simp [hany]

end TaggedType

/-- In a built model every mark of a type has one accessor in its struct, and the flags words that
it looks at are numbers there. With a switch over the tag it tells whether the constructor of the
tag declares the mark and has its bit set, if no constructor declares the mark twice. There is a
switch unless all declarations have one gate. Without one the accessor tells the bit of that gate,
which tells the mark of every constructor that declares it and is too much for the others when the
bit is set. -/
theorem Model.accessors_tell {config : Config} {ds : List Definition} (hds : Parsed ds)
    {t : TaggedType} (ht : t ∈ (buildModel config ds).types) :
    (∀ name, name ∈ t.accessors.map (·.name) ↔ ∃ f ∈ t.fields, f.isMark = true ∧ f.name = name) ∧
    (t.accessors.map (·.name)).Nodup ∧
    ∀ a ∈ t.accessors,
      (∀ sources, Code.nest a.code <:+: structCode sources t ∧
        ∀ c ∈ t.constructors, ∀ g ∈ c.gatesOf a.name,
          .code 1 ("quint32 " ++ g.member ++ ";") ∈ structCode sources t) ∧
      (∀ g, t.HasOneGate a.name g → ∀ c ∈ t.constructors, ∀ words,
        told? a.name c.tag words a.code.statements = some (g.isSet words) ∧
        (g.isSet words = c.sets a.name words ↔
          c.gatesOf a.name ≠ [] ∨ g.isSet words = false)) ∧
      ((¬∃ g, t.HasOneGate a.name g) → a.code = a.switchCode) ∧
      (t.DeclaresOnce a.name → ∀ c ∈ t.constructors, ∀ words,
        told? a.name c.tag words a.switchCode.statements = some (c.sets a.name words)) := by
  have hderived := derived_buildModel config ds
  have htags := hderived.nodup_constructor_tags t ht
  refine ⟨fun _ => TaggedType.mem_names_accessors, t.nodup_names_accessors, fun a ha => ?_⟩
  refine ⟨fun sources => ⟨?_, fun c hc g hg => ?_⟩, fun g hgate c hc words => ⟨?_, ?_⟩, ?_, ?_⟩
  · rw [← Accessor.code_declaration]
    refine TaggedType.isInfix_structCode ?_ (hderived.constructors_ne_nil t ht) sources
    simp only [TaggedType.declarations, List.mem_append]
    exact .inl (.inl (.inr (List.mem_map_of_mem ha)))
  · exact (uniform_of_mem_bake ht).word_mem_structCode
      (hderived.gated_constructor hds t ht c hc) hc hg sources
  · have hsame := (TaggedType.hasOneGate_iff ha).mp hgate
    rw [Accessor.code_of_same (TaggedType.gates_ne_nil ha) hsame, Accessor.told?_plainCode]
  · exact hgate.isSet_eq_sets_iff hc words
  · intro h
    refine Accessor.code_of_not_same ?_
    rintro ⟨g, hg⟩
    exact h ⟨g, (TaggedType.hasOneGate_iff ha).mpr hg⟩
  · intro honce c hc words
    rw [Accessor.told?_switchCode (TaggedType.nodup_tags_gates ha htags honce),
      TaggedType.any_gates ha htags hc]

/-- Two constructors with a mark of two bits, where the bit of another mark is that of a number in
the second of them, and a constructor without fields. -/
def sharedBitText : String :=
  "a#1 flags:# pinned:flags.0?true self:flags.1?true = T;\n" ++
    "b#2 flags:# until:flags.0?int self:flags.2?true = T;\nc#3 = T;"

/-- The first mark is told by its bit alone, the other one by the tag as well. -/
theorem accessors_tell_sharedBit :
    ∃ t ∈ (buildModel {} (definitionsOf sharedBitText)).types,
      ∃ pinned ∈ t.accessors, ∃ self ∈ t.accessors, ∀ words,
        told? "pinned" "B" words pinned.code.statements =
          some (FieldGate.isSet words ⟨"flags", 0⟩) ∧
        told? "self" "B" words self.code.statements = some (FieldGate.isSet words ⟨"flags", 2⟩) ∧
        told? "self" "C" words self.code.statements = some false := by
  have hrun : (readSchema sharedBitText).isOk ∧
      ∃ t ∈ (buildModel {} (definitionsOf sharedBitText)).types,
        (∃ pinned ∈ t.accessors, pinned.name = "pinned") ∧
        (∃ self ∈ t.accessors, self.name = "self") ∧
        t.HasOneGate "pinned" ⟨"flags", 0⟩ ∧ t.DeclaresOnce "self" ∧
        (∃ a ∈ t.constructors, a.gatesOf "self" = [⟨"flags", 1⟩]) ∧
        (∃ b ∈ t.constructors, b.tag = "B" ∧ b.gatesOf "self" = [⟨"flags", 2⟩]) ∧
        ∃ c ∈ t.constructors, c.tag = "C" ∧ c.gatesOf "self" = [] := by decide +kernel
  obtain ⟨hread, t, ht, ⟨pinned, hpinned, hnamePinned⟩, ⟨self, hself, hnameSelf⟩, hone, honce,
    ⟨a, ha, hgatesA⟩, ⟨b, hb, htagB, hgatesB⟩, c, hc, htagC, hgatesC⟩ := hrun
  obtain ⟨-, -, htell⟩ :=
    Model.accessors_tell (.inl ⟨_, readSchema_eq_ok_definitionsOf hread⟩) ht
  obtain ⟨-, htellPinned, -, -⟩ := htell pinned hpinned
  obtain ⟨-, -, hswitch, htellSelf⟩ := htell self hself
  rw [hnamePinned] at htellPinned
  rw [hnameSelf] at hswitch htellSelf
  have hseveral : ¬∃ g, t.HasOneGate "self" g := by
    rintro ⟨g, hg⟩
    have hfirst := hg a ha ⟨"flags", 1⟩ (by rw [hgatesA]; exact List.mem_singleton_self _)
    have hsecond := hg b hb ⟨"flags", 2⟩ (by rw [hgatesB]; exact List.mem_singleton_self _)
    exact absurd (hfirst.trans hsecond.symm) (by decide)
  refine ⟨t, ht, pinned, hpinned, self, hself, fun words => ?_⟩
  rw [hswitch hseveral, ← htagB, ← htagC, (htellPinned _ hone b hb words).1,
    htellSelf honce b hb words, htellSelf honce c hc words, Constructor.sets, Constructor.sets,
    hgatesB, hgatesC]
  simp

/-- A type whose constructor declares a mark twice, with two bits. -/
def twiceText : String := "a#1 flags:# x:flags.0?true x:flags.1?true = T;"

/-- For a tag whose constructor does not declare the mark at all the accessor still tells the bit
that the constructor uses for a number. Two declarations in one constructor give the switch two
labels of one tag, and the accessor tells nothing. -/
theorem accessors_tell_undeclared :
    ((readSchema sharedBitText).isOk ∧
      ∃ t ∈ (buildModel {} (definitionsOf sharedBitText)).types,
        ∃ a ∈ t.accessors, ∃ b ∈ t.constructors,
          (∀ f ∈ b.fields, ¬(f.isMark = true ∧ f.name = a.name)) ∧
          told? a.name b.tag (fun _ => 1) a.code.statements = some true) ∧
    ((readSchema twiceText).isOk ∧
      ∃ t ∈ (buildModel {} (definitionsOf twiceText)).types,
        ∃ a ∈ t.accessors, ∃ c ∈ t.constructors,
          c.gatesOf a.name = [⟨"flags", 0⟩, ⟨"flags", 1⟩] ∧
          told? a.name c.tag (fun _ => 1) a.code.statements = none) := by
  decide +kernel

end TypeLang
