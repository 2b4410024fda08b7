import Mathlib.Data.List.Nodup
import TypeLang.Proofs.Emit.Running
import TypeLang.Proofs.Model.Tags

/-!
# What operators and requests stream

The operator of a type streams the fields of a constructor under the case of its tag, the request of
a method streams the tag and then its arguments. Both are read off the emitted lines: the case of a
tag is what stands behind its label up to the break.
-/
namespace TypeLang

open Text

namespace Emit

/-- What stands behind a case label, up to the break. -/
def arm (label : String) (lines : List String) : List String :=
  ((lines.dropWhile (· != label)).drop 1).takeWhile (· != "break;")

/-- What stands in front of the members that an operator streams. -/
def streamOwner (d : Direction) (t : TaggedType) : String :=
  match d with
  | .read => "result."
  | .write => TargetType.valueVariable t.name ++ "."

/-- What the operator of a type streams for a constructor. -/
def operatorStreams (d : Direction) (t : TaggedType) (c : Constructor)
    (words : String → UInt32) : List Transfer :=
  run "*this" d.operator (streamOwner d t) words none
    (arm (caseLabel c.tag) (streamDefinition d t).statements)

/-- What the request of a method streams, the tag included. -/
def requestStreams (sources : Bool) (sender : String) (method : Method)
    (words : String → UInt32) : List Transfer :=
  run "outputStream" "<<" "" words none (stubDefinition sources sender method).statements

/-! ## Cases -/

/-- Lines without the label do not matter for its arm. -/
theorem arm_append_of_notMem {label : String} {front : List String} (h : label ∉ front)
    (lines : List String) : arm label (front ++ lines) = arm label lines := by
  have hdrop : (front ++ lines).dropWhile (· != label) = lines.dropWhile (· != label) := by
    rw [List.dropWhile_append_of_pos]
    intro line hline
    exact bne_iff_ne.mpr fun heq => h (heq ▸ hline)
  rw [arm, hdrop, arm]

theorem arm_of_notMem {label : String} {lines : List String} (h : label ∉ lines) :
    arm label lines = [] := by
  have := arm_append_of_notMem h []
  rwa [List.append_nil] at this

/-- The arm of a label goes to its first break. -/
theorem arm_label {label : String} {body : List String} (h : "break;" ∉ body)
    (lines : List String) : arm label (label :: (body ++ "break;" :: lines)) = body := by
  have htake : (body ++ "break;" :: lines).takeWhile (· != "break;") = body := by
    rw [List.takeWhile_append_of_pos]
    · simp
    · intro line hline
      exact bne_iff_ne.mpr fun heq => h (heq ▸ hline)
  rw [arm, List.dropWhile_cons_of_neg (by simp)]
  exact htake

/-! ## Lines that are no labels -/

/-- Labels start with a small `c` and end with a colon; no other emitted line does both. -/
def IsLabel (line : String) : Prop :=
  line.toList.head? = some 'c' ∧ line.toList.getLast? = some ':'

instance (line : String) : Decidable (IsLabel line) :=
  inferInstanceAs (Decidable (_ ∧ _))

theorem isLabel_caseLabel (tag : String) : IsLabel (caseLabel tag) := by
  constructor
  · simp [caseLabel, tagConstant, String.toList_append]
  · rw [caseLabel, String.toList_append]
    exact List.getLast?_concat

theorem caseLabel_inj {a b : String} (h : caseLabel a = caseLabel b) : a = b := by
  have hchars := congrArg String.toList h
  simp only [caseLabel, tagConstant, String.toList_append, List.append_cancel_left_eq,
    List.append_cancel_right_eq] at hchars
  exact String.toList_inj.mp hchars

/-- Lines with the given labelled cases among them, each closed by a break, and no label outside. -/
def HasCases (cases : List (String × List String)) (lines : List String) : Prop :=
  ∃ front back, (∀ line ∈ front, ¬IsLabel line) ∧ (∀ line ∈ back, ¬IsLabel line) ∧
    lines = front ++ (cases.flatMap (fun entry => entry.1 :: (entry.2 ++ ["break;"])) ++ back)

namespace HasCases

variable {cases : List (String × List String)} {lines more : List String}

theorem append_left (hmore : ∀ line ∈ more, ¬IsLabel line) (h : HasCases cases lines) :
    HasCases cases (more ++ lines) := by
  obtain ⟨front, back, hfront, hback, rfl⟩ := h
  refine ⟨more ++ front, back, ?_, hback, by rw [List.append_assoc]⟩
  simpa [or_imp, forall_and] using ⟨hmore, hfront⟩

theorem append_right (h : HasCases cases lines) (hmore : ∀ line ∈ more, ¬IsLabel line) :
    HasCases cases (lines ++ more) := by
  obtain ⟨front, back, hfront, hback, rfl⟩ := h
  refine ⟨front, back ++ more, hfront, ?_, by simp [List.append_assoc]⟩
  simpa [or_imp, forall_and] using ⟨hback, hmore⟩

theorem of_no_cases (h : ∀ line ∈ lines, ¬IsLabel line) : HasCases [] lines :=
  ⟨lines, [], h, by simp, by simp⟩

/-- The arm of a label among cases with different labels is the body behind it. -/
theorem arm_flatMap {label : String} {body : List String}
    (hmem : (label, body) ∈ cases) (hnodup : (cases.map (·.1)).Nodup)
    (hbreak : "break;" ∉ body)
    (hlabel : label ≠ "break;") (hbodies : ∀ entry ∈ cases, label ∉ entry.2)
    (lines : List String) :
    arm label (cases.flatMap (fun entry => entry.1 :: (entry.2 ++ ["break;"])) ++ lines) =
      body := by
  induction cases with
  | nil => simp at hmem
  | cons entry cases ih =>
    rw [List.map_cons, List.nodup_cons] at hnodup
    rw [List.flatMap_cons, List.append_assoc]
    rcases List.mem_cons.mp hmem with rfl | hmem
    · simp only [List.cons_append, List.append_assoc, List.nil_append]
      exact arm_label hbreak _
    · have hne : label ≠ entry.1 := by
        rintro rfl
        exact hnodup.1 (List.mem_map_of_mem (f := (·.1)) hmem)
      rw [arm_append_of_notMem]
      · exact ih hmem hnodup.2 fun e he => hbodies e (List.mem_cons_of_mem _ he)
      · simp [hne, hlabel, hbodies entry List.mem_cons_self]

/-- The arm of a case is its body, when all labels are different. -/
theorem arm_eq {label : String} {body : List String} (h : HasCases cases lines)
    (hmem : (label, body) ∈ cases) (hnodup : (cases.map (·.1)).Nodup)
    (hcases : ∀ entry ∈ cases, IsLabel entry.1 ∧
      ∀ line ∈ entry.2, ¬IsLabel line ∧ line ≠ "break;") :
    arm label lines = body := by
  obtain ⟨front, back, hfront, -, rfl⟩ := h
  have hlabel : IsLabel label := (hcases _ hmem).1
  rw [arm_append_of_notMem fun h => hfront label h hlabel]
  refine arm_flatMap hmem hnodup ?_ ?_ ?_ back
  · exact fun h => ((hcases _ hmem).2 _ h).2 rfl
  · rintro rfl
    exact absurd hlabel (by decide)
  · exact fun entry he h => ((hcases entry he).2 label h).1 hlabel

/-- There is no arm for a label that is not among the cases. -/
theorem arm_eq_nil {label : String} (h : HasCases cases lines) (hlabel : IsLabel label)
    (hmem : label ∉ cases.map (·.1))
    (hcases : ∀ entry ∈ cases, ∀ line ∈ entry.2, ¬IsLabel line) : arm label lines = [] := by
  obtain ⟨front, back, hfront, hback, rfl⟩ := h
  refine arm_of_notMem ?_
  simp only [List.mem_append, List.mem_flatMap, List.mem_cons, List.not_mem_nil, or_false, not_or,
    not_exists, not_and]
  refine ⟨fun h => hfront label h hlabel, ?_, fun h => hback label h hlabel⟩
  intro entry he
  refine ⟨?_, fun h => hcases entry he label h hlabel, ?_⟩
  · rintro rfl
    exact hmem (List.mem_map_of_mem (f := (·.1)) he)
  · rintro rfl
    exact absurd hlabel (by decide)

end HasCases

theorem not_isLabel_of_mem_code {stream operator owner : String} {t : Transfer} {line : String}
    (hstream : stream ∈ ["*this", "outputStream"])
    (h : line ∈ (t.code stream operator owner).statements) : ¬IsLabel line ∧ line ≠ "break;" := by
  have hne : ∀ s : String, s.toList.head? ≠ some 'c' → s.toList.head? ≠ some 'b' →
      ¬IsLabel s ∧ s ≠ "break;" := by
    intro s hlabel hbreak
    refine ⟨fun h => hlabel h.1, ?_⟩
    rintro rfl
    exact hbreak rfl
  simp only [List.mem_cons, List.not_mem_nil, or_false] at hstream
  have hstatement : ¬IsLabel (stream ++ " " ++ operator ++ " " ++ owner ++ t.member ++ ";") ∧
      stream ++ " " ++ operator ++ " " ++ owner ++ t.member ++ ";" ≠ "break;" := by
    apply hne <;> rcases hstream with rfl | rfl <;> simp [String.toList_append]
  rcases t with ⟨gate, member⟩
  cases gate with
  | none =>
    simp only [Transfer.code, Code.gated, Code.statements_line, List.mem_singleton] at h
    subst h
    exact hstatement
  | some g =>
    simp only [Transfer.code, Code.gated, Code.braced, Code.statements_append, Code.statements_line,
      Code.statements_nest, List.cons_append, List.nil_append, List.mem_cons, List.not_mem_nil,
      or_false] at h
    rcases h with rfl | rfl | rfl
    · apply hne <;> simp [String.toList_append]
    · exact hstatement
    · apply hne <;> decide

/-! ## Operators -/

/-- The labelled cases of an operator, each with its statements. -/
def operatorCases (d : Direction) (t : TaggedType) : List (String × List String) :=
  (transferCases t).map fun entry => (caseLabel entry.tag, entry.transfers.flatMap fun transfer =>
    (transfer.code "*this" d.operator (streamOwner d t)).statements)

/-- A switch over tags has the cases that it is made of. -/
theorem hasCases_tagSwitch (scrutinee : String) (cases : List (String × Code)) :
    HasCases (cases.map fun entry => (caseLabel entry.1, entry.2.statements))
      (tagSwitch scrutinee cases).statements := by
  simp only [tagSwitch]
  split
  · next hempty =>
    rw [List.isEmpty_iff.mp hempty]
    exact .of_no_cases (by simp)
  · refine ⟨["switch (" ++ scrutinee ++ ") \x7b"], ["default:", "break;", "\x7d"], ?_,
      by decide, ?_⟩
    · simp [IsLabel, String.toList_append]
    · simp [Code.switch, Code.arm, List.flatMap_map]

/-- An operator has the cases of its type, and no labels around them. -/
theorem hasCases_streamDefinition (d : Direction) (t : TaggedType) :
    HasCases (operatorCases d t) (streamDefinition d t).statements := by
  obtain ⟨switch, hdef⟩ : ∃ switch, switch = tagSwitch (streamOwner d t ++ "tlType")
      ((transferCases t).map fun entry =>
        (entry.tag,
          entry.transfers.flatMap (Transfer.code "*this" d.operator (streamOwner d t)))) :=
    ⟨_, rfl⟩
  have hswitch : HasCases (operatorCases d t) switch.statements := by
    have := hasCases_tagSwitch (streamOwner d t ++ "tlType") ((transferCases t).map fun entry =>
      (entry.tag, entry.transfers.flatMap (Transfer.code "*this" d.operator (streamOwner d t))))
    rw [← hdef, List.map_map] at this
    simpa only [operatorCases, Function.comp_def, Code.statements_flatMap] using this
  have hgap : HasCases (operatorCases d t)
      (if switch.isEmpty then [] else Code.blank ++ switch : Code).statements := by
    split
    · next hempty => rwa [List.isEmpty_iff.mp hempty] at hswitch
    · have hblank : ∀ line ∈ [""], ¬IsLabel line := by decide
      exact hswitch.append_left hblank
  -- What stands around the gap is split off piece by piece, from the inside out.
  simp only [streamDefinition, Code.function, Code.statements_append, Code.statements_nest,
    Code.statements_line, Code.statements_blank]
  cases d with
  | read =>
    simp only [streamOwner] at hdef
    rw [← hdef]
    refine (((((hgap.append_left ?_).append_right ?_).append_right ?_).append_right ?_).append_left
      ?_).append_right ?_
    all_goals simp [IsLabel, String.toList_append, Code.statements, Code.line, Code.blank,
      CodeLine.statement]
  | write =>
    simp only [streamOwner] at hdef
    rw [← hdef]
    refine (((((hgap.append_left ?_).append_right ?_).append_right ?_).append_right ?_).append_left
      ?_).append_right ?_
    all_goals simp [IsLabel, String.toList_append]

/-- The cases of an operator have labels in front and none inside. -/
theorem operatorCases_labels (d : Direction) (t : TaggedType) :
    ∀ entry ∈ operatorCases d t,
      IsLabel entry.1 ∧ ∀ line ∈ entry.2, ¬IsLabel line ∧ line ≠ "break;" := by
  intro entry he
  obtain ⟨c, -, rfl⟩ := List.mem_map.mp he
  refine ⟨isLabel_caseLabel _, fun line hline => ?_⟩
  obtain ⟨transfer, -, hline⟩ := List.mem_flatMap.mp hline
  exact not_isLabel_of_mem_code (by simp) hline

/-- No label of an operator is there twice. -/
theorem nodup_operatorCases {d : Direction} {t : TaggedType}
    (h : (t.constructors.map Constructor.tag).Nodup) :
    ((operatorCases d t).map (·.1)).Nodup := by
  have htags : ((transferCases t).map (·.tag)).Nodup := by
    simp only [transferCases]
    refine (List.filter_sublist.map _).nodup ?_
    simpa [List.map_map, Function.comp_def] using h
  rw [operatorCases, List.map_map]
  rw [List.Nodup, List.pairwise_map] at htags ⊢
  exact htags.imp fun hne heq => hne (caseLabel_inj heq)

/-- The operator of a type streams the fields of a constructor whose gates are open, in order. -/
theorem operatorStreams_eq {d : Direction} {t : TaggedType} {c : Constructor}
    (hc : c ∈ t.constructors) (htags : (t.constructors.map Constructor.tag).Nodup)
    (words : String → UInt32) :
    operatorStreams d t c words = (Transfer.ofFields c.fields).filter (·.runs words) := by
  have hstream : "*this" ∈ ["*this", "outputStream"] := by simp
  have hcases := hasCases_streamDefinition d t
  have hrun := run_codes d.operator (streamOwner d t) words [] hstream
    (Transfer.ofFields c.fields)
  simp only [List.append_nil, run] at hrun
  rw [operatorStreams]
  by_cases hempty : Transfer.ofFields c.fields = []
  · -- A constructor without transfers has no case, and its tag has no arm.
    have hmem : caseLabel c.tag ∉ (operatorCases d t).map (·.1) := by
      intro h
      simp only [operatorCases, transferCases, List.mem_map, List.mem_filter] at h
      obtain ⟨-, ⟨-, ⟨⟨b, hb, rfl⟩, hwire⟩, rfl⟩, hlabel⟩ := h
      obtain rfl := List.inj_on_of_nodup_map htags hb hc (caseLabel_inj hlabel)
      simp [hempty] at hwire
    rw [hcases.arm_eq_nil (isLabel_caseLabel _) hmem
      fun entry he line hline => ((operatorCases_labels d t entry he).2 line hline).1, hempty]
    rfl
  · have hmem : (caseLabel c.tag, (Transfer.ofFields c.fields).flatMap fun transfer =>
        (transfer.code "*this" d.operator (streamOwner d t)).statements) ∈ operatorCases d t := by
      refine List.mem_map.mpr ⟨⟨c.tag, Transfer.ofFields c.fields⟩, ?_, rfl⟩
      refine List.mem_filter.mpr ⟨List.mem_map.mpr ⟨c, hc, rfl⟩, ?_⟩
      simpa using hempty
    rw [hcases.arm_eq hmem (nodup_operatorCases htags) (operatorCases_labels d t), hrun]

/-! ## Requests -/

/-- Lines that start with another character than conditions, braces and transfers stream nothing. -/
theorem run_append_of_other {front : List String}
    (h : ∀ line ∈ front, ∀ c ∈ line.toList.head?, c ∉ ['i', 'o', '\x7d']) (operator : String)
    (words : String → UInt32) (gate : Option FieldGate) (lines : List String) :
    run "outputStream" operator "" words gate (front ++ lines) =
      run "outputStream" operator "" words gate lines := by
  induction front with
  | nil => rfl
  | cons line front ih =>
    have hline := h line List.mem_cons_self
    have hskip : ∀ start : List Char, start.head? ∈ [some 'i', some 'o'] →
        dropStart? start line.toList = none := by
      intro start hstart
      cases start with
      | nil => simp at hstart
      | cons s start =>
        cases hchars : line.toList with
        | nil => rfl
        | cons c cs =>
          have hne : s ≠ c := by
            rintro rfl
            have := hline s (by simp [hchars])
            simp_all
          simp [hne]
    have hcondition : condition? "" line = none := by
      rw [condition?, hskip _ (by simp), Option.bind_none]
    have hclose : line ≠ "\x7d" := by
      rintro rfl
      exact hline '\x7d' rfl (by simp)
    have hstreamed : streamed? "outputStream" operator "" line = none := by
      rw [streamed?, hskip _ (by simp [String.toList_append]), Option.bind_none]
    rw [List.cons_append, run, hcondition]
    simp only [hclose, if_false, hstreamed]
    exact ih fun l hl => h l (List.mem_cons_of_mem _ hl)

/-- The request of a method streams its tag, and the arguments whose gates are open, in order. -/
theorem requestStreams_eq (sources : Bool) (sender : String) (method : Method)
    (words : String → UInt32) :
    requestStreams sources sender method words =
      ⟨none, tagConstant method.tag⟩ ::
        (Transfer.ofFields method.fields).filter (·.runs words) := by
  have hstream : "outputStream" ∈ ["*this", "outputStream"] := by simp
  have hsource : ∀ line ∈ (Code.source sources method.source).statements,
      ∀ c ∈ line.toList.head?, c ∉ ['i', 'o', '\x7d'] := by
    intro line hline
    obtain ⟨text, -, rfl⟩ := Code.mem_statements_source hline
    simp [String.toList_append]
  have hhead : ∀ line ∈ ["quint64 CTelegramConnection::" ++ method.name ++ "(" ++
        argumentList method ++ ")", "\x7b", "QByteArray output;",
        "CTelegramStream outputStream(&output, /* write */ true);", ""],
      ∀ c ∈ line.toList.head?, c ∉ ['i', 'o', '\x7d'] := by
    simp [String.toList_append]
  have hreturn : ∀ line ∈ ["", "return " ++ sender ++ "(output);"],
      ∀ c ∈ line.toList.head?, c ∉ ['i', 'o', '\x7d'] := by
    simp [String.toList_append]
  have htag := run_statement "<<" "" words none
    ((Transfer.ofFields method.fields).flatMap
      (fun t => (t.code "outputStream" "<<" "").statements) ++
        (["", "return " ++ sender ++ "(output);"] ++ ["\x7d"])) hstream (tagConstant method.tag)
  rw [run_codes _ _ _ _ hstream, run_append_of_other hreturn, run_close, run,
    List.append_nil] at htag
  have hlines : (stubDefinition sources sender method).statements =
      (Code.source sources method.source).statements ++ (["quint64 CTelegramConnection::" ++
          method.name ++ "(" ++ argumentList method ++ ")", "\x7b", "QByteArray output;",
          "CTelegramStream outputStream(&output, /* write */ true);", ""] ++
        (("outputStream" ++ " " ++ "<<" ++ " " ++ "" ++ tagConstant method.tag ++ ";") ::
          ((Transfer.ofFields method.fields).flatMap
            (fun t => (t.code "outputStream" "<<" "").statements) ++
              (["", "return " ++ sender ++ "(output);"] ++ ["\x7d"])))) := by
    have hstart : "outputStream" ++ " " ++ "<<" ++ " " ++ "" = "outputStream << " := by decide
    rw [hstart]
    simp [stubDefinition, Code.function]
  rw [requestStreams, hlines, run_append_of_other hsource, run_append_of_other hhead, htag]
  simp [Transfer.runs]

end Emit

end TypeLang
