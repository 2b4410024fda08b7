import TypeLang.Proofs.Emit.Handlers
import TypeLang.Proofs.Model.Tags

/-!
# Lines with a signature

How often the signature of a handler stands in the text that is written for a list of methods. It
stands once in front of the handler's body, and nowhere in a stub. A body that is kept may hold it:
a body runs to the first closing brace that stands alone at the indentation, so that one whose last
line says more than that runs on into the functions below.
-/
namespace TypeLang

open Text

namespace FunctionText

variable {indent : List Char} {p : List Char → Bool} {f : FunctionText}

/-- On how many lines of a text a signature stands at an indentation. -/
def linesWith (indent signature text : List Char) : Nat :=
  (inclusiveLines text).countP fun line => lineAt? indent line == some signature

theorem linesWith_eq_zero_iff {signature text : List Char} :
    linesWith indent signature text = 0 ↔
      ∀ line ∈ inclusiveLines text, lineAt? indent line ≠ some signature := by
  simp [linesWith, List.countP_eq_zero]

theorem lineAt?_opening (indent : List Char) (f : FunctionText) :
    lineAt? indent (f.opening indent) = some (trimEnd f.signature) := by
  rw [opening, List.append_assoc, lineAt?_append, trimEnd_append_newline]

/-- Blank lines apart, the lines of functions are those with their signatures and those of their
bodies. -/
theorem countP_joinedLines (hnewline : p ['\n'] = false) (functions : List FunctionText) :
    (joinedLines indent functions).countP p =
      functions.countP (fun f => p (f.opening indent)) +
        (functions.map fun f => (inclusiveLines f.body).countP p).sum := by
  fun_induction joinedLines indent functions with
  | case1 => rfl
  | case2 f =>
    simp only [List.countP_cons, List.countP_nil, List.map_cons, List.map_nil, List.sum_cons,
      List.sum_nil]
    omega
  | case3 f g functions ih =>
    simp only [List.cons_append, List.countP_append, List.countP_cons, hnewline, ih,
      Bool.false_eq_true, if_false, List.map_cons, List.sum_cons]
    omega

/-- A signature on more than one line stands on none. -/
theorem linesWith_of_newline {signature : List Char} (h : '\n' ∈ signature)
    (indent text : List Char) : linesWith indent signature text = 0 := by
  rw [linesWith_eq_zero_iff]
  intro line hline hsignature
  obtain ⟨behind, hdrop, rfl⟩ := Option.map_eq_some_iff.mp hsignature
  rcases isLine_or_notMem hline with hclosed | hnone
  · exact newline_notMem_trimEnd hdrop hclosed h
  · apply hnone
    rw [← append_of_dropStart? hdrop]
    exact List.mem_append_right _ ((trimEnd_prefix_self behind).subset h)

/-- The body of a function that was found is a text that was closed. -/
theorem exists_body_eq {ls : List (List Char)} (hf : f ∈ ofLines indent ls) :
    ∃ cs, f.body = closeLine cs := by
  fun_induction ofLines indent ls with
  | case1 => cases hf
  | case2 line rest hnone ih => exact ih hf
  | case3 line rest signature hsignature hcut =>
    rw [List.mem_singleton.mp hf]
    exact ⟨_, rfl⟩
  | case4 line rest signature hsignature before last after hcut ih =>
    rcases List.mem_cons.mp hf with rfl | hf
    · exact ⟨_, rfl⟩
    · exact ih hf

end FunctionText

namespace Emit

variable {indent old : List Char} {methods : List Method} {method other : Method}

/-- The handler of a method among the functions that a region holds already. -/
def keptHandler? (indent old : List Char) (method : Method) : Option FunctionText :=
  (FunctionText.ofText indent old).find? (·.signature == (handlerSignature method).toList)

/-- The function that is written for a method. -/
def writtenHandler (indent old : List Char) (method : Method) : FunctionText :=
  handlerFunction (FunctionText.ofText indent old) indent method

theorem writtenHandler_eq (indent old : List Char) (method : Method) :
    writtenHandler indent old method =
      (keptHandler? indent old method).getD (stubFunction indent method) := rfl

/-- Formatted names that differ lead to different signatures. -/
theorem nodup_handlerSignatures (hnames : (methods.map (·.name)).Nodup)
    (hformatted : ∀ other ∈ methods, ∃ name, other.name = Naming.entity name) :
    (methods.map fun other => (handlerSignature other).toList).Nodup := by
  refine List.pairwise_map.mpr ((List.pairwise_map.mp hnames).imp_of_mem ?_)
  intro a b ha hb hne hsame
  obtain ⟨name, hname⟩ := hformatted a ha
  obtain ⟨name', hname'⟩ := hformatted b hb
  have htag := tag_of_handlerSignature (String.toList_inj.mp hsame)
  rw [Method.tag, Method.tag, hname, hname'] at htag
  exact hne (by rw [hname, hname', Naming.tag_inj htag])

/-! ## Bodies -/

/-- The lines of a body are closed, kept or not. -/
theorem isLine_of_mem_body (indent old : List Char) (method : Method) :
    ∀ l ∈ inclusiveLines (writtenHandler indent old method).body, IsLine l := by
  rcases handlerFunction_eq_or_mem (FunctionText.ofText indent old) indent method with heq | hmem
  · rw [writtenHandler, heq, body_stubFunction, indentBlock]
    exact isLine_of_mem_closeLine _
  · obtain ⟨cs, hbody⟩ := FunctionText.exists_body_eq hmem
    rw [writtenHandler, hbody]
    exact isLine_of_mem_closeLine cs

/-- No signature stands in a stub: the lines between its braces stand deeper. -/
theorem linesWith_stub (hresult : Unbroken method.result.text) (hbreak : '\n' ∉ indent)
    (other : Method) : FunctionText.linesWith indent (handlerSignature other).toList
      (stubFunction indent method).body = 0 := by
  obtain ⟨warning, result, reading, hstub⟩ :=
    exists_lineAt?_stub (TargetType.unbroken_text.mp hresult) hbreak
  have hdeeper : ∀ cs, FunctionText.isSignature (' ' :: cs) = false := by
    have hblank : isBlank ' ' := by decide
    simp [FunctionText.isSignature, hblank]
  have hlines : ∀ said ∈ (inclusiveLines (stubFunction indent method).body).map
      (FunctionText.lineAt? indent), ∀ cs ∈ said, FunctionText.isSignature cs = false := by
    rw [hstub]
    simp only [List.forall_mem_cons, Option.mem_some_iff, forall_eq']
    exact ⟨by decide, hdeeper _, hdeeper _, hdeeper _, by decide, by simp⟩
  rw [FunctionText.linesWith_eq_zero_iff]
  intro line hline hsignature
  exact ne_handlerSignature (hlines _ (List.mem_map_of_mem hline) _ hsignature) other rfl

/-- So a signature stands in the body that is written for a method only where it was there. -/
theorem linesWith_body_eq_zero_iff (hresult : Unbroken method.result.text)
    (hbreak : '\n' ∉ indent) : FunctionText.linesWith indent (handlerSignature other).toList
      (writtenHandler indent old method).body = 0 ↔
    ∀ f ∈ keptHandler? indent old method, ∀ line ∈ inclusiveLines f.body,
      FunctionText.lineAt? indent line ≠ some (handlerSignature other).toList := by
  rw [writtenHandler_eq]
  cases keptHandler? indent old method with
  | none => simp [linesWith_stub hresult hbreak]
  | some f => simp [FunctionText.linesWith_eq_zero_iff]

/-! ## The region -/

/-- One of the functions starts with the signature of the method. -/
theorem countP_opening (hnodup : (methods.map fun other => (handlerSignature other).toList).Nodup)
    (hmethod : method ∈ methods) :
    (handlerFunctions indent old methods).countP (fun f =>
      FunctionText.lineAt? indent (f.opening indent) == some (handlerSignature method).toList) =
        1 := by
  have hopening : ∀ other : Method, FunctionText.lineAt? indent
      ((handlerFunction (FunctionText.ofText indent old) indent other).opening indent) =
        some (handlerSignature other).toList := by
    intro other
    rw [FunctionText.lineAt?_opening, signature_handlerFunction, trimEnd_handlerSignature]
  have hcount := List.count_eq_one_of_mem hnodup (List.mem_map_of_mem hmethod)
  rw [List.count, List.countP_map] at hcount
  rw [handlerFunctions, List.countP_map, ← hcount]
  refine List.countP_congr fun other _ => ?_
  simp [hopening]

/-- A signature stands on a line of its own and on those of the bodies. -/
theorem linesWith_handlerText (old : List Char)
    (hnodup : (methods.map fun other => (handlerSignature other).toList).Nodup)
    (hunbroken : ∀ other ∈ methods, Unbroken other.name) (hbreak : '\n' ∉ indent)
    (hmethod : method ∈ methods) :
    FunctionText.linesWith indent (handlerSignature method).toList
        (handlerText indent old methods) =
      1 + (methods.map fun other => FunctionText.linesWith indent
        (handlerSignature method).toList (writtenHandler indent old other).body).sum := by
  have hlines : inclusiveLines (handlerText indent old methods) =
      FunctionText.joinedLines indent (handlerFunctions indent old methods) := by
    apply FunctionText.inclusiveLines_joined hbreak
    · simp only [handlerFunctions, List.forall_mem_map, signature_handlerFunction]
      exact fun other hother => (unbroken_handlerSignature (hunbroken other hother)).newline_notMem
    · simp only [handlerFunctions, List.forall_mem_map]
      exact fun other _ => isLine_of_mem_body indent old other
  have hnewline : (FunctionText.lineAt? indent ['\n'] ==
      some (handlerSignature method).toList) = false := by
    refine beq_eq_false_iff_ne.mpr fun hsignature => ?_
    exact ne_handlerSignature (FunctionText.isSignature_newline _ hsignature) method rfl
  rw [FunctionText.linesWith, hlines, FunctionText.countP_joinedLines hnewline,
    countP_opening hnodup hmethod, handlerFunctions, List.map_map]
  rfl

/-- The text of the definitions is that of the handlers over the prior text. -/
theorem toList_handlerDefinitions (prior : Option String) (indent : String)
    (methods : List Method) : (handlerDefinitions prior indent methods).toList =
      handlerText indent.toList (prior.getD "").toList methods := by
  cases prior with
  | none => simp [handlerDefinitions, handlerText, handlerFunctions, FunctionText.ofText,
      FunctionText.ofLines]
  | some text => simp [handlerDefinitions, handlerText, handlerFunctions]

/-- The region is the definitions of the methods in order, each with its signature right in front
of its body. -/
theorem handlerText_eq (indent old : List Char) (methods : List Method) :
    handlerText indent old methods = joinWith ['\n'] (methods.map fun other =>
      indent ++ (handlerSignature other).toList ++
        '\n' :: (writtenHandler indent old other).body) := by
  rw [handlerText, handlerFunctions, List.map_map]
  refine congrArg _ (List.map_congr_left fun other _ => ?_)
  rw [Function.comp_apply, FunctionText.text, signature_handlerFunction, writtenHandler]

/-- The body of a handler is that of the first function found with its signature, else a stub. -/
theorem body_writtenHandler (indent old : List Char) : ∃ functions,
    (∀ found, FunctionText.Found indent (inclusiveLines old) found ↔ found = functions) ∧
      ∀ other, (writtenHandler indent old other).body =
        ((functions.find? (·.signature == (handlerSignature other).toList)).map (·.body)).getD
          (stubFunction indent other).body := by
  refine ⟨_, fun _ => FunctionText.found_iff, fun other => ?_⟩
  rw [writtenHandler_eq, keptHandler?, FunctionText.ofText]
  cases (FunctionText.ofLines indent (inclusiveLines old)).find?
    (·.signature == (handlerSignature other).toList) <;> rfl

/-- The definitions of the methods are written in order, each with its signature right in front of
its body, which is that of the first function with this signature of those that a scan of the prior
text finds, kept as it is there, and else a stub. So no handler is lost. Among methods with
different names, all on one line, a signature stands on a line of its own and otherwise only on
lines of bodies. Where result types are on one line too, a handler is defined once exactly when no
body that is kept has a line with its signature. -/
theorem linesWith_handlerDefinitions {prior : Option String} {indent : String}
    (hindent : Unbroken indent)
    (hformatted : ∀ other ∈ methods, ∃ name, other.name = Naming.entity name)
    (hnames : (methods.map (·.name)).Nodup)
    (hunbroken : ∀ other ∈ methods, Unbroken other.name) (hmethod : method ∈ methods) :
    (∃ functions, (∀ found,
        FunctionText.Found indent.toList (inclusiveLines (prior.getD "").toList) found ↔
          found = functions) ∧
        ∀ other, (writtenHandler indent.toList (prior.getD "").toList other).body =
          ((functions.find? (·.signature == (handlerSignature other).toList)).map (·.body)).getD
            (stubFunction indent.toList other).body) ∧
    (handlerDefinitions prior indent methods).toList = joinWith ['\n'] (methods.map fun other =>
      indent.toList ++ (handlerSignature other).toList ++
        '\n' :: (writtenHandler indent.toList (prior.getD "").toList other).body) ∧
    FunctionText.linesWith indent.toList (handlerSignature method).toList
        (handlerDefinitions prior indent methods).toList =
      1 + (methods.map fun other => FunctionText.linesWith indent.toList
        (handlerSignature method).toList
          (writtenHandler indent.toList (prior.getD "").toList other).body).sum ∧
    ((∀ other ∈ methods, Unbroken other.result.text) →
      (FunctionText.linesWith indent.toList (handlerSignature method).toList
          (handlerDefinitions prior indent methods).toList = 1 ↔
        ∀ other ∈ methods, ∀ f ∈ keptHandler? indent.toList (prior.getD "").toList other,
          ∀ line ∈ inclusiveLines f.body,
            FunctionText.lineAt? indent.toList line ≠ some (handlerSignature method).toList)) := by
  have hbreak := hindent.newline_notMem
  have hcount := linesWith_handlerText (prior.getD "").toList
    (nodup_handlerSignatures hnames hformatted) hunbroken hbreak hmethod
  rw [toList_handlerDefinitions, hcount]
  refine ⟨body_writtenHandler _ _, handlerText_eq _ _ _, rfl, fun hresult => ?_⟩
  rw [Nat.add_eq_left, List.sum_eq_zero_iff]
  simp only [List.forall_mem_map]
  exact forall₂_congr fun other hother =>
    linesWith_body_eq_zero_iff (hresult other hother) hbreak

/-! ## Handlers that are kept -/

/-- A handler with these lines between its braces. -/
def handlerWith (method : Method) (texts : List (List Char)) : FunctionText :=
  ⟨(handlerSignature method).toList,
    ((['\x7b'] :: (texts ++ [['\x7d']])).map (· ++ ['\n'])).flatten⟩

section Kept

variable {texts : List (List Char)}

theorem isLine_handlerWith (h : ∀ text ∈ texts, '\n' ∉ text) :
    ∀ l ∈ (['\x7b'] :: (texts ++ [['\x7d']])).map (· ++ ['\n']), IsLine l := by
  simp only [List.forall_mem_map, List.forall_mem_cons, List.forall_mem_append]
  exact ⟨⟨['\x7b'], by decide, rfl⟩, fun text htext => ⟨text, h text htext, rfl⟩,
    ⟨['\x7d'], by decide, rfl⟩, by simp⟩

theorem inclusiveLines_handlerWith (h : ∀ text ∈ texts, '\n' ∉ text) (method : Method) :
    inclusiveLines (handlerWith method texts).body =
      (['\x7b'] :: (texts ++ [['\x7d']])).map (· ++ ['\n']) :=
  inclusiveLines_flatten (isLine_handlerWith h)

theorem lineAt?_nil_append_newline (text : List Char) :
    FunctionText.lineAt? [] (text ++ ['\n']) = some (trimEnd text) := by
  rw [← List.nil_append (text ++ _), FunctionText.lineAt?_append, trimEnd_append_newline]

/-- A handler is whole when no line in it is a brace that closes it before its end. -/
theorem isWhole_handlerWith (hname : Unbroken method.name)
    (h : ∀ text ∈ texts, '\n' ∉ text ∧ trimEnd text ≠ ['\x7d']) :
    (handlerWith method texts).IsWhole [] := by
  have hlines := inclusiveLines_handlerWith (fun text htext => (h text htext).1) method
  refine ⟨isSignature_handlerSignature method, trimEnd_handlerSignature method,
    (unbroken_handlerSignature hname).newline_notMem, ?_,
    (['\x7b'] :: texts).map (· ++ ['\n']), ['\x7d', '\n'], ?_, rfl, ?_, rfl⟩
  · rw [hlines]
    exact isLine_handlerWith fun text htext => (h text htext).1
  · rw [hlines, ← List.cons_append, List.map_append]
    rfl
  · simp only [List.forall_mem_map, lineAt?_nil_append_newline, List.forall_mem_cons, ne_eq,
      Option.some.injEq]
    exact ⟨by decide, fun text htext => (h text htext).2⟩

/-- A region with one handler keeps it. -/
theorem keptHandler?_text (hname : Unbroken method.name)
    (h : ∀ text ∈ texts, '\n' ∉ text ∧ trimEnd text ≠ ['\x7d']) (other : Method) :
    keptHandler? [] ((handlerWith method texts).text []) other =
      if (handlerSignature method).toList = (handlerSignature other).toList then
        some (handlerWith method texts)
      else none := by
  have hfound : FunctionText.ofText []
      (joinWith ['\n'] ([handlerWith method texts].map fun f => f.text [])) =
        [handlerWith method texts] :=
    FunctionText.ofText_joined (by simp)
      (List.forall_mem_singleton.mpr (isWhole_handlerWith hname h))
  have htext : joinWith ['\n'] ([handlerWith method texts].map fun f => f.text []) =
      (handlerWith method texts).text [] := by
    simp [joinWith]
  have hsignature : (handlerWith method texts).signature = (handlerSignature method).toList := rfl
  rw [htext] at hfound
  simp [keptHandler?, hfound, List.find?_singleton, hsignature]

/-- A handler whose signature stands in one that is kept is defined there and in its place. -/
theorem one_lt_linesWith_handlerText (hname : Unbroken method.name) (hother : Unbroken other.name)
    (h : ∀ text ∈ texts, '\n' ∉ text ∧ trimEnd text ≠ ['\x7d'])
    (hmem : (handlerSignature other).toList ∈ texts)
    (hne : (handlerSignature method).toList ≠ (handlerSignature other).toList) :
    1 < FunctionText.linesWith [] (handlerSignature other).toList
      (handlerText [] ((handlerWith method texts).text []) [method, other]) := by
  have hkept : writtenHandler [] ((handlerWith method texts).text []) method =
      handlerWith method texts := by
    rw [writtenHandler_eq, keptHandler?_text hname h, if_pos rfl, Option.getD_some]
  have hbody : FunctionText.linesWith [] (handlerSignature other).toList
      (handlerWith method texts).body ≠ 0 := by
    rw [ne_eq, FunctionText.linesWith_eq_zero_iff,
      inclusiveLines_handlerWith fun text htext => (h text htext).1]
    intro hnone
    refine hnone _ (List.mem_map_of_mem (List.mem_cons_of_mem _ (List.mem_append_left _ hmem))) ?_
    rw [lineAt?_nil_append_newline, trimEnd_handlerSignature]
  rw [linesWith_handlerText _ (by simpa using hne) (by simp [hname, hother]) (by simp) (by simp)]
  simp only [List.map_cons, List.sum_cons, hkept]
  omega

end Kept

def askMethod : Method := ⟨Naming.entity "auth.ask", 1, .plain "bool", [], none, false⟩

def tellMethod : Method := ⟨Naming.entity "auth.tell", 2, .plain "bool", [], none, false⟩

/-- A handler that is written already. -/
def askHandler : FunctionText := handlerWith askMethod ["    ask();".toList]

/-- The handler that is there is kept, and the other one is defined once, behind it, by a stub. -/
theorem linesWith_handlerDefinitions_askHandler :
    keptHandler? [] (askHandler.text []) askMethod = some askHandler ∧
    (handlerDefinitions (some (String.ofList (askHandler.text []))) ""
      [askMethod, tellMethod]).toList =
        ("void CTelegramConnection::processAuthAsk(RpcProcessingContext *context)\n" ++
          "\x7b\n    ask();\n\x7d\n\n" ++
          "void CTelegramConnection::processAuthTell(RpcProcessingContext *context)\n" ++
          "\x7b\n    qWarning() << Q_FUNC_INFO << \"is not implemented yet\";\n" ++
          "    bool result;\n    context->inputStream() >> result;\n\x7d\n").toList ∧
    FunctionText.linesWith [] (handlerSignature tellMethod).toList
      (handlerDefinitions (some (String.ofList (askHandler.text []))) ""
        [askMethod, tellMethod]).toList = 1 := by
  have hname : Unbroken askMethod.name := by decide +kernel
  have htexts : ∀ text ∈ ["    ask();".toList], '\n' ∉ text ∧ trimEnd text ≠ ['\x7d'] := by
    decide +kernel
  have hne : (handlerSignature askMethod).toList ≠ (handlerSignature tellMethod).toList := by
    decide +kernel
  have hask : keptHandler? [] (askHandler.text []) askMethod = some askHandler := by
    rw [askHandler, keptHandler?_text hname htexts, if_pos rfl]
  have htell : keptHandler? [] (askHandler.text []) tellMethod = none := by
    rw [askHandler, keptHandler?_text hname htexts, if_neg hne]
  have hformatted : ∀ other ∈ [askMethod, tellMethod], ∃ name,
      other.name = Naming.entity name := by
    simp only [List.forall_mem_cons]
    exact ⟨⟨"auth.ask", rfl⟩, ⟨"auth.tell", rfl⟩, by simp⟩
  have hbody : ∀ line ∈ inclusiveLines askHandler.body,
      FunctionText.lineAt? [] line ≠ some (handlerSignature tellMethod).toList := by
    rw [askHandler, inclusiveLines_handlerWith fun text htext => (htexts text htext).1]
    decide +kernel
  obtain ⟨-, hlayout, -, honce⟩ := @linesWith_handlerDefinitions [askMethod, tellMethod] tellMethod
    (some (String.ofList (askHandler.text []))) "" (by decide) hformatted (by decide +kernel)
    (by decide +kernel) (by simp)
  rw [String.toList_empty, Option.getD_some, String.toList_ofList] at hlayout honce
  refine ⟨hask, ?_, (honce (by decide +kernel)).mpr ?_⟩
  · rw [hlayout, List.map_cons, List.map_singleton, writtenHandler_eq, writtenHandler_eq, hask,
      htell]
    decide +kernel
  · simpa [hask, htell] using hbody

/-- A method whose name is on two lines. -/
def splitMethod : Method := ⟨Naming.entity "auth.a\nb", 3, .plain "bool", [], none, false⟩

/-- A handler with another one in a comment. -/
def mentioning : FunctionText :=
  handlerWith askMethod ["/*".toList, (handlerSignature tellMethod).toList, "*/".toList]

/-- A handler that is closed by a brace with a semicolon, and that runs on into another one. -/
def runningOn : FunctionText :=
  handlerWith askMethod
    ["\x7d;".toList, [], (handlerSignature tellMethod).toList, ['\x7b']]

/-- Methods with different names are not enough: a signature may stand in a body that is kept, be it
in a comment or because the body runs on, and one with a line feed stands on no line. -/
theorem linesWith_not_once :
    (∀ method ∈ [askMethod, tellMethod, splitMethod], ∃ name,
      method.name = Naming.entity name) ∧
    ([askMethod, tellMethod, splitMethod].map (·.name)).Nodup ∧
    (∀ kept ∈ [mentioning, runningOn],
      1 < FunctionText.linesWith [] (handlerSignature tellMethod).toList
        (handlerDefinitions (some (String.ofList (kept.text []))) ""
          [askMethod, tellMethod]).toList) ∧
    FunctionText.linesWith [] (handlerSignature splitMethod).toList
      (handlerDefinitions none "" [splitMethod]).toList = 0 := by
  have hask : Unbroken askMethod.name := by decide +kernel
  have htell : Unbroken tellMethod.name := by decide +kernel
  have hsignature := (unbroken_handlerSignature htell).newline_notMem
  have hbrace : trimEnd (handlerSignature tellMethod).toList ≠ ['\x7d'] := by
    rw [trimEnd_handlerSignature]
    exact (ne_handlerSignature (by decide) tellMethod).symm
  have hne : (handlerSignature askMethod).toList ≠ (handlerSignature tellMethod).toList := by
    decide +kernel
  refine ⟨?_, by decide +kernel, ?_, ?_⟩
  · simp only [List.forall_mem_cons]
    exact ⟨⟨"auth.ask", rfl⟩, ⟨"auth.tell", rfl⟩, ⟨"auth.a\nb", rfl⟩, by simp⟩
  · simp only [List.forall_mem_cons]
    refine ⟨?_, ?_, by simp⟩ <;>
      rw [toList_handlerDefinitions, Option.getD_some, String.toList_empty, String.toList_ofList]
    · refine one_lt_linesWith_handlerText hask htell ?_ (by simp) hne
      simp only [List.forall_mem_cons]
      exact ⟨by decide, ⟨hsignature, hbrace⟩, by decide, by simp⟩
    · refine one_lt_linesWith_handlerText hask htell ?_ (by simp) hne
      simp only [List.forall_mem_cons]
      exact ⟨by decide, by decide, ⟨hsignature, hbrace⟩, by decide, by simp⟩
  · exact FunctionText.linesWith_of_newline (by decide +kernel) _ _

end Emit
end TypeLang
