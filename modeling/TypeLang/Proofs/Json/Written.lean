import TypeLang.Proofs.Json.Entries
import TypeLang.Proofs.Json.Numerals
import TypeLang.Proofs.Json.Quoted
import TypeLang.Proofs.Json.Tokens

/-!
# Written documents

What is written for data is read as the same data, provided that its numbers are read back. The
written text is scanned into the tokens of a document of its own, `toNode`. Behind a value stands a
comma or a line feed, which closes a numeral and is scanned as usual.
-/
namespace TypeLang.Json

namespace Data

/-- Every number is read from what is written for it. -/
inductive ReadsBack : Data → Prop
  | null : ReadsBack .null
  | truth (value : Bool) : ReadsBack (.truth value)
  | number {value : Number} (h : value.ReadsBack) : ReadsBack (.number value)
  | text (value : String) : ReadsBack (.text value)
  | list {items : List Data} (h : ∀ item ∈ items, ReadsBack item) : ReadsBack (.list items)
  | record {entries : List (String × Data)} (h : ∀ entry ∈ entries, ReadsBack entry.2) :
    ReadsBack (.record entries)

mutual

/-- The document that data is written as. -/
def toNode : Data → Node
  | .null => .null
  | .truth value => .truth value
  | .number value => .number ((Numeral.read? value.text.toList).getD default)
  | .text value => .text (Quoted.ofText value)
  | .list items => .list (itemNodes items)
  | .record entries => .record (entryNodes entries)

/-- The documents of the items of a list. -/
def itemNodes : List Data → List Node
  | [] => []
  | item :: items => toNode item :: itemNodes items

/-- The documents of the entries of a record. -/
def entryNodes : List (String × Data) → List (Quoted × Node)
  | [] => []
  | (key, value) :: entries => (Quoted.ofText key, toNode value) :: entryNodes entries

end

/-! ## Scanning -/

/-- What stands behind a value. -/
def EndsValue (cs : List Char) : Prop := ∃ c rest, cs = c :: rest ∧ (c = ',' ∨ c = '\n')

theorem endsValue_newLine (depth : Nat) (cs : List Char) : EndsValue (newLine depth ++ cs) :=
  ⟨'\n', _, rfl, .inr rfl⟩

theorem endsValue_writeItems {cs : List Char} (h : EndsValue cs) (depth : Nat)
    (items : List Data) : EndsValue (writeItems depth items ++ cs) := by
  cases items with
  | nil => exact h
  | cons item items => exact ⟨',', _, rfl, .inl rfl⟩

theorem endsValue_writeEntries {cs : List Char} (h : EndsValue cs) (depth : Nat)
    (entries : List (String × Data)) : EndsValue (writeEntries depth entries ++ cs) := by
  cases entries with
  | nil => exact h
  | cons entry entries => exact ⟨',', _, rfl, .inl rfl⟩

end Data

namespace Token.Scan

open Data

variable {tokens : List Token} {cs rest read : List Char} {c : Char}

/-- The parts of a numeral are of ASCII. -/
theorem isNumeralPart_ascii (h : isNumeralPart c) : c.toNat < 0x80 ∧ isBlank c = false := by
  have hascii : c.toNat < 0x80 := by
    rcases Bool.or_eq_true_iff.mp h with hdigit | hsign
    · have hle : c.val ≤ 57 := by
        simp only [Char.isDigit, Bool.and_eq_true, decide_eq_true_eq] at hdigit
        exact hdigit.2
      exact Nat.lt_of_le_of_lt (UInt32.le_iff_toNat_le.mp hle) (by decide)
    · have hsigns : "+-.eE".toList.all fun d => d.toNat < 0x80 := by decide
      exact of_decide_eq_true (List.all_eq_true.mp hsigns c (List.contains_iff_mem.mp hsign))
  have hlookup : ∀ code < 0x80, isNumeralPart (Char.ofNat code) →
      isBlank (Char.ofNat code) = false := by decide +kernel
  have hblank := hlookup c.toNat hascii
  rw [Char.ofNat_toNat] at hblank
  exact ⟨hascii, hblank h⟩

theorem step_numeral (tokens : List Token) (read : List Char) (b : UInt8) :
    step ⟨tokens, .numeral read⟩ b =
      if isNumeralPart (Char.ofNat b.toNat) then
        some ⟨tokens, .numeral (Char.ofNat b.toNat :: read)⟩
      else (closeNumeral tokens read).bind fun tokens => start tokens (Char.ofNat b.toNat) := rfl

/-- The parts of a numeral are scanned as one. -/
theorem run_numeralParts (h : ∀ c ∈ cs, isNumeralPart c) (read rest : List Char) :
    run ⟨tokens, .numeral read⟩ (cs ++ rest) =
      run ⟨tokens, .numeral (cs.reverse ++ read)⟩ rest := by
  induction cs generalizing read with
  | nil => rfl
  | cons c cs ih =>
    obtain ⟨hc, hcs⟩ := List.forall_mem_cons.mp h
    have hascii := (isNumeralPart_ascii hc).1
    rw [List.cons_append, run_cons_of_ascii hascii, step_numeral, ofNat_toNat_ascii hascii,
      if_pos hc, Option.bind_some, ih hcs, List.reverse_cons, List.append_assoc]
    rfl

/-- A numeral is closed by what stands behind values. -/
theorem run_numeral {numeral : Numeral} (hread : Numeral.read? cs = some numeral)
    (hparts : ∀ c ∈ cs, isNumeralPart c) (hrest : EndsValue rest) :
    run ⟨tokens, .between⟩ (cs ++ rest) = run ⟨.number numeral :: tokens, .between⟩ rest := by
  cases cs with
  | nil => cases hread
  | cons c cs =>
    obtain ⟨hc, hcs⟩ := List.forall_mem_cons.mp hparts
    obtain ⟨hascii, hblank⟩ := isNumeralPart_ascii hc
    have hstart : start tokens c = some ⟨tokens, .numeral [c]⟩ := by
      simp [start, hblank, hc]
    have hclose : closeNumeral tokens (cs.reverse ++ [c]) = some (.number numeral :: tokens) := by
      rw [closeNumeral, List.reverse_append, List.reverse_reverse]
      exact congrArg (Option.map _) hread
    rw [List.cons_append, run_cons_of_ascii hascii, step_between, ofNat_toNat_ascii hascii, hstart,
      Option.bind_some, run_numeralParts hcs]
    obtain ⟨d, rest, rfl, hd⟩ := hrest
    -- The character behind a numeral closes it, and is taken once more between tokens.
    have hd : d.toNat < 0x80 ∧ isNumeralPart d = false := by
      rcases hd with rfl | rfl <;> decide
    rw [run_cons_of_ascii hd.1, run_cons_of_ascii hd.1, step_numeral, step_between,
      ofNat_toNat_ascii hd.1, hd.2, if_neg Bool.false_ne_true, hclose, Option.bind_some]

theorem run_comma (tokens : List Token) (cs : List Char) :
    run ⟨tokens, .between⟩ (',' :: cs) = run ⟨.comma :: tokens, .between⟩ cs := rfl

theorem run_colon (tokens : List Token) (cs : List Char) :
    run ⟨tokens, .between⟩ (": ".toList ++ cs) = run ⟨.colon :: tokens, .between⟩ cs := rfl

/-- New lines and indentation are passed over. -/
theorem run_newLine (depth : Nat) (rest : List Char) :
    run ⟨tokens, .between⟩ (newLine depth ++ rest) = run ⟨tokens, .between⟩ rest := by
  have hblanks : ∀ n, run ⟨tokens, .between⟩ (List.replicate n ' ' ++ rest) =
      run ⟨tokens, .between⟩ rest := by
    intro n
    induction n with
    | zero => rfl
    | succ n ih => exact ih
  exact hblanks (2 * depth)

/-- What is written for data is scanned into the tokens of its document, at any depth. -/
def IsScanned (data : Data) : Prop := ∀ depth tokens rest, EndsValue rest →
  run ⟨tokens, .between⟩ (data.write depth ++ rest) =
    run ⟨data.toNode.tokens.reverse ++ tokens, .between⟩ rest

/-- Written items are scanned as their tokens. -/
theorem run_write_items {items : List Data} (h : ∀ item ∈ items, IsScanned item) (depth : Nat)
    (tokens : List Token) (hrest : EndsValue rest) :
    run ⟨tokens, .between⟩ (writeItems depth items ++ rest) =
      run ⟨(Node.itemTokens (itemNodes items)).reverse ++ tokens, .between⟩ rest := by
  induction items generalizing tokens with
  | nil => rfl
  | cons item items ih =>
    obtain ⟨hitem, hitems⟩ := List.forall_mem_cons.mp h
    rw [writeItems, List.cons_append, List.cons_append, List.cons_append, run_comma,
      List.append_assoc, List.append_assoc, run_newLine,
      hitem _ _ _ (endsValue_writeItems hrest _ _), ih hitems, itemNodes, Node.itemTokens]
    simp

/-- Written entries are scanned as their tokens. -/
theorem run_write_entries {entries : List (String × Data)}
    (h : ∀ entry ∈ entries, IsScanned entry.2) (depth : Nat) (tokens : List Token)
    (hrest : EndsValue rest) :
    run ⟨tokens, .between⟩ (writeEntries depth entries ++ rest) =
      run ⟨(Node.entryTokens (entryNodes entries)).reverse ++ tokens, .between⟩ rest := by
  induction entries generalizing tokens with
  | nil => rfl
  | cons entry entries ih =>
    obtain ⟨key, value⟩ := entry
    obtain ⟨hvalue, hentries⟩ := List.forall_mem_cons.mp h
    rw [writeEntries, List.cons_append, List.cons_append, List.cons_append, List.cons_append,
      List.cons_append, run_comma, List.append_assoc, List.append_assoc, List.append_assoc,
      List.append_assoc, run_newLine, run_write, run_colon,
      hvalue _ _ _ (endsValue_writeEntries hrest _ _), ih hentries, entryNodes, Node.entryTokens]
    simp

/-- Data whose numerals read back is scanned as written. -/
theorem isScanned_of_readsBack {data : Data} (h : data.ReadsBack) : IsScanned data := by
  induction h with
  | null => exact fun _ _ _ _ => rfl
  | truth value => exact fun _ _ _ _ => by cases value <;> rfl
  | number h =>
    intro depth tokens rest hrest
    obtain ⟨numeral, hread, -⟩ := Option.bind_eq_some_iff.mp h.read
    rw [write, run_numeral hread h.isNumeralPart hrest, toNode, hread]
    rfl
  | text value => exact fun _ _ _ _ => run_write value _
  | @list items h ih =>
    intro depth tokens rest hrest
    cases items with
    | nil => rfl
    | cons item items =>
      obtain ⟨hitem, hitems⟩ := List.forall_mem_cons.mp ih
      have hopen : ∀ cs, run ⟨tokens, .between⟩ ('[' :: cs) =
          run ⟨.listOpen :: tokens, .between⟩ cs := fun _ => rfl
      have hclose : ∀ tokens cs, run ⟨tokens, .between⟩ (']' :: cs) =
          run ⟨.listClose :: tokens, .between⟩ cs := fun _ _ => rfl
      have hline := endsValue_newLine depth (']' :: rest)
      have hwrite : write depth (.list (item :: items)) ++ rest =
          '[' :: (newLine (depth + 1) ++ (item.write (depth + 1) ++
            (writeItems (depth + 1) items ++ (newLine depth ++ ']' :: rest)))) := by
        simp [write]
      rw [hwrite, hopen, run_newLine, hitem _ _ _ (endsValue_writeItems hline _ _),
        run_write_items hitems _ _ hline, run_newLine, hclose, toNode, itemNodes, Node.tokens]
      simp
  | @record entries h ih =>
    intro depth tokens rest hrest
    rcases entries with - | ⟨⟨key, value⟩, entries⟩
    · rfl
    · obtain ⟨hvalue, hentries⟩ := List.forall_mem_cons.mp ih
      have hopen : ∀ cs, run ⟨tokens, .between⟩ ('\x7b' :: cs) =
          run ⟨.recordOpen :: tokens, .between⟩ cs := fun _ => rfl
      have hclose : ∀ tokens cs, run ⟨tokens, .between⟩ ('\x7d' :: cs) =
          run ⟨.recordClose :: tokens, .between⟩ cs := fun _ _ => rfl
      have hline := endsValue_newLine depth ('\x7d' :: rest)
      have hwrite : write depth (.record ((key, value) :: entries)) ++ rest =
          '\x7b' :: (newLine (depth + 1) ++ (Quoted.write key ++ (": ".toList ++
            (value.write (depth + 1) ++
              (writeEntries (depth + 1) entries ++ (newLine depth ++ '\x7d' :: rest)))))) := by
        simp [write]
      rw [hwrite, hopen, run_newLine, run_write, run_colon,
        hvalue _ _ _ (endsValue_writeEntries hline _ _), run_write_entries hentries _ _ hline,
        run_newLine, hclose, toNode, entryNodes, Node.tokens]
      simp

end Token.Scan

namespace Data

/-- The bytes of the document that is written for data. -/
def documentBytes (data : Data) : List UInt8 :=
  Text.Utf8.encode (String.ofList (data.write 0 ++ ['\n']))

/-- A written document is read as the node it was written from. -/
theorem read?_documentBytes {data : Data} (h : data.ReadsBack) :
    Node.read? data.documentBytes = some data.toNode := by
  have hscan : Token.Scan.run ⟨[], .between⟩ (data.write 0 ++ ['\n']) =
      some ⟨data.toNode.tokens.reverse, .between⟩ := by
    rw [Token.Scan.isScanned_of_readsBack h _ _ _ ⟨'\n', [], rfl, .inr rfl⟩, List.append_nil]
    rfl
  have htokens : Token.ofBytes? data.documentBytes = some data.toNode.tokens := by
    rw [Token.ofBytes?, documentBytes, Text.Utf8.encode, String.toList_ofList]
    rw [Token.Scan.run] at hscan
    rw [hscan, Option.bind_some, Token.Scan.finish, List.reverse_reverse]
  rw [Node.read?, htokens, Option.bind_some, Node.ofTokens?_tokens]

/-! ## The content of written documents -/

theorem ofItems?_itemNodes {depth : Nat} {items : List Data}
    (h : ∀ item ∈ items, ofNode? depth item.toNode = some item) :
    ofItems? depth (itemNodes items) = some items := by
  induction items with
  | nil => rfl
  | cons item items ih =>
    obtain ⟨hitem, hitems⟩ := List.forall_mem_cons.mp h
    rw [itemNodes, ofItems?, hitem, ih hitems]
    rfl

theorem ofRecord?_entryNodes {depth : Nat} {entries : List (String × Data)}
    (h : ∀ entry ∈ entries, ofNode? depth entry.2.toNode = some entry.2) :
    ofRecord? depth (entryNodes entries) = some entries := by
  induction entries with
  | nil => rfl
  | cons entry entries ih =>
    obtain ⟨hentry, hentries⟩ := List.forall_mem_cons.mp h
    rw [entryNodes, ofRecord?, Quoted.text?_ofText, hentry, ih hentries]
    rfl

/-- Every item that is read comes from a node. -/
theorem mem_ofItems? {depth : Nat} {nodes : List Node} {items : List Data} {item : Data}
    (h : ofItems? depth nodes = some items) (hitem : item ∈ items) :
    ∃ node ∈ nodes, ofNode? depth node = some item := by
  induction nodes generalizing items with
  | nil =>
    cases h
    cases hitem
  | cons node nodes ih =>
    simp only [ofItems?, Option.bind_eq_bind, Option.bind_eq_some_iff, Option.pure_def,
      Option.some.injEq] at h
    obtain ⟨first, hfirst, others, hothers, rfl⟩ := h
    rcases List.mem_cons.mp hitem with rfl | hitem
    · exact ⟨node, List.mem_cons_self, hfirst⟩
    · obtain ⟨other, hother, hread⟩ := ih hothers hitem
      exact ⟨other, List.mem_cons_of_mem _ hother, hread⟩

/-- Every entry that is read comes from an entry. -/
theorem mem_ofRecord? {depth : Nat} {nodes : List (Quoted × Node)}
    {entries : List (String × Data)} {entry : String × Data}
    (h : ofRecord? depth nodes = some entries) (hentry : entry ∈ entries) :
    ∃ node ∈ nodes, node.1.text? = some entry.1 ∧ ofNode? depth node.2 = some entry.2 := by
  induction nodes generalizing entries with
  | nil =>
    cases h
    cases hentry
  | cons node nodes ih =>
    simp only [ofRecord?, Option.bind_eq_bind, Option.bind_eq_some_iff, Option.pure_def,
      Option.some.injEq] at h
    obtain ⟨key, hkey, value, hvalue, others, hothers, rfl⟩ := h
    rcases List.mem_cons.mp hentry with rfl | hentry
    · exact ⟨node, List.mem_cons_self, hkey, hvalue⟩
    · obtain ⟨other, hother, hread⟩ := ih hothers hentry
      exact ⟨other, List.mem_cons_of_mem _ hother, hread⟩

end Data

namespace Node

/-- The numbers of a document are integer literals in range. -/
def IsInteger (node : Node) : Prop := ∀ numeral, .number numeral ∈ node.tokens → numeral.IsInteger

theorem IsInteger.item {items : List Node} (h : (Node.list items).IsInteger) :
    ∀ item ∈ items, item.IsInteger := by
  intro item hitem numeral hnumeral
  apply h
  cases items with
  | nil => cases hitem
  | cons first items =>
    rw [tokens_list_cons]
    rcases List.mem_cons.mp hitem with rfl | hitem
    · simp [hnumeral]
    · have hmem : Token.number numeral ∈ items.flatMap fun item => .comma :: item.tokens :=
        List.mem_flatMap.mpr ⟨item, hitem, List.mem_cons_of_mem _ hnumeral⟩
      simp only [List.cons_append, List.mem_cons, List.mem_append, hmem, true_or, or_true]

theorem IsInteger.entry {entries : List (Quoted × Node)} (h : (Node.record entries).IsInteger) :
    ∀ entry ∈ entries, entry.2.IsInteger := by
  intro entry hentry numeral hnumeral
  apply h
  have hnumeral : Token.number numeral ∈ tokensOfEntry entry := by simp [tokensOfEntry, hnumeral]
  cases entries with
  | nil => cases hentry
  | cons first entries =>
    rw [tokens_record_cons]
    rcases List.mem_cons.mp hentry with rfl | hentry
    · simp [hnumeral]
    · have hmem : Token.number numeral ∈
          entries.flatMap fun entry => .comma :: tokensOfEntry entry :=
        List.mem_flatMap.mpr ⟨entry, hentry, List.mem_cons_of_mem _ hnumeral⟩
      simp only [List.cons_append, List.mem_cons, List.mem_append, hmem, true_or, or_true]

end Node

namespace Data

/-- What holds of what scalars say, and of what lists and records say when it holds of their parts,
holds of everything that a document says. Of a record only the entries that count matter. -/
@[elab_as_elim]
theorem ofNode?_induction {P : Nat → Node → Data → Prop} (null : ∀ depth, P depth .null .null)
    (truth : ∀ depth value, P depth (.truth value) (.truth value))
    (number : ∀ depth numeral value, numeral.number? = some value →
      P depth (.number numeral) (.number value))
    (text : ∀ depth quoted value, quoted.text? = some value → P depth (.text quoted) (.text value))
    (list : ∀ depth items contents, ofItems? depth items = some contents →
      (∀ content ∈ contents, ∃ item ∈ items, P depth item content) →
        P (depth + 1) (.list items) (.list contents))
    (record : ∀ depth entries contents, ofRecord? depth entries = some contents →
      (∀ content ∈ ofEntries contents, ∃ entry ∈ entries, P depth entry.2 content.2) →
        P (depth + 1) (.record entries) (.record (ofEntries contents)))
    {depth : Nat} {node : Node} {data : Data} (h : ofNode? depth node = some data) :
    P depth node data := by
  induction node using Node.tree_induction generalizing depth data with
  | null =>
    rw [ofNode?] at h
    cases h
    exact null depth
  | truth value =>
    rw [ofNode?] at h
    cases h
    exact truth depth value
  | number numeral =>
    rw [ofNode?] at h
    obtain ⟨value, hvalue, rfl⟩ := Option.map_eq_some_iff.mp h
    exact number depth numeral value hvalue
  | text quoted =>
    rw [ofNode?] at h
    obtain ⟨value, hvalue, rfl⟩ := Option.map_eq_some_iff.mp h
    exact text depth quoted value hvalue
  | list items ih =>
    cases depth with
    | zero => cases h
    | succ depth =>
      rw [ofNode?] at h
      obtain ⟨contents, hcontents, rfl⟩ := Option.map_eq_some_iff.mp h
      refine list depth items contents hcontents fun content hcontent => ?_
      obtain ⟨item, hitem, hread⟩ := mem_ofItems? hcontents hcontent
      exact ⟨item, hitem, ih item hitem hread⟩
  | record entries ih =>
    cases depth with
    | zero => cases h
    | succ depth =>
      rw [ofNode?] at h
      obtain ⟨contents, hcontents, rfl⟩ := Option.map_eq_some_iff.mp h
      refine record depth entries contents hcontents fun content hcontent => ?_
      obtain ⟨entry, hentry, -, hread⟩ := mem_ofRecord? hcontents (mem_ofEntries hcontent)
      exact ⟨entry, hentry, ih entry hentry hread⟩

/-- Integers in range are read back. -/
theorem readsBack_of_isInteger {depth : Nat} {node : Node} {data : Data}
    (h : ofNode? depth node = some data) (hinteger : node.IsInteger) : data.ReadsBack := by
  revert hinteger
  refine ofNode?_induction ?null ?truth ?number ?text ?list ?record h
  case null => exact fun _ _ => .null
  case truth => exact fun _ value _ => .truth value
  case number =>
    intro depth numeral value hvalue hinteger
    obtain ⟨other, hother, hback⟩ :=
      Numeral.exists_number?_of_isInteger (hinteger numeral (by simp [Node.tokens]))
    rw [hvalue] at hother
    cases hother
    exact .number hback
  case text => exact fun _ _ value _ _ => .text value
  case list =>
    intro depth items contents _ ih hinteger
    refine .list fun content hcontent => ?_
    obtain ⟨item, hitem, hback⟩ := ih content hcontent
    exact hback (hinteger.item item hitem)
  case record =>
    intro depth entries contents _ ih hinteger
    refine .record fun content hcontent => ?_
    obtain ⟨entry, hentry, hback⟩ := ih content hcontent
    exact hback (hinteger.entry entry hentry)

/-- What a document says is what the document that is written for it says. -/
theorem ofNode?_toNode {depth : Nat} {node : Node} {data : Data}
    (h : ofNode? depth node = some data) (hback : data.ReadsBack) :
    ofNode? depth data.toNode = some data := by
  revert hback
  refine ofNode?_induction ?null ?truth ?number ?text ?list ?record h
  case null =>
    intro depth _
    rw [toNode, ofNode?]
  case truth =>
    intro depth value _
    rw [toNode, ofNode?]
  case number =>
    intro depth numeral value _ hback
    cases hback with
    | number hback =>
      obtain ⟨read, hread, hnumber⟩ := Option.bind_eq_some_iff.mp hback.read
      rw [toNode, hread, ofNode?, Option.getD_some, hnumber, Option.map_some]
  case text =>
    intro depth quoted value _ _
    rw [toNode, ofNode?, Quoted.text?_ofText, Option.map_some]
  case list =>
    intro depth items contents _ ih hback
    cases hback with
    | list hback =>
      have hread : ∀ content ∈ contents, ofNode? depth content.toNode = some content :=
        fun content hcontent =>
          have ⟨_, _, hread⟩ := ih content hcontent
          hread (hback content hcontent)
      rw [toNode, ofNode?, ofItems?_itemNodes hread, Option.map_some]
  case record =>
    intro depth entries contents _ ih hback
    cases hback with
    | record hback =>
      have hread : ∀ content ∈ ofEntries contents,
          ofNode? depth content.2.toNode = some content.2 := fun content hcontent =>
        have ⟨_, _, hread⟩ := ih content hcontent
        hread (hback content hcontent)
      rw [toNode, ofNode?, ofRecord?_entryNodes hread, Option.map_some,
        ofEntries_of_isOrdered (isOrdered_ofEntries contents)]

end Data

end TypeLang.Json
