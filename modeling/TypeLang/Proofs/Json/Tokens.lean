import TypeLang.Json.Node

/-!
# The tokens of a document

Documents are read from sequences of tokens, each from one sequence only: `ofTokens?` accepts a
sequence just when it is the tokens of a document, and reads that document. In one direction the
reader is followed through the tokens of a tree, in the other every place of the reader tells which
tokens it stands behind.
-/
namespace TypeLang.Json

namespace Node

/-- What holds of scalars, and of lists and records when it holds of all that they contain, holds
of every document. -/
@[elab_as_elim]
theorem tree_induction {P : Node → Prop} (null : P .null) (truth : ∀ value, P (.truth value))
    (number : ∀ numeral, P (.number numeral)) (text : ∀ quoted, P (.text quoted))
    (list : ∀ items, (∀ item ∈ items, P item) → P (.list items))
    (record : ∀ entries, (∀ entry ∈ entries, P entry.2) → P (.record entries)) (node : Node) :
    P node :=
  match node with
  | .null => null
  | .truth value => truth value
  | .number numeral => number numeral
  | .text quoted => text quoted
  | .list items => list items fun item _ =>
    tree_induction null truth number text list record item
  | .record entries => record entries fun entry hentry =>
    have hlt : sizeOf entry.2 < sizeOf entries := by
      have := List.sizeOf_lt_of_mem hentry
      cases entry
      simp at this ⊢
      omega
    tree_induction null truth number text list record entry.2

mutual

def tokens : Node → List Token
  | .null => [.null]
  | .truth value => [.truth value]
  | .number numeral => [.number numeral]
  | .text quoted => [.text quoted]
  | .list [] => [.listOpen, .listClose]
  | .list (item :: items) => .listOpen :: tokens item ++ itemTokens items ++ [.listClose]
  | .record [] => [.recordOpen, .recordClose]
  | .record ((key, node) :: entries) =>
    .recordOpen :: .text key :: .colon :: tokens node ++ entryTokens entries ++ [.recordClose]

def itemTokens : List Node → List Token
  | [] => []
  | item :: items => .comma :: tokens item ++ itemTokens items

def entryTokens : List (Quoted × Node) → List Token
  | [] => []
  | (key, node) :: entries => .comma :: .text key :: .colon :: tokens node ++ entryTokens entries

end

def tokensOfEntry (entry : Quoted × Node) : List Token :=
  .text entry.1 :: .colon :: entry.2.tokens

theorem itemTokens_eq (items : List Node) :
    itemTokens items = items.flatMap fun item => .comma :: item.tokens := by
  induction items with
  | nil => rfl
  | cons item items ih => rw [itemTokens, ih, List.flatMap_cons]

theorem entryTokens_eq (entries : List (Quoted × Node)) :
    entryTokens entries = entries.flatMap fun entry => .comma :: tokensOfEntry entry := by
  induction entries with
  | nil => rfl
  | cons entry entries ih =>
    rw [entryTokens, ih, List.flatMap_cons]
    rfl

theorem tokens_list_cons (item : Node) (items : List Node) : (Node.list (item :: items)).tokens =
    .listOpen :: (item.tokens ++ items.flatMap (fun item => .comma :: item.tokens)) ++
      [.listClose] := by
  rw [tokens, itemTokens_eq]
  rfl

theorem tokens_record_cons (entry : Quoted × Node) (entries : List (Quoted × Node)) :
    (Node.record (entry :: entries)).tokens = .recordOpen :: (tokensOfEntry entry ++
      entries.flatMap (fun entry => .comma :: tokensOfEntry entry)) ++ [.recordClose] := by
  rw [tokens, entryTokens_eq]
  rfl

/-- Closing brackets begin no document. -/
theorem exists_tokens_eq_cons (node : Node) :
    ∃ token rest, node.tokens = token :: rest ∧ token ≠ .listClose := by
  cases node with
  | list items => cases items <;> exact ⟨_, _, rfl, nofun⟩
  | record entries => rcases entries with - | ⟨⟨key, node⟩, entries⟩ <;> exact ⟨_, _, rfl, nofun⟩
  | _ => exact ⟨_, _, rfl, nofun⟩

/-! ## Following the tokens of a tree -/

namespace Place

theorem step_firstItem {token : Token} (h : token ≠ .listClose) (stack : List Frame) :
    step (.firstItem stack) token = beginNode (.list [] :: stack) token := by
  cases token <;> first | rfl | exact absurd rfl h

/-- The tokens of items are read as these items. -/
theorem foldlM_items {items : List Node}
    (h : ∀ item ∈ items, ∀ stack, item.tokens.foldlM step (.node stack) = some (put item stack))
    (read : List Node) (stack : List Frame) :
    (itemTokens items).foldlM step (.afterItem read stack) =
      some (.afterItem (items.reverse ++ read) stack) := by
  induction items generalizing read with
  | nil => rfl
  | cons item items ih =>
    obtain ⟨hitem, hitems⟩ := List.forall_mem_cons.mp h
    have hcomma : ∀ tokens, (Token.comma :: tokens).foldlM step (.afterItem read stack) =
        tokens.foldlM step (.node (.list read :: stack)) := fun _ => rfl
    rw [itemTokens, List.cons_append, hcomma, List.foldlM_append, hitem, Option.bind_eq_bind,
      Option.bind_some, put, ih hitems, List.reverse_cons, List.append_assoc]
    rfl

/-- The tokens of entries are read as these entries. -/
theorem foldlM_entries {entries : List (Quoted × Node)}
    (h : ∀ entry ∈ entries, ∀ stack,
      entry.2.tokens.foldlM step (.node stack) = some (put entry.2 stack))
    (read : List (Quoted × Node)) (stack : List Frame) :
    (entryTokens entries).foldlM step (.afterEntry read stack) =
      some (.afterEntry (entries.reverse ++ read) stack) := by
  induction entries generalizing read with
  | nil => rfl
  | cons entry entries ih =>
    obtain ⟨key, node⟩ := entry
    obtain ⟨hentry, hentries⟩ := List.forall_mem_cons.mp h
    have hkey : ∀ tokens, (Token.comma :: .text key :: .colon :: tokens).foldlM step
        (.afterEntry read stack) = tokens.foldlM step (.node (.record read key :: stack)) :=
      fun _ => rfl
    rw [entryTokens, List.cons_append, List.cons_append, List.cons_append, hkey,
      List.foldlM_append, hentry, Option.bind_eq_bind, Option.bind_some, put, ih hentries,
      List.reverse_cons, List.append_assoc]
    rfl

/-- Behind the tokens of a document the document has been read. -/
theorem foldlM_tokens (node : Node) : ∀ stack,
    node.tokens.foldlM step (.node stack) = some (put node stack) := by
  induction node using tree_induction with
  | null => exact fun _ => rfl
  | truth value => exact fun _ => rfl
  | number numeral => exact fun _ => rfl
  | text quoted => exact fun _ => rfl
  | list items ih =>
    intro stack
    cases items with
    | nil => rfl
    | cons item items =>
      obtain ⟨hitem, hitems⟩ := List.forall_mem_cons.mp ih
      have hfirst : item.tokens.foldlM step (.firstItem stack) =
          some (.afterItem [item] stack) := by
        obtain ⟨token, rest, htokens, hclose⟩ := exists_tokens_eq_cons item
        have hnode := hitem (.list [] :: stack)
        rw [htokens, List.foldlM_cons] at hnode ⊢
        rw [step_firstItem hclose]
        exact hnode
      have hopen : ∀ tokens, (Token.listOpen :: tokens).foldlM step (.node stack) =
          tokens.foldlM step (.firstItem stack) := fun _ => rfl
      rw [tokens, List.cons_append, List.cons_append, hopen, List.append_assoc,
        List.foldlM_append, hfirst, Option.bind_eq_bind, Option.bind_some, List.foldlM_append,
        foldlM_items hitems, Option.bind_eq_bind, Option.bind_some]
      simp [step]
  | record entries ih =>
    intro stack
    rcases entries with - | ⟨⟨key, node⟩, entries⟩
    · rfl
    · obtain ⟨hnode, hentries⟩ := List.forall_mem_cons.mp ih
      have hopen : ∀ tokens, (Token.recordOpen :: .text key :: .colon :: tokens).foldlM step
          (.node stack) = tokens.foldlM step (.node (.record [] key :: stack)) := fun _ => rfl
      rw [tokens, List.cons_append, List.cons_append, List.cons_append, List.cons_append,
        List.cons_append, List.cons_append, hopen, List.append_assoc, List.foldlM_append, hnode,
        Option.bind_eq_bind, Option.bind_some, put, List.foldlM_append, foldlM_entries hentries,
        Option.bind_eq_bind, Option.bind_some]
      simp [step]

end Place

theorem ofTokens?_tokens (node : Node) : ofTokens? node.tokens = some node := by
  rw [ofTokens?, Place.foldlM_tokens]
  rfl

/-! ## The tokens behind which a reader stands -/

namespace Place

/-- The tokens of a list or record that is open, up to where its next item or value begins. -/
def frameTokens : Frame → List Token
  | .list items => .listOpen :: items.reverse.flatMap fun item => item.tokens ++ [.comma]
  | .record entries key =>
    .recordOpen :: (entries.reverse.flatMap fun entry => tokensOfEntry entry ++ [.comma]) ++
      [.text key, .colon]

/-- The tokens of all that is open, outermost first. -/
def stackTokens (stack : List Frame) : List Token := stack.reverse.flatMap frameTokens

theorem stackTokens_cons (frame : Frame) (stack : List Frame) :
    stackTokens (frame :: stack) = stackTokens stack ++ frameTokens frame := by
  simp [stackTokens]

/-- The reader stands at a place when these tokens have been read. -/
def IsBehind (tokens : List Token) : Place → Prop
  | .node stack => tokens = stackTokens stack
  | .firstItem stack => tokens = stackTokens stack ++ [.listOpen]
  | .afterItem items stack => ∃ item earlier, items = item :: earlier ∧
      tokens = stackTokens (.list earlier :: stack) ++ item.tokens
  | .firstKey stack => tokens = stackTokens stack ++ [.recordOpen]
  | .nextKey entries stack => tokens = stackTokens stack ++ .recordOpen ::
      entries.reverse.flatMap fun entry => tokensOfEntry entry ++ [.comma]
  | .colon entries key stack => tokens = stackTokens stack ++ .recordOpen ::
      (entries.reverse.flatMap fun entry => tokensOfEntry entry ++ [.comma]) ++ [.text key]
  | .afterEntry entries stack => ∃ key node earlier, entries = (key, node) :: earlier ∧
      tokens = stackTokens (.record earlier key :: stack) ++ node.tokens
  | .done root => tokens = root.tokens

theorem isBehind_put (node : Node) (stack : List Frame) :
    IsBehind (stackTokens stack ++ node.tokens) (put node stack) := by
  rcases stack with - | ⟨items | ⟨entries, key⟩, stack⟩
  · exact rfl
  · exact ⟨node, items, rfl, rfl⟩
  · exact ⟨key, node, entries, rfl, rfl⟩

theorem isBehind_beginNode {stack : List Frame} {token : Token} {place : Place}
    (h : beginNode stack token = some place) : IsBehind (stackTokens stack ++ [token]) place := by
  cases token <;> cases h
  all_goals first | exact isBehind_put _ stack | exact rfl

/-- Commas in front of all items but the first are commas behind all items but the last. -/
theorem flatMap_comma {α : Type} (f : α → List Token) (first : α) (others : List α) (last : α) :
    f first ++ (others ++ [last]).flatMap (fun a => .comma :: f a) =
      (first :: others).flatMap (fun a => f a ++ [.comma]) ++ f last := by
  induction others generalizing first with
  | nil => simp
  | cons second others ih =>
    have hsecond := ih second
    rw [List.cons_append, List.flatMap_cons, List.cons_append, hsecond, List.flatMap_cons]
    simp

theorem tokens_list_concat (items : List Node) (item : Node) :
    (Node.list (items ++ [item])).tokens = frameTokens (.list items.reverse) ++ item.tokens ++
      [.listClose] := by
  rw [frameTokens, List.reverse_reverse]
  cases items with
  | nil => simp [tokens_list_cons]
  | cons first items =>
    have hcommas := flatMap_comma Node.tokens first items item
    rw [List.cons_append, tokens_list_cons, hcommas]
    simp

theorem tokens_record_concat (entries : List (Quoted × Node)) (key : Quoted) (node : Node) :
    (Node.record (entries ++ [(key, node)])).tokens =
      frameTokens (.record entries.reverse key) ++ node.tokens ++ [.recordClose] := by
  rw [frameTokens, List.reverse_reverse]
  cases entries with
  | nil => simp [tokens_record_cons, tokensOfEntry]
  | cons first entries =>
    have hcommas := flatMap_comma tokensOfEntry first entries (key, node)
    rw [List.cons_append, tokens_record_cons, hcommas]
    simp [tokensOfEntry]

/-- One more token is behind the place that it leads to. -/
theorem isBehind_step {tokens : List Token} {place place' : Place} {token : Token}
    (h : IsBehind tokens place) (hstep : step place token = some place') :
    IsBehind (tokens ++ [token]) place' := by
  cases place with
  | node stack =>
    obtain rfl := h
    exact isBehind_beginNode hstep
  | firstItem stack =>
    obtain rfl := h
    by_cases hclose : token = .listClose
    · rw [hclose] at hstep ⊢
      cases hstep
      rw [List.append_assoc]
      exact isBehind_put (.list []) stack
    · -- Anything but a closing bracket begins the first item of an open list.
      rw [step_firstItem hclose] at hstep
      have hbegin := isBehind_beginNode hstep
      rwa [stackTokens_cons] at hbegin
  | afterItem items stack =>
    obtain ⟨item, earlier, rfl, rfl⟩ := h
    cases token <;> cases hstep
    · have hclosed := isBehind_put (.list (item :: earlier).reverse) stack
      rw [List.reverse_cons, tokens_list_concat, List.reverse_reverse] at hclosed
      rw [stackTokens_cons, List.append_assoc, List.append_assoc]
      simpa using hclosed
    · simp [IsBehind, stackTokens_cons, frameTokens]
  | firstKey stack =>
    obtain rfl := h
    cases token <;> cases hstep
    · rw [List.append_assoc]
      exact isBehind_put (.record []) stack
    · simp [IsBehind]
  | nextKey entries stack =>
    obtain rfl := h
    cases token <;> cases hstep
    simp [IsBehind]
  | colon entries key stack =>
    obtain rfl := h
    cases token <;> cases hstep
    simp [IsBehind, stackTokens_cons, frameTokens]
  | afterEntry entries stack =>
    obtain ⟨key, node, earlier, rfl, rfl⟩ := h
    cases token <;> cases hstep
    · have hclosed := isBehind_put (.record ((key, node) :: earlier).reverse) stack
      rw [List.reverse_cons, tokens_record_concat, List.reverse_reverse] at hclosed
      rw [stackTokens_cons]
      simpa using hclosed
    · simp [IsBehind, stackTokens_cons, frameTokens, tokensOfEntry]
  | done root => cases hstep

/-- The tokens that were read are behind the place that they lead to. -/
theorem isBehind_foldlM {tokens read : List Token} {place place' : Place}
    (h : IsBehind read place) (hrun : tokens.foldlM step place = some place') :
    IsBehind (read ++ tokens) place' := by
  induction tokens generalizing read place with
  | nil =>
    cases hrun
    rwa [List.append_nil]
  | cons token tokens ih =>
    rw [List.foldlM_cons, Option.bind_eq_bind, Option.bind_eq_some_iff] at hrun
    obtain ⟨next, hstep, hrun⟩ := hrun
    rw [List.append_cons]
    exact ih (isBehind_step h hstep) hrun

end Place

/-- Documents are read from their tokens, and from nothing else. -/
theorem ofTokens?_eq_some_iff {tokens : List Token} {node : Node} :
    ofTokens? tokens = some node ↔ tokens = node.tokens := by
  constructor
  · intro h
    rw [ofTokens?] at h
    split at h
    · next root hrun =>
      cases h
      have hstart : Place.IsBehind [] (.node []) := rfl
      exact Place.isBehind_foldlM hstart hrun
    · cases h
  · rintro rfl
    exact ofTokens?_tokens node

end Node

end TypeLang.Json
