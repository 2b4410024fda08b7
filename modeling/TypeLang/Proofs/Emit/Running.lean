import TypeLang.Emit.Request
import TypeLang.Proofs.Success
import TypeLang.Proofs.Text.Pieces

/-!
# Running the emitted statements

What emitted code streams, read off its lines. A line that opens a condition is taken apart into the
flags word and the bit that it looks at, a line that streams a member into that member, and
`Emit.run` collects what is streamed when the flags words have given values. Running the code of
transfers gives the transfers back whose gates are open.
-/
namespace TypeLang

open Text

/-- Whether the bit of a gate is set, with the flags words by their member names. -/
def FieldGate.isSet (words : String → UInt32) (g : FieldGate) : Bool :=
  words g.member &&& (1 <<< UInt32.ofNat g.bit.val) != 0

/-- Whether a transfer takes place. -/
def Transfer.runs (words : String → UInt32) (t : Transfer) : Bool :=
  t.gate.all fun g => g.isSet words

namespace CodeLine

/-- What a line says, wherever it stands. -/
def statement : CodeLine → String
  | blank => ""
  | code _ text => text

end CodeLine

namespace Code

def statements (code : Code) : List String := code.map CodeLine.statement

@[simp] theorem statements_nil : statements [] = [] := rfl

@[simp] theorem statements_append (a b : Code) :
    statements (a ++ b) = statements a ++ statements b := List.map_append

@[simp] theorem statements_line (text : String) : statements (line text) = [text] := rfl

@[simp] theorem statements_blank : statements blank = [""] := rfl

@[simp] theorem statements_nest (code : Code) : statements (nest code) = statements code := by
  simp only [statements, nest, List.map_map]
  refine List.map_congr_left fun l _ => ?_
  cases l <;> rfl

/-- Sources are shown as comments. -/
theorem mem_statements_source {shown : Bool} {source : Option String} {line : String}
    (h : line ∈ (Code.source shown source).statements) : ∃ text ∈ source, line = "// " ++ text := by
  simp only [Code.source] at h
  split at h
  · simpa [statements, Code.line, CodeLine.statement, eq_comm] using h
  · simp at h

@[simp] theorem statements_flatMap {α : Type} (f : α → Code) (as : List α) :
    statements (as.flatMap f) = as.flatMap fun a => statements (f a) := by
  simp only [statements, List.map_flatMap]

end Code

namespace Emit

/-! ## Reading lines -/

/-- What closes a condition on a bit, behind the flags word. -/
def conditionEnd (bit : Fin 32) : List Char :=
  " & 1 << ".toList ++ (Nat.toDigits 10 bit.val ++ (")".toList ++ " \x7b".toList))

/-- The text in front of `last`, when it ends with that. -/
def dropEnd? (last cs : List Char) : Option (List Char) :=
  (dropStart? last.reverse cs.reverse).map List.reverse

/-- The gate that a line opens a condition on. -/
def condition? (owner line : String) : Option FieldGate :=
  (dropStart? ("if (" ++ owner).toList line.toList).bind fun cs =>
    (List.finRange 32).findSome? fun bit =>
      (dropEnd? (conditionEnd bit) cs).map fun member => ⟨String.ofList member, bit⟩

/-- The member of `owner` that a line streams. -/
def streamed? (stream operator owner line : String) : Option String :=
  (dropStart? (stream ++ " " ++ operator ++ " " ++ owner).toList line.toList).bind fun cs =>
    (dropLast? ';' cs).map String.ofList

/-- What a sequence of lines streams: the members of `owner` outside conditions, and those inside
of a condition whose bit is set. -/
def run (stream operator owner : String) (words : String → UInt32) :
    Option FieldGate → List String → List Transfer
  | _, [] => []
  | gate, line :: lines =>
    match condition? owner line with
    | some g => run stream operator owner words (some g) lines
    | none =>
      if line = "\x7d" then run stream operator owner words none lines
      else
        let rest := run stream operator owner words gate lines
        match streamed? stream operator owner line with
        | some member => if Transfer.runs words ⟨gate, member⟩ then ⟨gate, member⟩ :: rest else rest
        | none => rest

/-! ## Lines that were emitted -/

theorem eq_of_conditionEnd_suffix {i j : Fin 32} (h : conditionEnd i <:+ conditionEnd j) :
    i = j := by
  revert i j
  decide +kernel

theorem dropEnd?_append (front last : List Char) : dropEnd? last (front ++ last) = some front := by
  rw [dropEnd?, List.reverse_append, dropStart?_append, Option.map_some, List.reverse_reverse]

theorem suffix_of_dropEnd? {last cs front : List Char} (h : dropEnd? last cs = some front) :
    last <:+ cs := by
  simp only [dropEnd?, Option.map_eq_some_iff] at h
  obtain ⟨rest, hrest, -⟩ := h
  have := append_of_dropStart? hrest
  exact List.reverse_prefix.mp ⟨rest, this⟩

/-- Of ends none of which is an end of another, the one that closes a text is found. -/
theorem findSome?_dropEnd? {α : Type} {ends : Fin 32 → List Char}
    (hends : ∀ {i j}, ends i <:+ ends j → i = j) (f : Fin 32 → List Char → α) (bit : Fin 32)
    (front : List Char) :
    ((List.finRange 32).findSome? fun i => (dropEnd? (ends i) (front ++ ends bit)).map (f i)) =
      some (f bit front) := by
  refine findSome?_eq_of_forall ⟨bit, List.mem_finRange _, ?_⟩ fun i _ => ?_
  · rw [dropEnd?_append, Option.map_some]
  · cases hfront : dropEnd? (ends i) (front ++ ends bit) with
    | none => exact .inl rfl
    | some other =>
      -- Both ends are ends of one text, so one of them is an end of the other.
      have hbit : i = bit := by
        rcases List.suffix_or_suffix_of_suffix (suffix_of_dropEnd? hfront)
          (List.suffix_append _ _) with h | h
        · exact hends h
        · exact (hends h).symm
      rw [hbit, dropEnd?_append, Option.some.injEq] at hfront
      exact .inr (by rw [hbit, ← hfront, Option.map_some])

theorem toList_bit (owner : String) (g : FieldGate) : (Code.bit owner g).toList =
    owner.toList ++ (g.member.toList ++ (" & 1 << ".toList ++ Nat.toDigits 10 g.bit.val)) := by
  have hdigits : (toString g.bit.val).toList = Nat.toDigits 10 g.bit.val := by
    rw [Nat.toString_eq_repr, Nat.toList_repr]
  rw [Code.bit, String.toList_append, String.toList_append, String.toList_append, hdigits]
  simp only [List.append_assoc]

/-- A condition is read back as the gate it was written for. -/
theorem condition?_bit (owner : String) (g : FieldGate) :
    condition? owner ("if (" ++ Code.bit owner g ++ ")" ++ " \x7b") = some g := by
  have hline : ("if (" ++ Code.bit owner g ++ ")" ++ " \x7b").toList =
      ("if (" ++ owner).toList ++ (g.member.toList ++ conditionEnd g.bit) := by
    simp only [String.toList_append, toList_bit]
    unfold conditionEnd
    simp only [List.append_assoc]
  have hfound := findSome?_dropEnd? eq_of_conditionEnd_suffix
    (fun bit member => (⟨String.ofList member, bit⟩ : FieldGate)) g.bit g.member.toList
  rw [condition?, hline, dropStart?_append, Option.bind_some, hfound, String.ofList_toList]

section Run

variable (stream operator owner : String) (words : String → UInt32) (gate : Option FieldGate)
  (lines : List String)

theorem run_condition (g : FieldGate) :
    run stream operator owner words gate
        (("if (" ++ Code.bit owner g ++ ")" ++ " \x7b") :: lines) =
      run stream operator owner words (some g) lines := by
  rw [run, condition?_bit]

/-- A closing brace ends the gate. -/
theorem run_close :
    run stream operator owner words gate ("\x7d" :: lines) =
      run stream operator owner words none lines := by
  have hopen : condition? owner "\x7d" = none := by
    simp [condition?, String.toList_append]
  rw [run, hopen]
  simp

variable {stream}

/-- A statement runs when its gate is open. -/
theorem run_statement (hstream : stream ∈ ["*this", "outputStream"]) (member : String) :
    run stream operator owner words gate
        ((stream ++ " " ++ operator ++ " " ++ owner ++ member ++ ";") :: lines) =
      (if Transfer.runs words ⟨gate, member⟩ then [⟨gate, member⟩] else []) ++
        run stream operator owner words gate lines := by
  have hline : (stream ++ " " ++ operator ++ " " ++ owner ++ member ++ ";").toList =
      (stream ++ " " ++ operator ++ " " ++ owner).toList ++ (member.toList ++ [';']) := by
    simp [String.toList_append]
  have hstreamed : streamed? stream operator owner
      (stream ++ " " ++ operator ++ " " ++ owner ++ member ++ ";") = some member := by
    rw [streamed?, hline, dropStart?_append, Option.bind_some]
    simp [dropLast?]
  simp only [List.mem_cons, List.not_mem_nil, or_false] at hstream
  have hopen : condition? owner
      (stream ++ " " ++ operator ++ " " ++ owner ++ member ++ ";") = none := by
    rcases hstream with rfl | rfl <;>
      simp [condition?, String.toList_append]
  have hclose : stream ++ " " ++ operator ++ " " ++ owner ++ member ++ ";" ≠ "\x7d" := by
    intro h
    have := congrArg String.toList h
    rcases hstream with rfl | rfl <;> simp [String.toList_append] at this
  rw [run, hopen]
  simp only [hclose, if_false, hstreamed]
  split <;> simp

/-- Running the code of a transfer streams its member if its gate is open. -/
theorem run_code (hstream : stream ∈ ["*this", "outputStream"]) (t : Transfer) :
    run stream operator owner words none
        ((t.code stream operator owner).statements ++ lines) =
      (if t.runs words then [t] else []) ++ run stream operator owner words none lines := by
  rcases t with ⟨gate, member⟩
  cases gate with
  | none => exact run_statement operator owner words none lines hstream member
  | some g =>
    simp only [Transfer.code, Code.gated, Code.braced, Code.statements_append, Code.statements_line,
      Code.statements_nest, List.cons_append, List.nil_append]
    rw [run_condition, run_statement _ _ _ _ _ hstream]
    have hend : "\x7d" ++ "" = "\x7d" := rfl
    rw [hend, run_close]

/-- Of transfers those run that have an open gate. -/
theorem run_codes (hstream : stream ∈ ["*this", "outputStream"]) (ts : List Transfer) :
    run stream operator owner words none
        (ts.flatMap (fun t => (t.code stream operator owner).statements) ++ lines) =
      ts.filter (·.runs words) ++ run stream operator owner words none lines := by
  induction ts with
  | nil => rfl
  | cons t ts ih =>
    rw [List.flatMap_cons, List.append_assoc, run_code _ _ _ _ hstream, ih, List.filter_cons]
    split <;> simp

end Run

end Emit

end TypeLang
