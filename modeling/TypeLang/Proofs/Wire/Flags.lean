import TypeLang.Proofs.Model.Gates
import TypeLang.Wire.Decode

/-!
# Flags words

A flags word is written from what is present and read as the state of its gates. A gate that is
looked up in the word of its name is open exactly when a field behind it is present.
-/
namespace TypeLang.Wire

/-! ## Bits of a word -/

/-- The bits of a word are told apart. -/
theorem bit_and_bit (i j : Fin 32) :
    ((1 : UInt32) <<< UInt32.ofNat i.val) &&& (1 <<< UInt32.ofNat j.val) = 0 ↔ i ≠ j := by
  revert i j
  decide +kernel

theorem or_and (a b mask : UInt32) : (a ||| b) &&& mask = (a &&& mask) ||| (b &&& mask) := by
  rw [← UInt32.toBitVec_inj]
  exact BitVec.and_or_distrib_right

/-- A mask misses a collection of words exactly when it misses each of them. -/
theorem foldl_or_and {α : Type} (word : α → UInt32) (as : List α) (start mask : UInt32) :
    (as.foldl (fun bits a => bits ||| word a) start) &&& mask = 0 ↔
      start &&& mask = 0 ∧ ∀ a ∈ as, word a &&& mask = 0 := by
  induction as generalizing start with
  | nil => simp
  | cons a as ih =>
    rw [List.foldl_cons, ih, or_and, UInt32.or_eq_zero_iff, List.forall_mem_cons, and_assoc]

/-- A reader that knows the words in scope knows them with the next one too. -/
theorem lookup_of_declared {known : List (String × UInt32)} {words : String → UInt32}
    {scope : List String} {f : Field} (hword : f.isWord)
    (h : ∀ name ∈ scope, known.lookup name = some (words name)) :
    ∀ name ∈ f.declared?.toList ++ scope,
      ((f.name, words f.name) :: known).lookup name = some (words name) := by
  intro name hname
  by_cases hsame : name = f.name
  · simp [hsame]
  · simp only [Field.declared?, hword, if_true, Option.toList_some, List.singleton_append,
      List.mem_cons, hsame, false_or] at hname
    rw [List.lookup_cons, beq_false_of_ne hsame]
    exact h name hname

/-! ## What a flags word says -/

namespace Supplied

variable (supplied : Supplied) (fields : List Field) (g : FieldGate)

/-- A field sets the bit of a gate exactly when it is behind the gate and present. -/
theorem bitOf_and (f : Field) :
    supplied.bitOf g.member f &&& (1 <<< UInt32.ofNat g.bit.val) = 0 ↔
      ¬(f.gate = some g ∧ supplied.has f) := by
  simp only [bitOf]
  cases hgate : f.gate with
  | none => simp
  | some k =>
    rcases k with ⟨member, bit⟩
    rcases g with ⟨word, other⟩
    by_cases hset : member = word ∧ supplied.has f
    · simp [hset, bit_and_bit]
    · simp only [hset, if_false, UInt32.zero_and, true_iff, Option.some.injEq, FieldGate.mk.injEq]
      exact fun h => hset ⟨h.1.1, h.2⟩

/-- The bit of a gate is set in its word exactly when a field behind the gate is present. -/
theorem flagsWord_and :
    supplied.flagsWord fields g.member &&& (1 <<< UInt32.ofNat g.bit.val) ≠ 0 ↔
      ∃ f ∈ fields, f.gate = some g ∧ supplied.has f := by
  rw [flagsWord, Ne, foldl_or_and]
  simp [bitOf_and]

variable {supplied fields g}

/-- A reader that holds the flags words finds a gate open exactly when a field behind it is
present. -/
theorem isOpen_eq_any {words : List (String × UInt32)}
    (hword : words.lookup g.member = some (supplied.flagsWord fields g.member)) :
    isOpen words g = fields.any fun f => f.gate == some g && supplied.has f := by
  rw [Bool.eq_iff_iff, isOpen, hword, Option.getD_some, bne_iff_ne, flagsWord_and]
  simp

end Supplied

end TypeLang.Wire
