import TypeLang.Model.OfDefinitions
import TypeLang.Proofs.Schema.Statement
import TypeLang.Proofs.Wire.Depth
import TypeLang.Proofs.Wire.Reading

/-!
# Self-delimiting readers

What a reader consumes tells by itself where it ends. The reader takes it whatever follows, and
when any of it is missing at the end, the reader runs out of input and finds no other fault. Blocks
of bytes are read so, and sequencing keeps it.
-/
namespace TypeLang

/-- On success the reader has consumed a front of its input that it takes whatever follows; of any
proper prefix of that front it says that the input ends too early. -/
def Reader.IsDelimited {α : Type} (r : Reader α) : Prop :=
  ∀ input a rest, r input = .ok a rest → ∃ taken, input = taken ++ rest ∧ r.Takes taken a ∧
    ∀ k < taken.length, ∃ left, r (taken.take k) = .error .endOfInput left

namespace Wire

variable {α β : Type}

theorem bind_of_error {r : Reader α} {input left : Bytes} {e : WireError}
    (h : r input = .error e left) (f : α → Reader β) : (r >>= f) input = .error e left := by
  change EStateM.bind r f input = _
  rw [EStateM.bind, h]

theorem isDelimited_pure (a : α) : Reader.IsDelimited (pure a) := by
  intro input b rest h
  cases h
  exact ⟨[], rfl, takes_pure a, by simp⟩

theorem isDelimited_throw (e : WireError) : Reader.IsDelimited (throw e : Reader α) := by
  intro input b rest h
  cases h

/-- A front of two parts is cut short inside the first part or behind it. -/
theorem isDelimited_bind {r : Reader α} {f : α → Reader β} (hr : r.IsDelimited)
    (hf : ∀ a, (f a).IsDelimited) : (r >>= f).IsDelimited := by
  intro input b rest h
  obtain ⟨a, mid, hfirst, hsecond⟩ := bind_eq_ok_iff.mp h
  obtain ⟨front, rfl, htakes, hshort⟩ := hr input a mid hfirst
  obtain ⟨back, rfl, htakes', hshort'⟩ := hf a mid b rest hsecond
  refine ⟨front ++ back, by rw [List.append_assoc], takes_bind htakes htakes', fun k hk => ?_⟩
  rw [List.length_append] at hk
  rw [List.take_append]
  by_cases hfront : k < front.length
  · obtain ⟨left, hleft⟩ := hshort k hfront
    refine ⟨left, bind_of_error ?_ f⟩
    rwa [Nat.sub_eq_zero_of_le (Nat.le_of_lt hfront), List.take_zero, List.append_nil]
  · obtain ⟨left, hleft⟩ := hshort' (k - front.length) (by omega)
    refine ⟨left, ?_⟩
    rw [List.take_of_length_le (by omega)]
    change EStateM.bind r f _ = _
    rw [EStateM.bind, htakes]
    exact hleft

/-- A block of fixed length is delimited. -/
theorem isDelimited_readBlock (n : Nat) : (readBlock n).IsDelimited := by
  intro input block rest h
  simp only [readBlock] at h
  split at h
  · next hlength =>
    cases h
    refine ⟨input.take n, (List.take_append_drop n input).symm, takes_readBlock ⟨_, hlength⟩,
      fun k hk => ?_⟩
    rw [hlength] at hk
    refine ⟨(input.take n).take k, ?_⟩
    have hshort : (((input.take n).take k).take n).length ≠ n := by
      simp only [List.length_take]
      omega
    simp only [readBlock, dif_neg hshort]
  · cases h

theorem closed_isDelimited : Reader.Closed Reader.IsDelimited where
  pure := isDelimited_pure
  throw := isDelimited_throw
  bind := isDelimited_bind
  block := isDelimited_readBlock

theorem isDelimited_readValue (m : Model) (depth : Nat) (type : TargetType) :
    (readValue (readObject m depth) type).IsDelimited :=
  closed_isDelimited.value (closed_isDelimited.object m depth) type

end Wire

namespace Model

variable {m : Model} {type : TargetType} {input rest : Bytes} {v : Value}

/-- What was consumed of an input is delimited at every depth that covers the input. -/
theorem exists_taken_of_read (h : m.read type input = .ok v rest) :
    ∃ taken, input = taken ++ rest ∧ ∀ depth, input.length ≤ depth →
      (Wire.readValue (Wire.readObject m depth) type).Takes taken v ∧
        ∀ k < taken.length, ∃ left,
          Wire.readValue (Wire.readObject m depth) type (taken.take k) =
            .error .endOfInput left := by
  obtain ⟨taken, hinput⟩ : ∃ taken, input = taken ++ rest := by
    rw [read_eq_readValue (Nat.le_refl _)] at h
    obtain ⟨taken, hinput, -⟩ := Wire.isDelimited_readValue m _ type input v rest h
    exact ⟨taken, hinput⟩
  refine ⟨taken, hinput, fun depth hdepth => ?_⟩
  rw [read_eq_readValue hdepth] at h
  obtain ⟨front, hfront, hread⟩ := Wire.isDelimited_readValue m depth type input v rest h
  -- Another depth leaves the same rest, so it consumes the same front.
  obtain rfl : front = taken := List.append_cancel_right (hfront.symm.trans hinput)
  exact hread

/-- The bytes that a value was read from say by themselves where the value ends. On every input that
starts with them the same value is read and the same bytes are consumed, and an input that stops
short of them ends too early. -/
theorem exists_extent_of_read (h : m.read type input = .ok v rest) :
    ∃ n ≤ input.length, rest = input.drop n ∧
      (∀ other, other.take n = input.take n → m.read type other = .ok v (other.drop n)) ∧
      ∀ k < n, m.decode type (input.take k) = .error .endOfInput := by
  obtain ⟨taken, rfl, hdepths⟩ := exists_taken_of_read h
  refine ⟨taken.length, by simp, by simp, fun other hother => ?_, fun k hk => ?_⟩
  · have hstart := List.take_append_drop taken.length other
    rw [hother, List.take_left] at hstart
    have hread := (hdepths ((taken ++ rest).length + other.length) (by omega)).1
      (other.drop taken.length)
    rwa [hstart, ← read_eq_readValue (by omega)] at hread
  · obtain ⟨left, hleft⟩ := (hdepths (taken ++ rest).length (Nat.le_refl _)).2 k hk
    have hshort : (taken ++ rest).take k = taken.take k :=
      List.take_append_of_le_length (Nat.le_of_lt hk)
    have hcovers : (taken.take k).length ≤ (taken ++ rest).length := by
      simp only [List.length_take, List.length_append]
      omega
    rw [← read_eq_readValue hcovers] at hleft
    rw [hshort, decode, runReader, EStateM.run, hleft]

end Model

/-- What a reader leaves of an input that it reads. -/
def Reader.left? {α : Type} (r : Reader α) (input : Bytes) : Option Bytes :=
  match r input with
  | .ok _ rest => some rest
  | .error _ _ => none

theorem Reader.exists_of_left? {α : Type} {r : Reader α} {input rest : Bytes}
    (h : r.left? input = some rest) : ∃ a, r input = .ok a rest := by
  simp only [left?] at h
  split at h
  · next a _ hread =>
    cases h
    exact ⟨a, hread⟩
  · cases h

/-- A chain of links, each with a text and a vector. -/
def chainText : String :=
  "link#1 flags:# next:flags.0?Link name:string sizes:Vector<int> mark:flags.1?true = Link;"

def chainModel : Model := Model.ofDefinitions (definitionsOf chainText)

/-- A link that holds another one, and three bytes more. -/
def chainBytes : Bytes :=
  [1, 0, 0, 0, 3, 0, 0, 0,
    1, 0, 0, 0, 0, 0, 0, 0, 0, 0, 0, 0, 0x15, 0xC4, 0xB5, 0x1C, 0, 0, 0, 0,
    2, 0x61, 0x62, 5, 0x15, 0xC4, 0xB5, 0x1C, 1, 0, 0, 0, 7, 0, 0, 0,
    8, 8, 8]

/-- Where the chain ends is read off its own bytes. -/
theorem exists_extent_of_read_chain :
    ∃ v, chainModel.read (.plain "TLLink") chainBytes = .ok v [8, 8, 8] ∧
      ∃ n ≤ chainBytes.length, [8, 8, 8] = chainBytes.drop n ∧
        (∀ other, other.take n = chainBytes.take n →
          chainModel.read (.plain "TLLink") other = .ok v (other.drop n)) ∧
        ∀ k < n, chainModel.decode (.plain "TLLink") (chainBytes.take k) =
          .error .endOfInput := by
  have hrun : (chainModel.read (.plain "TLLink")).left? chainBytes = some [8, 8, 8] := by
    decide +kernel
  obtain ⟨v, hv⟩ := Reader.exists_of_left? hrun
  exact ⟨v, hv, Model.exists_extent_of_read hv⟩

end TypeLang
