import TypeLang.Proofs.Wire.Congruence
import TypeLang.Proofs.Wire.Consumption

/-!
# Depth of objects

Reading bounds how deep objects nest by the number of bytes there are to read. Which bound is taken
does not matter as long as it covers the input, since every object spends bytes on its id before
anything inside it is read.
-/
namespace TypeLang

open Wire

/-- Two readers do the same on every input of at most `n` bytes, and leave no more than they were
given. -/
structure Reader.AgreeUpTo {α : Type} (n : Nat) (r r' : Reader α) : Prop where
  eq : ∀ input : Bytes, input.length ≤ n → r input = r' input
  consumes : r.Consumes 0

namespace Reader.AgreeUpTo

variable {α β : Type} {n k : Nat} {r r' : Reader α}

theorem refl (h : r.Consumes 0) : r.AgreeUpTo n r := ⟨fun _ _ => rfl, h⟩

theorem mono (h : r.AgreeUpTo n r') (hk : k ≤ n) : r.AgreeUpTo k r' :=
  ⟨fun input hinput => h.eq input (Nat.le_trans hinput hk), h.consumes⟩

/-- Behind a reader that consumes `k` bytes, `k` bytes less have to be agreed on. -/
theorem bind {f f' : α → Reader β} (h : r.AgreeUpTo n r') (hk : r.Consumes k)
    (hf : ∀ a, (f a).AgreeUpTo (n - k) (f' a)) : (r >>= f).AgreeUpTo n (r' >>= f') := by
  refine ⟨fun input hinput => ?_, consumes_zero (consumes_bind hk fun a => (hf a).consumes)⟩
  change EStateM.bind r f input = EStateM.bind r' f' input
  rw [EStateM.bind, EStateM.bind, ← h.eq input hinput]
  cases hread : r input with
  | error e rest => rfl
  | ok a rest =>
    obtain ⟨taken, rfl, htaken⟩ := hk input a rest hread
    rw [List.length_append] at hinput
    exact (hf a).eq rest (by omega)

theorem congruence (n : Nat) : Congruence fun {_} r r' => r.AgreeUpTo n r' where
  pure a := refl (consumes_pure a)
  throw e := refl (consumes_throw e)
  bind hr hf := hr.bind hr.consumes hf
  block k := refl (consumes_zero (consumes_readBlock k))

end Reader.AgreeUpTo

namespace Wire

variable {m : Model} {n depth depth' : Nat}

/-- Two depths that cover an input make no difference to it. -/
theorem agreeUpTo_readObject (hdepth : n ≤ depth) (hdepth' : n ≤ depth') (name : String) :
    (readObject m depth name).AgreeUpTo n (readObject m depth' name) := by
  induction n generalizing depth depth' name with
  | zero =>
    refine ⟨fun input hinput => ?_, consumes_zero (consumes_readObject m depth name)⟩
    obtain rfl := List.length_eq_zero_iff.mp (Nat.le_zero.mp hinput)
    -- Without any bytes the id is missing, whatever may be read behind it.
    have hnone : ∀ depth, readObject m depth name [] = .error .endOfInput [] := by
      intro depth
      cases depth <;> rfl
    rw [hnone, hnone]
  | succ n ih =>
    obtain ⟨depth, rfl⟩ : ∃ d, depth = d + 1 := ⟨depth - 1, by omega⟩
    obtain ⟨depth', rfl⟩ : ∃ d, depth' = d + 1 := ⟨depth' - 1, by omega⟩
    have hobject : ∀ name, (readObject m depth name).AgreeUpTo n (readObject m depth' name) :=
      ih (by omega) (by omega)
    have hfields := (Reader.AgreeUpTo.congruence n).fields
      ((Reader.AgreeUpTo.congruence n).value hobject)
    rw [readObject, readObject]
    refine (Reader.AgreeUpTo.refl (consumes_zero consumes_readWord)).bind consumes_readWord
      fun id => Reader.AgreeUpTo.mono ?_ (show n + 1 - 4 ≤ n by omega)
    split
    · exact (Reader.AgreeUpTo.congruence n).throw _
    · split
      · exact (Reader.AgreeUpTo.congruence n).throw _
      · exact (Reader.AgreeUpTo.congruence n).map (hfields [] _) _

end Wire

namespace Model

variable {m : Model} {input : Bytes} {depth : Nat}

/-- A value is read as at any depth that covers the input. -/
theorem read_eq_readValue (hdepth : input.length ≤ depth) (type : TargetType) :
    m.read type input = Wire.readValue (Wire.readObject m depth) type input :=
  ((Reader.AgreeUpTo.congruence input.length).value
    (Wire.agreeUpTo_readObject (Nat.le_refl _) hdepth) type).eq input (Nat.le_refl _)

/-- Fields are read as at any depth that covers the input. -/
theorem readFields_eq_readFields (hdepth : input.length ≤ depth) (fields : List Field) :
    m.readFields fields input =
      Wire.readFields (Wire.readValue (Wire.readObject m depth)) [] fields input :=
  ((Reader.AgreeUpTo.congruence input.length).fields
    ((Reader.AgreeUpTo.congruence input.length).value
      (Wire.agreeUpTo_readObject (Nat.le_refl _) hdepth)) [] fields).eq input (Nat.le_refl _)

end Model

end TypeLang
