import TypeLang.Proofs.Wire.Consumption

/-!
# What readers find

Properties of what a reader returns, whatever it is given to read. Like consumption they compose
along the readers of the codec. Of the primitives they say what their writers ask for: a length
fits the header that it is written in, whichever header it was read from.
-/
namespace TypeLang

/-- On success the reader returns something that has the property. -/
def Reader.Finds {α : Type} (r : Reader α) (p : α → Prop) : Prop :=
  ∀ input a rest, r input = .ok a rest → p a

namespace Wire

variable {α β : Type}

/-! ## Composition -/

theorem finds_pure {p : α → Prop} {a : α} (h : p a) : Reader.Finds (pure a) p := by
  intro input b rest hread
  cases hread
  exact h

theorem finds_throw {p : α → Prop} (e : WireError) : Reader.Finds (throw e) p := by
  intro input b rest hread
  cases hread

theorem finds_bind {r : Reader α} {f : α → Reader β} {p : α → Prop} {q : β → Prop}
    (hr : r.Finds p) (hf : ∀ a, p a → (f a).Finds q) : (r >>= f).Finds q := by
  intro input b rest h
  obtain ⟨a, mid, hfirst, hsecond⟩ := bind_eq_ok_iff.mp h
  exact hf a (hr input a mid hfirst) mid b rest hsecond

theorem finds_map {r : Reader α} {f : α → β} {p : α → Prop} {q : β → Prop} (hr : r.Finds p)
    (hf : ∀ a, p a → q (f a)) : Reader.Finds (do return f (← r)) q :=
  finds_bind hr fun a ha => finds_pure (hf a ha)

theorem finds_true (r : Reader α) : r.Finds fun _ => True := fun _ _ _ _ => trivial

/-- Every item is of the kind that the reader of an item finds. -/
theorem finds_readItems {item : Reader α} {p : α → Prop} (hitem : item.Finds p) (n : Nat) :
    (readItems item n).Finds fun as => as.length = n ∧ ∀ a ∈ as, p a := by
  induction n with
  | zero => exact finds_pure ⟨rfl, by simp⟩
  | succ n ih =>
    refine finds_bind hitem fun a ha => finds_map ih fun as has => ⟨?_, ?_⟩
    · rw [List.length_cons, has.1]
    · exact List.forall_mem_cons.mpr ⟨ha, has.2⟩

/-! ## Primitives -/

/-- A number is below the bound that its bytes give. -/
theorem ofLittleEndian_lt (bytes : Bytes) : ofLittleEndian bytes < 256 ^ bytes.length := by
  induction bytes with
  | nil => simp [ofLittleEndian]
  | cons b bytes ih =>
    have hb : b.toNat < 256 := b.toNat_lt
    rw [ofLittleEndian, List.length_cons, Nat.pow_succ]
    omega

theorem finds_readBytes (n : Nat) : (readBytes n).Finds fun bytes => bytes.length = n :=
  finds_map (finds_true _) fun block _ => block.length_bytes

theorem finds_readNumber (n : Nat) : (readNumber n).Finds fun number => number < 256 ^ n :=
  finds_map (finds_readBytes n) fun bytes hbytes => hbytes ▸ ofLittleEndian_lt bytes

theorem finds_readVectorHeader : readVectorHeader.Finds fun length => length < 2 ^ 32 := by
  refine finds_bind (finds_true _) fun id _ => ?_
  split
  · exact finds_readNumber 4
  · exact finds_throw _

/-- A header of any form gives a length that can be written. -/
theorem finds_readPayloadHeader :
    readPayloadHeader.Finds fun header => header.1 ≤ payloadLimit := by
  refine finds_bind (finds_readNumber 1) fun first hfirst => ?_
  simp only [payloadLimit]
  split
  · refine finds_map (finds_readNumber 3) fun length hlength => ?_
    omega
  · refine finds_pure ?_
    omega

theorem finds_readPayload : readPayload.Finds fun data => data.length ≤ payloadLimit := by
  refine finds_bind finds_readPayloadHeader fun header hheader => ?_
  refine finds_bind (finds_readBytes _) fun data hdata => ?_
  exact finds_bind (finds_true _) fun _ _ => finds_pure (hdata ▸ hheader)

theorem finds_readString :
    readString.Finds fun s => (Text.Utf8.encode s).length ≤ payloadLimit := by
  refine finds_bind finds_readPayload fun data hdata => ?_
  split
  · next s hs =>
    refine finds_pure ?_
    rwa [Text.Utf8.encode_eq_of_decode? hs]
  · exact finds_throw _

theorem exists_payloadBytes {data : Bytes} (h : data.length ≤ payloadLimit) :
    ∃ bytes, payloadBytes data = .ok bytes :=
  ⟨_, payloadBytes_eq_ok_iff.mpr ⟨h, rfl⟩⟩

end Wire

end TypeLang
