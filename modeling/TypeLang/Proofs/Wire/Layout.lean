import TypeLang.Proofs.Emit.Operators
import TypeLang.Proofs.Model.Gates
import TypeLang.Proofs.Wire.Canonical
import TypeLang.Proofs.Wire.Consumption
import TypeLang.Proofs.Wire.Flags

/-!
# The layout of the codec and of the emitted code

Which fields are on the wire, by the codec and by the emitted operators and requests. Both walk the
fields in order and look at the same bits, and they differ in one kind of field: a flags word that
is gated itself. The codec reads and writes every flags word, the emitted code streams a gated one
only under its gate. On the way out there is a second condition, since the writer takes the bits
from the fields that are present: behind an open gate all of them must be.
-/
namespace TypeLang

namespace Wire

/-- The fields that took bytes, as transfers. -/
def carried (layout : List (Field × Bytes)) : List Transfer :=
  (layout.filter fun entry => !entry.2.isEmpty).map fun entry => .ofField entry.1

/-- The bytes read for the flags words are those of the given words. -/
def ReadsWords (words : String → UInt32) (layout : List (Field × Bytes)) : Prop :=
  ∀ entry ∈ layout, entry.1.isWord → entry.2 = wordBytes (words entry.1.name)

/-- Every gated flags word has an open gate. -/
def WordsOpen (words : String → UInt32) (fields : List Field) : Prop :=
  ∀ f ∈ fields, f.isWord → ∀ g ∈ f.gate, g.isSet words

/-- Every field with a payload and an open gate is present. -/
def OpenPresent (words : String → UInt32) (o : Object) (fields : List Field) : Prop :=
  ∀ f ∈ fields, f.isWord = false → f.isMark = false → ∀ g ∈ f.gate, g.isSet words → o.has f

/-- Fields that code streams have the layout of the codec, in both directions, exactly when gated
flags words are open and, on the way out, fields behind open gates present. The layout of a reading
is what the fields took of the input, one after the other. -/
structure SameLayout (m : Model) (fields : List Field)
    (streams : (String → UInt32) → List Transfer) : Prop where
  read : ∀ depth : Nat,
    (·.1) <$> traceFields (readValue (readObject m depth)) [] fields =
      readFields (readValue (readObject m depth)) [] fields ∧
    ∀ (input rest : Bytes) (entries : List (String × Option Value))
      (layout : List (Field × Bytes)),
      traceFields (readValue (readObject m depth)) [] fields input = .ok (entries, layout) rest →
      layout.map (·.1) = fields ∧ input = (layout.map (·.2)).flatten ++ rest ∧
      ∀ words : String → UInt32, ReadsWords words layout →
        (carried layout = streams words ↔ WordsOpen words fields)
  write : ∀ (o : Object) (chunks : List Bytes),
    fields.mapM ((supply m o.fields).encodeField fields) = .ok chunks →
    (carried (fields.zip chunks) = streams ((supply m o.fields).flagsWord fields) ↔
      WordsOpen ((supply m o.fields).flagsWord fields) fields ∧
        OpenPresent ((supply m o.fields).flagsWord fields) o fields)

/-! ## Reading -/

/-- Whether the codec reads a field under given flags words. -/
def reads (words : String → UInt32) (f : Field) : Bool :=
  f.isWord || (!f.isMark && f.gate.all (·.isSet words))

/-- A measured reader returns what it took of the front of the input. -/
theorem measured_eq_ok {α : Type} {r : Reader α} {n : Nat} {input rest : Bytes} {a : α}
    {taken : Bytes} (hr : r.Consumes n) (h : measured r input = .ok (a, taken) rest) :
    r input = .ok a rest ∧ input = taken ++ rest ∧ n ≤ taken.length := by
  simp only [measured] at h
  split at h
  · next b mid hread =>
    simp only [EStateM.Result.ok.injEq, Prod.mk.injEq] at h
    obtain ⟨⟨rfl, htaken⟩, rfl⟩ := h
    obtain ⟨front, rfl, hlength⟩ := hr input b mid hread
    have hfront : front = taken := by
      rw [← htaken, List.length_append, Nat.add_sub_cancel, List.take_left]
    subst hfront
    exact ⟨hread, rfl, hlength⟩
  · cases h

theorem measured_pure {α : Type} (a : α) (input : Bytes) :
    measured (pure a) input = .ok (a, []) input := by
  have hpure : (pure a : Reader α) input = .ok a input := rfl
  rw [measured, hpure]
  simp

theorem isOpen_eq_isSet {lookup : List (String × UInt32)} {words : String → UInt32} {g : FieldGate}
    (h : lookup.lookup g.member = some (words g.member)) : isOpen lookup g = g.isSet words := by
  rw [isOpen, h, Option.getD_some, FieldGate.isSet]

/-- The trace is of the fields in their order, and what it holds is what was consumed. -/
theorem layout_of_traceFields {value : TargetType → Reader Value}
    (hvalue : ∀ type, (value type).Consumes 0) {lookup : List (String × UInt32)}
    {fields : List Field} {input rest : Bytes} {entries : List (String × Option Value)}
    {layout : List (Field × Bytes)}
    (h : traceFields value lookup fields input = .ok (entries, layout) rest) :
    layout.map (·.1) = fields ∧ input = (layout.map (·.2)).flatten ++ rest := by
  induction fields generalizing lookup input entries layout with
  | nil =>
    cases h
    exact ⟨rfl, rfl⟩
  | cons f fields ih =>
    rw [traceFields] at h
    split at h
    · obtain ⟨⟨word, taken⟩, mid, hread, h⟩ := bind_eq_ok_iff.mp h
      obtain ⟨⟨more, layout⟩, mid', htail, h⟩ := bind_eq_ok_iff.mp h
      cases h
      obtain ⟨-, rfl, -⟩ := measured_eq_ok consumes_readWord hread
      obtain ⟨rfl, rfl⟩ := ih htail
      exact ⟨rfl, (List.append_assoc ..).symm⟩
    · obtain ⟨⟨first, taken⟩, mid, hread, h⟩ := bind_eq_ok_iff.mp h
      obtain ⟨⟨more, layout⟩, mid', htail, h⟩ := bind_eq_ok_iff.mp h
      cases h
      obtain ⟨-, rfl, -⟩ := measured_eq_ok (closed_consumes.field hvalue lookup f) hread
      obtain ⟨rfl, rfl⟩ := ih htail
      exact ⟨rfl, (List.append_assoc ..).symm⟩

/-- A field that is no flags word takes bytes when it has a payload and its gate is open. -/
theorem isEmpty_of_readField {value : TargetType → Reader Value}
    (hvalue : ∀ type, (value type).Consumes 1) {lookup : List (String × UInt32)}
    {words : String → UInt32} {f : Field} (hword : f.isWord = false)
    (hlookup : ∀ name ∈ f.needed?, lookup.lookup name = some (words name))
    {input rest taken : Bytes} {first : Option Value}
    (h : measured (readField value lookup f) input = .ok (first, taken) rest) :
    (!taken.isEmpty) = reads words f := by
  have hpayload : measured (do return some (← value f.type)) input = .ok (first, taken) rest →
      (!taken.isEmpty) = true := by
    intro h
    obtain ⟨-, -, hlength⟩ := measured_eq_ok (consumes_map (hvalue f.type) some) h
    cases taken with
    | nil => simp at hlength
    | cons b taken => rfl
  have hnothing : ∀ a, measured (pure a) input = .ok (first, taken) rest → taken = [] := by
    intro a h
    rw [measured_pure] at h
    cases h
    rfl
  rw [reads, hword, Bool.false_or]
  simp only [readField] at h
  cases hgate : f.gate with
  | none =>
    have hmark : f.isMark = false := by simp [Field.isMark, hgate]
    simp only [hgate] at h
    rw [hpayload h, hmark]
    rfl
  | some g =>
    have hopen := isOpen_eq_isSet (hlookup g.member (by simp [Field.needed?, hgate]))
    simp only [hgate, hopen] at h
    cases hset : g.isSet words with
    | false =>
      simp only [hset, Bool.not_false, if_true] at h
      simp [hnothing _ h, hset]
    | true =>
      cases hmark : f.isMark with
      | true =>
        simp only [hset, hmark, Bool.not_true, Bool.false_eq_true, if_false, if_true] at h
        simp [hnothing _ h]
      | false =>
        simp only [hset, hmark, Bool.not_true, Bool.false_eq_true, if_false] at h
        simp [hpayload h, hset]

theorem carried_cons (f : Field) (taken : Bytes) (layout : List (Field × Bytes)) :
    carried ((f, taken) :: layout) =
      (if !taken.isEmpty then [.ofField f] else []) ++ carried layout := by
  simp only [carried, List.filter_cons]
  split <;> simp_all

/-- The fields that take bytes are the flags words and the payloads behind open gates. -/
theorem carried_of_traceFields {value : TargetType → Reader Value}
    (hvalue : ∀ type, (value type).Consumes 1) {scope : List String} {fields : List Field}
    (hscope : Scoped Field.declared? Field.needed? scope fields)
    {lookup : List (String × UInt32)} {words : String → UInt32}
    (hlookup : ∀ name ∈ scope, lookup.lookup name = some (words name))
    {input rest : Bytes} {entries : List (String × Option Value)} {layout : List (Field × Bytes)}
    (h : traceFields value lookup fields input = .ok (entries, layout) rest)
    (hwords : ReadsWords words layout) :
    carried layout = (fields.filter (reads words)).map .ofField := by
  induction fields generalizing scope lookup input entries layout with
  | nil =>
    cases h
    rfl
  | cons f fields ih =>
    rw [traceFields] at h
    cases hword : f.isWord with
    | true =>
      simp only [hword, if_true] at h
      obtain ⟨⟨word, taken⟩, mid, hread, h⟩ := bind_eq_ok_iff.mp h
      obtain ⟨⟨more, layout⟩, mid', htail, h⟩ := bind_eq_ok_iff.mp h
      cases h
      obtain ⟨hfirst, rfl, hlength⟩ := measured_eq_ok consumes_readWord hread
      -- The bytes taken are those of the given word, so this is the word that was read.
      have htaken : taken = wordBytes (words f.name) := hwords _ List.mem_cons_self hword
      rw [htaken, takes_readWord] at hfirst
      cases hfirst
      have hne : (!taken.isEmpty) = true := by simp [htaken, wordBytes, littleEndian]
      rw [carried_cons, hne, List.filter_cons, reads, hword, ih hscope.2 ?_ htail ?_]
      · simp
      · exact lookup_of_declared hword hlookup
      · exact fun entry he => hwords entry (List.mem_cons_of_mem _ he)
    | false =>
      simp only [hword, Bool.false_eq_true, if_false] at h
      obtain ⟨⟨first, taken⟩, mid, hread, h⟩ := bind_eq_ok_iff.mp h
      obtain ⟨⟨more, layout⟩, mid', htail, h⟩ := bind_eq_ok_iff.mp h
      cases h
      have htaken := isEmpty_of_readField hvalue hword
        (fun name hname => hlookup name (hscope.1 name hname)) hread
      rw [carried_cons, htaken, List.filter_cons, ih hscope.2 ?_ htail ?_]
      · split <;> simp
      · simpa [Field.declared?, hword] using hlookup
      · exact fun entry he => hwords entry (List.mem_cons_of_mem _ he)

/-! ## Writing -/

/-- Whether the codec writes a field of an object. -/
def writes (o : Object) (f : Field) : Bool :=
  f.isWord || (!f.isMark && (f.gate.isNone || o.has f))

/-- A field has bytes exactly when the codec writes it. -/
theorem isEmpty_of_encodeField {m : Model} {o : Object} {fields : List Field} {f : Field}
    {chunk : Bytes} (h : (supply m o.fields).encodeField fields f = .ok chunk) :
    (!chunk.isEmpty) = writes o f := by
  simp only [Supplied.encodeField, has_supply, find?_supply] at h
  cases hword : f.isWord with
  | true =>
    simp only [hword, if_true, Except.ok.injEq] at h
    subst h
    simp [writes, hword, wordBytes, littleEndian]
  | false =>
    have hpayload : ∀ {v}, encodeValue m v f.type = .ok chunk → (!chunk.isEmpty) = true := by
      intro v hv
      simpa using encodeValue_ne_nil hv
    simp only [hword, Bool.false_eq_true, if_false] at h
    rw [writes, hword, Bool.false_or]
    split at h
    · next hskip =>
      cases h
      rw [Bool.and_eq_true, Bool.or_eq_true] at hskip
      cases hgate : f.gate with
      | none => simp [hgate] at hskip
      | some g => rcases hskip.2 with habsent | hmark <;> simp_all
    · next hkeep =>
      split at h
      · cases h
      · next entry hfind =>
        obtain ⟨v, hv, heq⟩ := Option.map_eq_some_iff.mp hfind
        cases heq
        rw [hpayload h]
        cases hgate : f.gate with
        | none => simp [Field.isMark, hgate]
        | some g => simp_all

/-- The fields that have bytes are those that the codec writes. -/
theorem carried_of_mapM {m : Model} {o : Object} {fields todo : List Field} {chunks : List Bytes}
    (h : todo.mapM ((supply m o.fields).encodeField fields) = .ok chunks) :
    carried (todo.zip chunks) = (todo.filter (writes o)).map .ofField := by
  induction todo generalizing chunks with
  | nil =>
    cases h
    rfl
  | cons f todo ih =>
    simp only [List.mapM_cons, bind_eq_ok, pure_eq_ok] at h
    obtain ⟨chunk, hchunk, rest, hrest, rfl⟩ := h
    rw [List.zip_cons_cons, carried_cons, isEmpty_of_encodeField hchunk, ih hrest, List.filter_cons]
    split <;> simp

/-! ## Comparison -/

/-- Whether emitted code streams a field under given flags words. -/
def streams (words : String → UInt32) (f : Field) : Bool :=
  !f.isMark && f.gate.all (·.isSet words)

/-- The transfers that run are those of the streamed fields. -/
theorem filter_ofFields (fields : List Field) (words : String → UInt32) :
    (Transfer.ofFields fields).filter (·.runs words) =
      (fields.filter (streams words)).map .ofField := by
  rw [Transfer.ofFields, wireFields, List.filter_map, List.filter_filter]
  congr 1
  refine List.filter_congr fun f _ => ?_
  simp [streams, Transfer.runs, Transfer.ofField, Bool.and_comm]

/-- Of two filters with results of one length, one cannot be finer. -/
theorem imp_of_length_filter {α : Type} {p q : α → Bool} {as : List α}
    (himp : ∀ a ∈ as, p a → q a) (h : (as.filter p).length = (as.filter q).length) :
    ∀ a ∈ as, q a → p a := by
  induction as with
  | nil => simp
  | cons a as ih =>
    rw [List.forall_mem_cons] at himp ⊢
    have hle : (as.filter p).length ≤ (as.filter q).length := by
      rw [← List.countP_eq_length_filter, ← List.countP_eq_length_filter]
      exact List.countP_mono_left himp.2
    rw [List.filter_cons, List.filter_cons] at h
    by_cases hq : q a
    · by_cases hp : p a
      · simp only [hp, hq, if_true, List.length_cons, Nat.add_right_cancel_iff] at h
        exact ⟨fun _ => hp, ih himp.2 h⟩
      · simp only [hp, hq, if_true, if_false, Bool.false_eq_true, List.length_cons] at h
        omega
    · have hp : ¬p a := fun hp => hq (himp.1 hp)
      simp only [hp, hq, if_false, Bool.false_eq_true] at h
      exact ⟨fun h => absurd h hq, ih himp.2 h⟩

theorem reads_iff_streams {words : String → UInt32} {f : Field} :
    (reads words f → streams words f) ↔ (f.isWord → ∀ g ∈ f.gate, g.isSet words) := by
  cases hword : f.isWord with
  | true => simp [reads, streams, hword, Field.isMark_of_isWord hword, Option.all_eq_true]
  | false => simp [reads, streams, hword]

/-- What is read is what is streamed when every gated flags word has an open gate. -/
theorem map_reads_eq_iff {words : String → UInt32} {fields : List Field} :
    (fields.filter (reads words)).map Transfer.ofField =
        (fields.filter (streams words)).map Transfer.ofField ↔ WordsOpen words fields := by
  have himp : ∀ f ∈ fields, streams words f → reads words f := by
    intro f _ h
    rw [reads, ← streams, h, Bool.or_true]
  constructor
  · intro h f hf
    have hlength := congrArg List.length h
    rw [List.length_map, List.length_map] at hlength
    exact reads_iff_streams.mp (imp_of_length_filter himp hlength.symm f hf)
  · intro h
    rw [List.filter_congr fun f hf => Bool.eq_iff_iff.mpr
      ⟨reads_iff_streams.mpr (h f hf), himp f hf⟩]

/-- What is written is what is streamed when besides nothing behind an open gate is missing. -/
theorem map_writes_eq_iff {o : Object} {words : String → UInt32} {fields : List Field}
    (hbits : ∀ f ∈ fields, ∀ g ∈ f.gate, o.has f → g.isSet words) :
    (fields.filter (writes o)).map Transfer.ofField =
        (fields.filter (streams words)).map Transfer.ofField ↔
      WordsOpen words fields ∧ OpenPresent words o fields := by
  have hfiner : WordsOpen words fields → ∀ f ∈ fields, writes o f → streams words f := by
    intro hopen f hf h
    cases hword : f.isWord with
    | true =>
      rw [streams, Field.isMark_of_isWord hword]
      simpa [Option.all_eq_true] using hopen f hf hword
    | false =>
      cases hgate : f.gate with
      | none => simp_all [writes, streams]
      | some g => simp_all [writes, streams, hbits f hf g hgate]
  constructor
  · intro h
    -- Everything written is streamed, so its gate is open.
    have hopen : ∀ f ∈ fields, writes o f → ∀ g ∈ f.gate, g.isSet words := by
      intro f hf hwrite g hg
      have hmem := List.mem_map_of_mem (f := Transfer.ofField) (List.mem_filter.mpr ⟨hf, hwrite⟩)
      rw [h] at hmem
      obtain ⟨k, hk, heq⟩ := List.mem_map.mp hmem
      have hstream := (List.mem_filter.mp hk).2
      simp only [Transfer.ofField, Transfer.mk.injEq] at heq
      rw [streams, Bool.and_eq_true, heq.1, Option.all_eq_true] at hstream
      exact hstream.2 g hg
    have hwords : WordsOpen words fields := fun f hf hword =>
      hopen f hf (by rw [writes, hword, Bool.true_or])
    have hlength := congrArg List.length h
    rw [List.length_map, List.length_map] at hlength
    refine ⟨hwords, fun f hf hword hmark g hg hset => ?_⟩
    have hwrite := imp_of_length_filter (hfiner hwords) hlength f hf
      (by simp_all [streams])
    simp_all [writes]
  · rintro ⟨hopen, hpresent⟩
    rw [List.filter_congr fun f hf => Bool.eq_iff_iff.mpr ⟨hfiner hopen f hf, fun h => ?_⟩]
    cases hword : f.isWord with
    | true => rw [writes, hword, Bool.true_or]
    | false =>
      rw [streams, Bool.and_eq_true, Bool.not_eq_true', Option.all_eq_true] at h
      cases hgate : f.gate with
      | none => simp [writes, h.1, hgate]
      | some g => simp [writes, h.1, hpresent f hf hword h.1 g hgate (h.2 g hgate)]

/-- Fields that are streamed under their gates have the layout of the codec. -/
theorem sameLayout_ofFields {m : Model} {fields : List Field} (h : Field.Gated fields) :
    SameLayout m fields fun words => (Transfer.ofFields fields).filter (·.runs words) where
  read depth := by
    have hvalue := consumes_readValue (consumes_readObject m depth)
    refine ⟨map_fst_traceFields _ _ _, fun input rest entries layout htrace => ?_⟩
    obtain ⟨hfields, hinput⟩ :=
      layout_of_traceFields (fun type => consumes_zero (hvalue type)) htrace
    refine ⟨hfields, hinput, fun words hwords => ?_⟩
    rw [carried_of_traceFields hvalue h.inScope (by simp) htrace hwords, filter_ofFields,
      map_reads_eq_iff]
  write o chunks hchunks := by
    rw [carried_of_mapM hchunks, filter_ofFields, map_writes_eq_iff]
    intro f hf g hg hhas
    rw [FieldGate.isSet, bne_iff_ne, Supplied.flagsWord_and]
    exact ⟨f, hf, hg, by rw [has_supply, hhas]⟩

end Wire

/-- In every model of a schema the operators of a type have the layout of the codec for each of its
constructors, and so have requests behind their tags, exactly as far as `Wire.SameLayout` says. -/
theorem Model.Derived.sameLayout {ds : List Definition} {m : Model} (hds : Parsed ds)
    (hm : m.Derived ds) :
    (∀ t ∈ m.types, ∀ c ∈ t.constructors, ∀ d,
      Wire.SameLayout m c.fields (Emit.operatorStreams d t c)) ∧
    ∀ method ∈ m.methods, ∀ sources sender, ∃ arguments,
      Wire.SameLayout m method.fields arguments ∧ ∀ words,
        Emit.requestStreams sources sender method words =
          ⟨none, Emit.tagConstant method.tag⟩ :: arguments words := by
  constructor
  · intro t ht c hc d
    have hstreams : Emit.operatorStreams d t c = _ :=
      funext (Emit.operatorStreams_eq hc (hm.nodup_constructor_tags t ht))
    rw [hstreams]
    exact Wire.sameLayout_ofFields (hm.gated_constructor hds t ht c hc)
  · intro method hmethod sources sender
    exact ⟨_, Wire.sameLayout_ofFields (hm.gated_method hds method hmethod),
      Emit.requestStreams_eq sources sender method⟩

/-- A constructor with a flags word behind a bit of another one. -/
def gatedWordText : String := "a#1 flags:# x:flags.0?# y:int = A;"

/-- The model of the constructor with a gated flags word. -/
def gatedWordModel : Model := Model.ofDefinitions (definitionsOf gatedWordText)

def gatedWordType : TaggedType where
  name := "TLA"
  schemaName := "A"
  constructors := [{
    name := "a"
    id := 1
    fields := [⟨"flags", .plain "quint32", "#", none⟩,
      ⟨"x", .plain "quint32", "#", some ⟨"flags", 0⟩⟩, ⟨"y", .plain "quint32", "int", none⟩]
    source := some gatedWordText }]

/-- Without the gated word in an object the codec writes it and the operator does not. -/
theorem layout_gatedWord :
    gatedWordType ∈ gatedWordModel.types ∧ ∃ c ∈ gatedWordType.constructors, ∃ chunks,
      c.fields.mapM ((Wire.supply gatedWordModel [("y", some (.int 7))]).encodeField c.fields) =
        .ok chunks ∧
      Wire.carried (c.fields.zip chunks) ≠ Emit.operatorStreams .write gatedWordType c
        ((Wire.supply gatedWordModel [("y", some (.int 7))]).flagsWord c.fields) := by
  have hrun : (readSchema gatedWordText).isOk ∧ gatedWordType ∈ gatedWordModel.types := by
    decide +kernel
  have hds : Parsed (definitionsOf gatedWordText) :=
    .inl ⟨gatedWordText, readSchema_eq_ok_definitionsOf hrun.1⟩
  have hm : Model.Derived (definitionsOf gatedWordText) gatedWordModel := .ofDefinitions
  have hc := List.mem_singleton_self (gatedWordType.constructors.head (by decide))
  have hwrite := ((hm.sameLayout hds).1 gatedWordType hrun.2 _ hc .write).write
    ⟨1, [("y", some (.int 7))]⟩ [Wire.wordBytes 0, Wire.wordBytes 0, Wire.wordBytes 7] rfl
  refine ⟨hrun.2, _, hc, _, rfl, fun h => ?_⟩
  have hset := (hwrite.mp h).1 ⟨"x", .plain "quint32", "#", some ⟨"flags", 0⟩⟩ (by decide) rfl
    ⟨"flags", 0⟩ rfl
  exact absurd hset (by decide +kernel)

end TypeLang
