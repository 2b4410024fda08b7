import TypeLang.Proofs.Model.Redraft

/-!
# Gates as written

From the text of a schema to the model that code is generated from, each field keeps the gate that
its parameter is written with: the bit is the same, and the member looked at is what the declared
flags word is called in the end. The invariant of the steps on the way is that a constructor is a
redraft of the one its definition gives.
-/
namespace TypeLang

/-! ## Fields -/

/-- A gate of the field at position `i` is the one written there: it looks at the bit written, and
at the field that the flags word became. The word is declared in front of the gate, and wherever it
is declared besides, the field there has the same name. -/
structure FieldGate.Follows (ps : List Parameter) (fields : List Field) (i : Nat) (g : FieldGate)
    (written : Gate) : Prop where
  bit_eq : g.bit = written.bit
  bit_le : g.bit.val ≤ 31
  declared : ∃ j < i, ps[j]? = some ⟨written.word, .flags⟩
  member_eq : ∀ j : Nat, ps[j]? = some ⟨written.word, .flags⟩ →
    ∃ w, fields[j]? = some w ∧ w.isWord ∧ g.member = w.name

/-- Fields that stand for parameters, position by position, and are gated as these are. -/
structure Field.FollowsGates (ps : List Parameter) (fields : List Field) : Prop where
  length_eq : fields.length = ps.length
  gate : ∀ (i : Nat) (p : Parameter) (f : Field), ps[i]? = some p → fields[i]? = some f →
    Option.Rel (FieldGate.Follows ps fields i) f.gate p.type.gate?

namespace Field

variable {ps : List Parameter} {p : Parameter} {step : Field → Field}

theorem gate_ofParameter (p : Parameter) :
    (ofParameter p).gate =
      p.type.gate?.map fun written => ⟨Naming.member written.word, written.bit⟩ := by
  rcases p with ⟨name, flags | ⟨type, gate⟩⟩ <;> rfl

/-- The flags word of a gated parameter is declared in front of it. -/
theorem exists_flags_before (h : Parameter.Gated ps) {i : Nat} (hp : ps[i]? = some p)
    {written : Gate} (hgate : p.type.gate? = some written) :
    ∃ j < i, ps[j]? = some ⟨written.word, .flags⟩ := by
  have hneeded : written.word ∈ p.needed? := by simp [Parameter.needed?, hgate]
  rcases h.exists_before hp hneeded with hscope | ⟨j, hj, q, hq, hdeclared⟩
  · cases hscope
  · rcases q with ⟨name, type⟩
    simp only [Parameter.declared?] at hdeclared
    split at hdeclared
    · next hflags =>
      cases hdeclared
      exact ⟨j, hj, by rw [hq, hflags]⟩
    · cases hdeclared

/-- The gate of a redrafted field looks at each field that its flags word became. -/
theorem Redraft.gate_of_written (h : Redraft (ps.map .ofParameter) step) (hp : p ∈ ps)
    {written : Gate} (hgate : p.type.gate? = some written)
    (hword : ⟨written.word, .flags⟩ ∈ ps) :
    (step (ofParameter p)).gate =
      some ⟨(step (ofParameter ⟨written.word, .flags⟩)).name, written.bit⟩ := by
  refine h.gate _ (List.mem_map_of_mem hp) _ (List.mem_map_of_mem hword) rfl
    ⟨Naming.member written.word, written.bit⟩ ?_ rfl
  rw [gate_ofParameter, hgate]
  rfl

theorem Redraft.followsGates (hps : Parameter.Gated ps)
    (h : Redraft (ps.map .ofParameter) step) :
    FollowsGates ps ((ps.map .ofParameter).map step) where
  length_eq := by rw [List.length_map, List.length_map]
  gate i p f hp hf := by
    simp only [List.getElem?_map, hp, Option.map_some, Option.some.injEq] at hf
    subst hf
    have hmem := List.mem_of_getElem? hp
    cases hgate : p.type.gate? with
    | none =>
      have hnone := h.ungated _ (List.mem_map_of_mem hmem) (by rw [gate_ofParameter, hgate]; rfl)
      rw [hnone]
      exact .none
    | some written =>
      obtain ⟨j, hj, hword⟩ := exists_flags_before hps hp hgate
      rw [h.gate_of_written hmem hgate (List.mem_of_getElem? hword)]
      refine .some ⟨rfl, Nat.le_of_lt_succ written.bit.isLt, ⟨j, hj, hword⟩, fun l hl => ?_⟩
      refine ⟨step (ofParameter ⟨written.word, .flags⟩), by simp [hl], ?_, rfl⟩
      rw [h.isWord (List.mem_map_of_mem (List.mem_of_getElem? hl))]
      rfl

end Field

/-! ## Constructors and methods -/

/-- A constructor that a definition became. -/
structure Constructor.Stands (d : Definition) (c : Constructor) : Prop where
  name : c.name = d.entityName
  source : c.source = d.source
  redraft : (Constructor.ofDefinition d).Redraft c

namespace Constructor

variable {d : Definition} {c : Constructor}

theorem stands_ofDefinition (h : Parameter.Gated d.parameters) :
    Stands d (.ofDefinition d) where
  name := rfl
  source := rfl
  redraft := ⟨rfl, Field.gated_ofParameter h, Field.gated_ofParameter h, fun f => f,
    Field.redraft_id _, (List.map_id _).symm⟩

theorem Stands.map (h : Stands d c) {step : Field → Field}
    (hgated : Field.Gated (c.fields.map step)) (hstep : Field.Redraft c.fields step) :
    Stands d { c with fields := c.fields.map step } :=
  ⟨h.name, h.source, h.redraft.map hgated hstep⟩

theorem Stands.followsGates (hps : Parameter.Gated d.parameters) (h : Stands d c) :
    Field.FollowsGates d.parameters c.fields := by
  obtain ⟨step, hstep, heq⟩ := h.redraft.fields
  rw [heq]
  exact Field.Redraft.followsGates hps hstep

end Constructor

namespace Model

variable {ds : List Definition} {m : Model}

/-- Every constructor of a model is what a definition that counts became. -/
theorem Derived.exists_stands (hds : Parsed ds) (h : Derived ds m) :
    ∀ t ∈ m.types, ∀ c ∈ t.constructors,
      ∃ d ∈ kept ds, d.category = .types ∧ Constructor.Stands d c := by
  refine h.forall_types (P := fun t => ∀ c ∈ t.constructors,
    ∃ d ∈ kept ds, d.category = .types ∧ Constructor.Stands d c) ?_ ?_ ?_
  · intro t ht c hc
    obtain ⟨es, hes, heq⟩ := constructors_of_mem_types ht
    rw [heq] at hc
    obtain ⟨d, hd, rfl⟩ := List.mem_map.mp hc
    obtain ⟨hkept, hcategory⟩ := List.mem_filter.mp (hes.subset hd)
    refine ⟨d, hkept, beq_iff_eq.mp hcategory, Constructor.stands_ofDefinition ?_⟩
    exact hds.gated ((kept_sublist ds).subset hkept)
  · intro e t ht c hc
    obtain ⟨b, hb, rfl | rfl⟩ := mem_constructors_wrapType hc
    · exact ht c hb
    · obtain ⟨d, hd, hcategory, hstands⟩ := ht b hb
      exact ⟨d, hd, hcategory, hstands.map (e.gated_wrapField hstands.redraft.gated')
        (Field.redraft_wrapField e b.fields)⟩
  · intro t ht
    refine bake_of_renameType (P := fun t => ∀ c ∈ t.constructors,
      ∃ d ∈ kept ds, d.category = .types ∧ Constructor.Stands d c) ?_ ht
    intro rename t ht c hc
    obtain ⟨b, hb, rfl⟩ := mem_constructors_renameType hc
    obtain ⟨d, hd, hcategory, hstands⟩ := ht b hb
    exact ⟨d, hd, hcategory, hstands.map (gated_renameFields hstands.redraft.gated')
      (Field.redraft_renameField _ hstands.redraft.gated')⟩

end Model

/-- In the model that code is generated from, every constructor and every method is gated as its
definition in the schema is. Of the definitions with one name the first counts. -/
theorem followsGates_buildModel {text : String} {ds : List Definition}
    (h : readSchema text = .ok ds) (config : Config) :
    (∀ t ∈ (buildModel config ds).types, ∀ c ∈ t.constructors, ∃ d ∈ Model.kept ds,
      d.category = .types ∧ c.name = d.entityName ∧ c.id = d.id ∧ c.source = d.source ∧
        Field.FollowsGates d.parameters c.fields) ∧
    ∀ method ∈ (buildModel config ds).methods, ∃ d ∈ Model.kept ds,
      d.category = .functions ∧ method.name = d.entityName ∧ method.id = d.id ∧
        method.source = d.source ∧ Field.FollowsGates d.parameters method.fields := by
  have hds : Parsed ds := .inl ⟨text, h⟩
  have hgated : ∀ d ∈ Model.kept ds, Parameter.Gated d.parameters := fun d hd =>
    hds.gated ((Model.kept_sublist ds).subset hd)
  have hm := Model.derived_buildModel config ds
  constructor
  · intro t ht c hc
    obtain ⟨d, hd, hcategory, hstands⟩ := hm.exists_stands hds t ht c hc
    exact ⟨d, hd, hcategory, hstands.name, hstands.redraft.id, hstands.source,
      hstands.followsGates (hgated d hd)⟩
  · intro method hmethod
    rw [hm.methods_eq] at hmethod
    obtain ⟨d, hd, hcategory, rfl⟩ := Model.mem_methods_ofDefinitions hmethod
    refine ⟨d, hd, hcategory, rfl, rfl, rfl, ?_⟩
    have hfollows := Field.Redraft.followsGates (hgated d hd) (Field.redraft_id _)
    rwa [List.map_id] at hfollows

/-- A flags word whose name takes the words of its type and a number, and one whose name is
reserved. -/
def renamedText : String :=
  "a#1 flagsQuint32:string = T;\nb#2 flags:# x:flags.31?int = T;\nc#3 flags:long = T;\n" ++
    "---functions---\nf#4 default:# y:default.3?true = T;"

/-- Both gates follow their words to the last name. -/
theorem followsGates_renamed :
    ∃ ds, readSchema renamedText = .ok ds ∧
      (∃ t ∈ (buildModel {} ds).types, ∃ c ∈ t.constructors, ∃ d ∈ Model.kept ds,
        c.fields.map (fun f => (f.name, f.gate)) =
          [("flagsQuint322", none), ("x", some ⟨"flagsQuint322", 31⟩)] ∧
        c.name = d.entityName ∧ Field.FollowsGates d.parameters c.fields) ∧
      ∃ method ∈ (buildModel {} ds).methods, ∃ d ∈ Model.kept ds,
        method.fields.map (fun f => (f.name, f.gate)) =
          [("isDefault", none), ("y", some ⟨"isDefault", 3⟩)] ∧
        method.name = d.entityName ∧ Field.FollowsGates d.parameters method.fields := by
  have hrun : (readSchema renamedText).isOk ∧
      (∃ t ∈ (buildModel {} (definitionsOf renamedText)).types, ∃ c ∈ t.constructors,
        c.fields.map (fun f => (f.name, f.gate)) =
          [("flagsQuint322", none), ("x", some ⟨"flagsQuint322", 31⟩)]) ∧
      ∃ method ∈ (buildModel {} (definitionsOf renamedText)).methods,
        method.fields.map (fun f => (f.name, f.gate)) =
          [("isDefault", none), ("y", some ⟨"isDefault", 3⟩)] := by decide +kernel
  obtain ⟨hread, ⟨t, ht, c, hc, hfields⟩, method, hmethod, harguments⟩ := hrun
  have hds := readSchema_eq_ok_definitionsOf hread
  have hfollows := followsGates_buildModel hds {}
  obtain ⟨d, hd, -, hname, -, -, hgates⟩ := hfollows.1 t ht c hc
  obtain ⟨e, he, -, hname', -, -, hgates'⟩ := hfollows.2 method hmethod
  exact ⟨_, hds, ⟨t, ht, c, hc, d, hd, hfields, hname, hgates⟩,
    method, hmethod, e, he, harguments, hname', hgates'⟩

end TypeLang
