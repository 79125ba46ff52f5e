import PlanLowering.Proofs.Operands

/-!
# Instructions made from templates

An instruction is taken from the catalog and its operands are wired one by one. Whatever the
values are, slots and types stay those of the template.
-/

namespace PlanLowering

variable {catalog : Catalog} {t : Template} {i i' : Instruction} {ops ops' : List Operand}
variable {slot : Slot} {value target : OperandValue} {opcode action : String}
variable {supplies supplies' : Slot → OperandValue → Prop}

abbrev Operand.field (op : Operand) : Slot × OperandType := (op.slot, op.type)

namespace Instruction

/-- The operands have the slots and types of a template's, whatever their values. -/
structure Shaped (t : Template) (i : Instruction) : Prop where
  destination : i.destination.map Operand.field =
    t.destination.map fun file => (.rd, .register file)
  sources : i.sources.map Operand.field = t.sources

/-- A template whose destination has one value, and whose sources have the values supplied for
their slots. -/
structure Drawn (catalog : Catalog) (opcode : String) (target : OperandValue)
    (supplies : Slot → OperandValue → Prop) (i : Instruction) : Prop where
  name : i.name = opcode
  shaped : ∃ t ∈ catalog.templates, t.name = opcode ∧ i.Shaped t
  native : i.form = .native
  harmless : i.clobbers = []
  target : ∀ o ∈ i.destination, o.value = target
  sources : ∀ o ∈ i.sources, supplies o.slot o.value

theorem fields_setFirst {p : Operand → Bool} (h : setFirst p value ops = some ops') :
    ops'.map Operand.field = ops.map Operand.field := by
  obtain ⟨front, op, back, rfl, _, _, rfl⟩ := setFirst_eq_some h
  simp

/-- What holds of all operands still does when the operand that is wired has it. -/
theorem forall_setFirst {p : Operand → Bool} {P : Operand → Prop}
    (h : setFirst p value ops = some ops') (hops : ∀ op ∈ ops, P op)
    (hnew : ∀ op ∈ ops, p op → P { op with value }) : ∀ op ∈ ops', P op := by
  obtain ⟨front, op, back, rfl, _, hop, rfl⟩ := setFirst_eq_some h
  intro a ha
  rcases List.mem_append.1 ha with ha | ha
  · exact hops a (List.mem_append_left _ ha)
  · rcases List.mem_cons.1 ha with rfl | ha
    · exact hnew op (by simp) hop
    · exact hops a (by simp [ha])

end Instruction

open Instruction (Drawn Shaped)

theorem Template.shaped_instruction (t : Template) : t.instruction.Shaped t where
  destination := by simp [instruction, Function.comp_def]
  sources := by simp [instruction, Function.comp_def]

theorem Template.drawn_instruction (supplies : Slot → OperandValue → Prop)
    (ht : t ∈ catalog.templates) (hunset : ∀ slot, supplies slot .unset) :
    t.instruction.Drawn catalog t.name .unset supplies where
  name := rfl
  shaped := ⟨t, ht, rfl, t.shaped_instruction⟩
  native := rfl
  harmless := rfl
  target := by
    intro o ho
    obtain ⟨_, _, rfl⟩ := Option.map_eq_some_iff.1 ho
    rfl
  sources := by
    intro o ho
    obtain ⟨_, _, rfl⟩ := List.mem_map.1 ho
    exact hunset _

theorem Catalog.drawn_instruction (supplies : Slot → OperandValue → Prop)
    (hi : catalog.instruction opcode = .ok i) (hunset : ∀ slot, supplies slot .unset) :
    i.Drawn catalog opcode .unset supplies := by
  obtain ⟨t, ht, rfl, rfl⟩ := Catalog.instruction_template hi
  exact Template.drawn_instruction supplies ht hunset

namespace Instruction.Drawn

theorem mono (h : i.Drawn catalog opcode target supplies)
    (hsub : ∀ slot value, supplies slot value → supplies' slot value) :
    i.Drawn catalog opcode target supplies' :=
  { h with sources := fun o ho => hsub _ _ (h.sources o ho) }

theorem shaped_of_mem (h : i.Drawn catalog opcode target supplies) (ht : t ∈ catalog.templates)
    (hname : t.name = opcode) : i.Shaped t := by
  obtain ⟨t', ht', hname', hshaped⟩ := h.shaped
  have hsame : t' = t :=
    List.inj_on_of_nodup_map catalog.nodup ht' ht (hname'.trans hname.symm)
  exact hsame ▸ hshaped

theorem withId (h : i.Drawn catalog opcode target supplies) (id : Id) :
    Drawn catalog opcode target supplies { i with id } := by
  obtain ⟨t, ht, hname, hdestination, hsources⟩ := h.shaped
  exact { h with shaped := ⟨t, ht, hname, hdestination, hsources⟩ }

theorem rewire {sources : List Operand} (h : i.Drawn catalog opcode target supplies)
    (hfields : sources.map Operand.field = i.sources.map Operand.field)
    (hsources : ∀ o ∈ sources, supplies o.slot o.value) :
    Drawn catalog opcode target supplies { i with sources } :=
  { h with
    sources := hsources
    shaped := by
      obtain ⟨t, ht, hname, hsame⟩ := h.shaped
      exact ⟨t, ht, hname, hsame.destination, hfields.trans hsame.sources⟩ }

theorem setSource (h : i.Drawn catalog opcode target supplies)
    (hset : i.setSource slot value action = .ok i') (hvalue : supplies slot value) :
    i'.Drawn catalog opcode target supplies := by
  obtain ⟨sources, hfirst, rfl⟩ := setSource_ok.1 hset
  refine h.rewire (fields_setFirst hfirst) (forall_setFirst hfirst h.sources ?_)
  intro o _ hslot
  rw [decide_eq_true_eq] at hslot
  exact hslot ▸ hvalue

/-- Sources have the types that their slots are for in a declared template. -/
theorem admits (h : i.Drawn catalog opcode target supplies)
    (htyped : ∀ t ∈ catalog.templates, t.Typed) {o : Operand} (ho : o ∈ i.sources) :
    o.slot.admits o.type := by
  obtain ⟨t, ht, _, hshaped⟩ := h.shaped
  apply htyped t ht o.field
  rw [← hshaped.sources]
  exact List.mem_map_of_mem ho

theorem setImmediate (h : i.Drawn catalog opcode target supplies)
    (htyped : ∀ t ∈ catalog.templates, t.Typed)
    (hset : i.setImmediate value action = .ok i') (hvalue : supplies .imm value) :
    i'.Drawn catalog opcode target supplies := by
  obtain ⟨sources, hfirst, rfl⟩ := setImmediate_ok.1 hset
  refine h.rewire (fields_setFirst hfirst) (forall_setFirst hfirst h.sources ?_)
  intro o ho htype
  rw [decide_eq_true_eq] at htype
  have hslot : o.slot = .imm := by
    have hadmits := h.admits htyped ho
    rw [htype] at hadmits
    revert hadmits
    cases o.slot <;> simp [Slot.admits]
  exact hslot ▸ hvalue

theorem setDestination (h : i.Drawn catalog opcode target supplies)
    (hset : i.setDestination value action = .ok i') :
    i'.Drawn catalog opcode value supplies := by
  obtain ⟨o, hdest, rfl⟩ := setDestination_ok.1 hset
  refine ⟨h.name, ?_, h.native, h.harmless, ?_, h.sources⟩
  · obtain ⟨t, ht, hname, hsame⟩ := h.shaped
    refine ⟨t, ht, hname, ?_, hsame.sources⟩
    rw [← hsame.destination, hdest]
    rfl
  · rintro _ ⟨⟩
    rfl

end Instruction.Drawn
end PlanLowering
