import PlanLowering.Proofs.Complete
import PlanLowering.Proofs.FunctionCode
import PlanLowering.Proofs.RenumberedActions

/-!
# Selection in lockstep

Actions under other numbers are selected to the same instructions under other numbers. What selection
draws depends on the catalog and on what an action asks for, and on no name.
-/

namespace PlanLowering

open Lower (Lockstep)

section Ids

variable (f : Id → Id)

def OperandValue.mapId : OperandValue → OperandValue
  | .virtual id => .virtual (f id)
  | value => value

def Operand.mapId (op : Operand) : Operand := { op with value := op.value.mapId f }

def Instruction.mapIds (i : Instruction) : Instruction :=
  { i with
    id := f i.id
    destination := i.destination.map (Operand.mapId f)
    sources := i.sources.map (Operand.mapId f) }

variable {f} {op : Operand} {i : Instruction} {value : OperandValue}

theorem OperandValue.mapId_of_not_virtual (h : ∀ id, value ≠ .virtual id) : value.mapId f = value := by
  cases value with
  | virtual id => exact absurd rfl (h id)
  | _ => rfl

theorem OperandValue.imm_ne_virtual (v : Int) (id : Id) : imm v ≠ .virtual id := by simp

@[simp] theorem OperandValue.mapId_eq_unset : value.mapId f = .unset ↔ value = .unset := by
  cases value <;> simp [mapId]

theorem Operand.mapId_of_not_virtual (h : ∀ id, op.value ≠ .virtual id) : op.mapId f = op := by
  rw [mapId, OperandValue.mapId_of_not_virtual h]

@[simp] theorem Operand.slot_mapId : (op.mapId f).slot = op.slot := rfl

@[simp] theorem Operand.type_mapId : (op.mapId f).type = op.type := rfl

@[simp] theorem Operand.virtual?_mapId : (op.mapId f).virtual? = op.virtual?.map f := by
  obtain ⟨slot, type, value⟩ := op
  cases type <;> cases value <;> rfl

@[simp] theorem Instruction.virtualSources_mapIds :
    (i.mapIds f).virtualSources = i.virtualSources.map f := by
  simp [virtualSources, mapIds, List.filterMap_map, List.map_filterMap]

@[simp] theorem Instruction.virtualDestination?_mapIds :
    (i.mapIds f).virtualDestination? = i.virtualDestination?.map f := by
  cases h : i.destination <;> simp [virtualDestination?, mapIds, h]

end Ids

structure Instruction.Renumbered (f : Id → Id) (i i' : Instruction) : Prop where
  same : i' = i.mapIds f
  lodged : ∀ op ∈ i.operands, ∀ id, op.value = .virtual id → op.type.isRegister

structure Instruction.Wires (f : Id → Id) (i i' : Instruction) : Prop extends Renumbered f i i' where
  typed : ∀ op ∈ i.sources, op.slot.admits op.type
  target : ∀ op ∈ i.destination, op.type.isRegister

namespace Instruction

variable {f : Id → Id} {i i' : Instruction} {slot : Slot} {value : OperandValue} {action action' : String}

theorem setFirst_mapId {p : Operand → Bool} (hp : ∀ op : Operand, p (op.mapId f) = p op)
    (value : OperandValue) (ops : List Operand) :
    setFirst p (value.mapId f) (ops.map (Operand.mapId f)) =
      (setFirst p value ops).map (List.map (Operand.mapId f)) := by
  induction ops with
  | nil => rfl
  | cons op rest ih =>
    rw [List.map_cons, setFirst, setFirst, hp]
    split
    · rfl
    · rw [ih, Option.map_map, Option.map_map]
      rfl

theorem mem_setFirst {p : Operand → Bool} {ops ops' : List Operand} {op : Operand}
    (h : setFirst p value ops = some ops') (hop : op ∈ ops') :
    op ∈ ops ∨ ∃ old ∈ ops, p old ∧ op = { old with value } := by
  obtain ⟨front, old, back, rfl, -, hold, rfl⟩ := setFirst_eq_some h
  simp only [List.mem_append, List.mem_cons] at hop ⊢
  rcases hop with hop | rfl | hop
  · exact .inl (.inl hop)
  · exact .inr ⟨old, .inr (.inl rfl), hold, rfl⟩
  · exact .inl (.inr (.inr hop))

theorem Wires.blank {t : Template} (hf : f "" = "") (ht : t.Typed) :
    t.instruction.Wires f t.instruction where
  same := by
    simp only [mapIds, Template.instruction, hf, List.map_map, Option.map_map]
    rfl
  lodged op hop id hvalue := by
    have hunset := (Template.instruction_blank ht).unset op hop
    rw [hunset] at hvalue
    cases hvalue
  typed := (Template.instruction_blank ht).typed
  target op hop := by
    obtain ⟨file, -, rfl⟩ := Option.map_eq_some_iff.1 hop
    rfl

/-- Wiring one source in both instructions keeps them alike, or no source is found in either. -/
theorem Wires.setFirst {p : Operand → Bool} (h : i.Wires f i')
    (hp : ∀ op : Operand, p (op.mapId f) = p op)
    (hvalue : ∀ op : Operand, op.slot.admits op.type → p op → ∀ id, value = .virtual id →
      op.type.isRegister) :
    Option.Rel (Wires f)
      ((Instruction.setFirst p value i.sources).map fun sources => { i with sources })
      ((Instruction.setFirst p (value.mapId f) i'.sources).map fun sources => { i' with sources }) := by
  have hsources : i'.sources = i.sources.map (Operand.mapId f) := by rw [h.same]; rfl
  rw [hsources, setFirst_mapId hp]
  cases hset : Instruction.setFirst p value i.sources with
  | none => exact .none
  | some sources =>
    have hsame := h.same
    subst hsame
    refine .some ⟨⟨rfl, fun op hop id hid => ?_⟩, fun op hop => ?_, h.target⟩
    · rcases List.mem_append.1 hop with hop | hop
      · exact h.lodged op (List.mem_append_left _ hop) id hid
      · rcases mem_setFirst hset hop with hold | ⟨old, hold, hpold, rfl⟩
        · exact h.lodged op (List.mem_append_right _ hold) id hid
        · exact hvalue old (h.typed old hold) hpold id hid
    · rcases mem_setFirst hset hop with hold | ⟨old, hold, -, rfl⟩
      · exact h.typed op hold
      · exact h.typed old hold

theorem Wires.setSource (h : i.Wires f i') (hslot : ∀ id, value = .virtual id → slot ∈ Slot.registers) :
    Option.Rel (Wires f) (i.setSource slot value action).toOption
      (i'.setSource slot (value.mapId f) action').toOption := by
  have hset : Option.Rel (Wires f) (i.setSource? slot value) (i'.setSource? slot (value.mapId f)) :=
    h.setFirst (fun _ => rfl) fun op hop hp id hid =>
      Slot.isRegister_of_admits (of_decide_eq_true hp ▸ hslot id hid) hop
  unfold Instruction.setSource
  generalize i.setSource? slot value = first at hset ⊢
  generalize i'.setSource? slot (value.mapId f) = second at hset ⊢
  cases hset with
  | none => exact .none
  | some h => exact .some h

theorem Wires.setImmediate (h : i.Wires f i') (hvalue : ∀ id, value ≠ .virtual id) :
    Option.Rel (Wires f) (i.setImmediate value action).toOption
      (i'.setImmediate value action').toOption := by
  have hset := @Wires.setFirst f i i' value (·.type = .imm) h (fun _ => rfl)
    fun _ _ _ id hid => absurd hid (hvalue id)
  rw [OperandValue.mapId_of_not_virtual hvalue] at hset
  unfold Instruction.setImmediate setImmediate?
  generalize (Instruction.setFirst _ _ i.sources).map _ = first at hset ⊢
  generalize (Instruction.setFirst _ _ i'.sources).map _ = second at hset ⊢
  cases hset with
  | none => exact .none
  | some h => exact .some h

theorem Wires.setDestination (h : i.Wires f i') :
    Option.Rel (Wires f) (i.setDestination value action).toOption
      (i'.setDestination (value.mapId f) action').toOption := by
  have hsame := h.same
  subst hsame
  unfold Instruction.setDestination
  cases hdest : i.destination with
  | none =>
    simp only [mapIds, hdest, Option.map_none]
    exact .none
  | some op =>
    simp only [mapIds, hdest, Option.map_some]
    have htarget : op.type.isRegister := h.target op hdest
    refine .some ⟨⟨rfl, fun o ho id hid => ?_⟩, h.typed, fun o ho => ?_⟩
    · rcases List.mem_append.1 ho with ho | ho
      · have hop : o = { op with value } := (Option.some.inj (Option.mem_toList.1 ho)).symm
        rw [hop]
        exact htarget
      · exact h.lodged o (List.mem_append_right _ ho) id hid
    · have hop : o = { op with value } := (Option.some.inj ho).symm
      rw [hop]
      exact htarget

theorem Wires.source? (h : i.Wires f i') (slot : Slot) :
    i'.source? slot = (i.source? slot).map (Operand.mapId f) := by
  rw [h.same]
  show (i.sources.map (Operand.mapId f)).find? _ = _
  rw [List.find?_map]
  rfl

theorem Wires.hasImmediate (h : i.Wires f i') : i'.hasImmediate = i.hasImmediate := by
  rw [h.same]
  show (i.sources.map (Operand.mapId f)).any _ = _
  rw [List.any_map]
  rfl

theorem Wires.name (h : i.Wires f i') : i'.name = i.name := by rw [h.same]; rfl

end Instruction

section Select

variable {m : Nat} {context : Context} {i i' : Instruction} {slot : Slot} {value : OperandValue}
variable {action action' : String}

abbrev Instruction.WiresPast (m : Nat) := Instruction.Wires (FreshIds.skip m)

namespace Lower.Lockstep

open Instruction (WiresPast)

theorem withSource (h : i.WiresPast m i') (hslot : ∀ id, value = .virtual id → slot ∈ Slot.registers) :
    Lockstep m context (WiresPast m) (withSource i slot value action)
      (withSource i' slot (value.mapId (FreshIds.skip m)) action') :=
  ofExcept (h.setSource hslot)

theorem withVirtual (h : i.WiresPast m i') (hslot : slot ∈ Slot.registers) (id : Id) :
    Lockstep m context (WiresPast m) (Lower.withSource i slot (.virtual id) action)
      (Lower.withSource i' slot (.virtual (FreshIds.skip m id)) action') :=
  @withSource m context i i' slot (.virtual id) action action' h fun _ _ => hslot

theorem withSymbol (h : i.WiresPast m i') (slot : Slot) (name : String) :
    Lockstep m context (WiresPast m) (Lower.withSource i slot (.symbol name) action)
      (Lower.withSource i' slot (.symbol name) action') :=
  @withSource m context i i' slot (.symbol name) action action' h (by simp)

theorem withImmediate (h : i.WiresPast m i') (hvalue : ∀ id, value ≠ .virtual id) :
    Lockstep m context (WiresPast m) (withImmediate i value action) (withImmediate i' value action') :=
  ofExcept (h.setImmediate hvalue)

theorem withDestination (h : i.WiresPast m i') :
    Lockstep m context (WiresPast m) (withDestination i value action)
      (withDestination i' (value.mapId (FreshIds.skip m)) action') :=
  ofExcept h.setDestination

theorem expect {α : Type} (f : α → α) (missing : ExpansionResult) (x : Option α) :
    Lockstep m context (fun a a' => a' = f a) (expect action missing x)
      (expect action' missing (x.map f)) := by
  cases x with
  | none => exact throw _ _
  | some a => exact pure rfl

variable (hcatalog : ∀ t ∈ context.catalog.templates, t.Typed)
include hcatalog

theorem chooseFrom {candidates : List Template} (filter filter' : TemplateFilter)
    (hcandidates : candidates ⊆ context.catalog.templates) :
    Lockstep m context (WiresPast m) (chooseFrom candidates filter) (chooseFrom candidates filter') := by
  have hdraw : Lockstep m context Eq (Lower.chooseFrom candidates filter)
      (Lower.chooseFrom candidates filter') := by
    refine (draw_self _).bind fun found _ hfound => ?_
    subst hfound
    cases found with
    | none => exact throw _ _
    | some t => exact pure rfl
  refine (hdraw.and_left fun _ _ _ => Lower.chooseFrom_ok).mono fun i i' hi => ?_
  obtain ⟨rfl, t, ht, rfl⟩ := hi
  exact .blank (FreshIds.skip_empty m) (hcatalog t (hcandidates ht))

theorem drawInstruction (name : String) :
    Lockstep m context (WiresPast m) (Lower.instruction name) (Lower.instruction name) := by
  have htemplate : ∀ s i t, Lower.instruction name context s = .ok i t →
      ∃ t ∈ context.catalog.templates, t.name = name ∧ t.instruction = i := fun s i t hi =>
    Catalog.instruction_template (Lower.instruction_ok.1 hi).1
  refine ((instruction name).and_left htemplate).mono fun i i' hi => ?_
  obtain ⟨rfl, t, ht, -, rfl⟩ := hi
  exact .blank (FreshIds.skip_empty m) (hcatalog t ht)

end Lower.Lockstep

open Instruction (WiresPast)
open Lower.Lockstep (withVirtual withSymbol withImmediate withDestination withSource)

theorem Instruction.renumbered_self {f : Id → Id} (hid : f i.id = i.id)
    (hops : ∀ op ∈ i.operands, ∀ id, op.value ≠ .virtual id) : i.Renumbered f i where
  same := by
    have hdest : i.destination.map (Operand.mapId f) = i.destination := by
      cases hd : i.destination with
      | none => rfl
      | some op =>
        rw [Option.map_some, Operand.mapId_of_not_virtual (hops op (by simp [operands, hd]))]
    have hsources : i.sources.map (Operand.mapId f) = i.sources := by
      conv_rhs => rw [← List.map_id i.sources]
      exact List.map_congr_left fun op hop =>
        Operand.mapId_of_not_virtual (hops op (List.mem_append_right _ hop))
    rw [mapIds, hid, hdest, hsources]
  lodged op hop id hvalue := absurd hvalue (hops op hop id)

section Declared

variable (hcatalog : ∀ t ∈ context.catalog.templates, t.Typed)
include hcatalog

namespace Arithmetic

theorem template_lockstep (a : Arithmetic) : Lockstep m context (WiresPast m) a.template
    (template { a with src1 := a.src1.map (FreshIds.skip m), src2 := a.src2.map (FreshIds.skip m) }) := by
  refine Lockstep.read_bind ?_
  cases hfound : a.op.bind context.catalog.find? with
  | some t =>
    obtain ⟨name, -, ht⟩ := Option.bind_eq_some_iff.1 hfound
    exact .pure (.blank (FreshIds.skip_empty m) (hcatalog t (Catalog.mem_of_find? ht)))
  | none =>
    have hfilter : filter { a with
        src1 := a.src1.map (FreshIds.skip m)
        src2 := a.src2.map (FreshIds.skip m) } = a.filter := by
      cases h₁ : a.src1 <;> cases h₂ : a.src2 <;> simp [filter, h₁, h₂]
    rw [hfilter]
    refine Lockstep.read_bind ?_
    exact .chooseFrom hcatalog _ _ List.filter_sublist.subset

omit hcatalog in
theorem wireSource_lockstep (hslot : slot ∈ Slot.registers) (src : Option Id)
    (h : i.WiresPast m i') : Lockstep m context (WiresPast m) (wireSource slot src action i)
      (wireSource slot (src.map (FreshIds.skip m)) action' i') := by
  unfold wireSource
  rw [h.source? slot]
  cases i.source? slot with
  | none =>
    cases src with
    | none => exact .pure h
    | some id => exact .throw _ _
  | some op =>
    cases src with
    | none =>
      refine Lockstep.freshValue.bind fun id _ hid => ?_
      rw [hid]
      exact withVirtual h hslot id
    | some id => exact withVirtual h hslot id

omit hcatalog in
theorem wireImmediate_lockstep (imm : Option Int) (h : i.WiresPast m i') :
    Lockstep m context (WiresPast m) (wireImmediate imm action i) (wireImmediate imm action' i') := by
  unfold wireImmediate
  rw [h.hasImmediate, h.name]
  cases i.hasImmediate with
  | true =>
    cases imm with
    | some v => exact withImmediate h (OperandValue.imm_ne_virtual v)
    | none =>
      refine (Lockstep.draw_self _).bind fun v _ hv => ?_
      rw [← hv]
      exact withImmediate h (OperandValue.imm_ne_virtual v)
  | false =>
    cases imm with
    | some v => exact .throw _ _
    | none => exact .pure h

theorem select_lockstep (a : Arithmetic) : Lockstep m context (WiresPast m) (a.select action)
    (select { a with src1 := a.src1.map (FreshIds.skip m), src2 := a.src2.map (FreshIds.skip m) }
      action') := by
  refine (template_lockstep hcatalog a).bind fun i i' h => ?_
  refine (wireSource_lockstep (by decide) _ h).bind fun i i' h => ?_
  refine (wireSource_lockstep (by decide) _ h).bind fun i i' h => ?_
  refine (wireImmediate_lockstep _ h).bind fun i i' h => ?_
  exact wireSource_lockstep (by decide) none h

end Arithmetic

namespace Access

theorem template_lockstep (a : Access) (filter : TemplateFilter) (skip : List String) :
    Lockstep m context (WiresPast m) (a.template filter skip)
      ((a.mapValues (FreshIds.skip m)).template filter skip) := by
  unfold template
  cases hop : a.op with
  | some op =>
    simp only [mapValues, hop]
    exact .drawInstruction hcatalog op
  | none =>
    simp only [mapValues, hop]
    have hcandidates : Lockstep m context (fun xs ys => ys = xs ∧ xs ⊆ context.catalog.templates)
        (a.candidates filter skip) ((a.mapValues (FreshIds.skip m)).candidates filter skip) := by
      refine Lockstep.read_bind (.pure ?_)
      exact ⟨rfl, (List.filter_sublist.trans List.filter_sublist).subset⟩
    refine hcandidates.bind fun xs ys h => ?_
    obtain ⟨rfl, hsubset⟩ := h
    exact .chooseFrom hcatalog _ _ hsubset

omit hcatalog in
theorem wire_lockstep (a : Access) (h : i.WiresPast m i') :
    Lockstep m context (WiresPast m) (a.wire action i)
      ((a.mapValues (FreshIds.skip m)).wire action' i') := by
  have hbase {i i' : Instruction} (h : i.WiresPast m i') : Lockstep m context (WiresPast m)
      (do
        let base ← Lower.expect action .baseRegister a.base
        Lower.withSource i .rs1 (.virtual base) action)
      (do
        let base ← Lower.expect action' .baseRegister (a.base.map (FreshIds.skip m))
        Lower.withSource i' .rs1 (.virtual base) action') := by
    refine (Lockstep.expect (FreshIds.skip m) _ a.base).bind fun base _ hbase => ?_
    rw [hbase]
    exact withVirtual h (by decide) base
  unfold wire
  rw [h.hasImmediate]
  refine .ite Iff.rfl ?_ (.ite Iff.rfl (.throw_bind _ _ _ _) ?_)
  · exact (withImmediate h (OperandValue.imm_ne_virtual a.offset)).bind fun _ _ hwired =>
      hbase hwired
  · exact (Lockstep.pure h).bind fun _ _ hwired => hbase hwired

theorem selectLoad_lockstep (a : Access) :
    Lockstep m context (WiresPast m) (a.selectLoad action)
      ((a.mapValues (FreshIds.skip m)).selectLoad action') :=
  (template_lockstep hcatalog a _ _).bind fun _ _ h => wire_lockstep a h

theorem selectStore_lockstep (a : Access) (value : Option Id) :
    Lockstep m context (WiresPast m) (a.selectStore value action)
      ((a.mapValues (FreshIds.skip m)).selectStore (value.map (FreshIds.skip m)) action') := by
  refine (template_lockstep hcatalog a _ _).bind fun _ _ h => ?_
  refine (wire_lockstep a h).bind fun _ _ h => ?_
  cases value with
  | some id =>
    exact (Lockstep.pure (R := fun id id' => id' = FreshIds.skip m id) rfl).bind fun id _ hid => by
      rw [hid]
      exact withVirtual h (by decide) id
  | none =>
    refine Lockstep.freshValue.bind fun id _ hid => ?_
    rw [hid]
    exact withVirtual h (by decide) id

end Access

theorem CsrWrite.select_lockstep (w : CsrWrite) :
    Lockstep m context (Instruction.Renumbered (FreshIds.skip m)) (w.select action)
      ((w.mapValues (FreshIds.skip m)).select action') := by
  have hwired {i i' : Instruction} (h : i.WiresPast m i') : Lockstep m context (WiresPast m)
      (do
        let i ← Lower.withSource i .csr (.symbol w.csr) action
        let src ← Lower.expect action .sourceValue w.src
        Lower.withSource i .rs1 (.virtual src) action)
      (do
        let i' ← Lower.withSource i' .csr (.symbol w.csr) action'
        let src ← Lower.expect action' .sourceValue (w.src.map (FreshIds.skip m))
        Lower.withSource i' .rs1 (.virtual src) action') := by
    refine (withSymbol h .csr w.csr).bind fun _ _ h => ?_
    refine (Lockstep.expect (FreshIds.skip m) _ w.src).bind fun src _ hsrc => ?_
    rw [hsrc]
    exact withVirtual h (by decide) src
  have hregister := ((Lockstep.drawInstruction hcatalog (w.how.mnemonic false)).bind fun _ _ h =>
    hwired h).mono fun _ _ h => h.toRenumbered
  refine Lockstep.environment_bind (.ite Iff.rfl (.pure ?_) ?_)
  · exact Instruction.renumbered_self (FreshIds.skip_empty m)
      (by simp [Instruction.operands, Instruction.csrDirective])
  · unfold mapValues
    rcases hvalue : w.value with _ | v
    · simpa only [hvalue] using hregister
    · rcases hgiven : w.src with _ | src
      · exact ((Lockstep.drawInstruction hcatalog (w.how.mnemonic true)).bind fun _ _ h =>
          (withSymbol h .csr w.csr).bind fun _ _ h =>
            withImmediate h (OperandValue.imm_ne_virtual v)).mono fun _ _ h => h.toRenumbered
      · simpa only [hvalue, hgiven, Option.map_some] using hregister

namespace Op

theorem selectLi_lockstep (v : Immediate) : Lockstep m context (WiresPast m) (selectLi v action)
    (selectLi v action') :=
  (Lockstep.drawInstruction hcatalog "li").bind fun _ _ h =>
    withImmediate h (by cases v <;> simp [Immediate.operand])

theorem selectCsrRead_lockstep (csr : String) (direct : Bool) :
    Lockstep m context (Instruction.Renumbered (FreshIds.skip m)) (selectCsrRead csr direct action)
      (selectCsrRead csr direct action') := by
  refine Lockstep.environment_bind (.ite Iff.rfl (.pure ?_) ?_)
  · exact Instruction.renumbered_self (FreshIds.skip_empty m)
      (by simp [Instruction.operands, Instruction.csrDirective])
  · exact ((Lockstep.drawInstruction hcatalog "csrr").bind fun _ _ h =>
      withSymbol h .csr csr).mono fun _ _ h => h.toRenumbered

theorem selectCall_lockstep (target : Id) (base : Option Id) :
    Lockstep m context (Instruction.Renumbered (FreshIds.skip m)) (selectCall target base action)
      (selectCall target (base.map (FreshIds.skip m)) action') := by
  refine (Lockstep.expect (FreshIds.skip m) _ base).bind fun base _ hbase => ?_
  rw [hbase]
  refine (Lockstep.drawInstruction hcatalog "jalr").bind fun _ _ h => ?_
  refine (withDestination h).bind fun _ _ h => ?_
  refine (withVirtual h (by decide) base).bind fun _ _ h => ?_
  refine (withImmediate h (OperandValue.imm_ne_virtual 0)).bind fun _ _ h => .pure ⟨?_, h.lodged⟩
  rw [h.same]
  rfl

theorem selectCompare_lockstep (relation : Relation) (lhs rhs : Id) (pass : Option String) :
    Lockstep m context (WiresPast m) (selectCompare relation lhs rhs pass action)
      (selectCompare relation (FreshIds.skip m lhs) (FreshIds.skip m rhs) pass action') := by
  have hpass : Lockstep m context Eq (Lower.expect action .passLabel pass)
      (Lower.expect action' .passLabel pass) := by
    cases pass with
    | none => exact .throw _ _
    | some pass => exact .pure rfl
  refine hpass.bind fun pass _ hsame => ?_
  rw [← hsame]
  refine (Lockstep.drawInstruction hcatalog _).bind fun _ _ h => ?_
  refine (withVirtual h (by decide) lhs).bind fun _ _ h => ?_
  exact (withVirtual h (by decide) rhs).bind fun _ _ h => withSymbol h .offset pass

theorem select_lockstep (id : Id) (op : Op) :
    Lockstep m context (Instruction.Renumbered (FreshIds.skip m)) (op.select id action)
      ((op.mapValues (FreshIds.skip m)).select (FreshIds.skip m id) action') := by
  have hnative {p p' : Lower Instruction} (h : Lockstep m context (WiresPast m) p p') :
      Lockstep m context (Instruction.Renumbered (FreshIds.skip m)) p p' :=
    h.mono fun _ _ hwires => hwires.toRenumbered
  have hdraw (name : String) := @Lockstep.drawInstruction m context hcatalog name
  have hclobbers {i i' : Instruction} (h : i.WiresPast m i') :
      Instruction.Renumbered (FreshIds.skip m) { i with clobbers := runtimeClobbers }
        { i' with clobbers := runtimeClobbers } :=
    ⟨by rw [h.same]; rfl, h.lodged⟩
  cases op with
  | arithmetic a => exact hnative (a.select_lockstep hcatalog)
  | li v => exact hnative (selectLi_lockstep hcatalog v)
  | liToT2 v =>
    refine (selectLi_lockstep hcatalog v).bind fun _ _ h => ?_
    exact (withDestination h).bind fun _ _ h => .pure (hclobbers h)
  | moveToT2 src =>
    refine (hdraw "mv").bind fun _ _ h => ?_
    refine (withDestination h).bind fun _ _ h => ?_
    exact (withVirtual h (by decide) src).bind fun _ _ h => .pure (hclobbers h)
  | moveFromT2 src =>
    exact hnative ((hdraw "mv").bind fun i i' h =>
      @withSource m context i i' .rs1 (.reg .t2) action action' h (by simp))
  | label name pointer => exact .pure ⟨rfl, by simp [Instruction.operands, Instruction.label]⟩
  | load access => exact hnative (access.selectLoad_lockstep hcatalog)
  | store access value => exact hnative (access.selectStore_lockstep hcatalog value)
  | memory spec => exact .throw _ _
  | ret => exact hnative (hdraw "ret")
  | call target base => exact selectCall_lockstep hcatalog target base
  | csrRead csr direct => exact selectCsrRead_lockstep hcatalog csr direct
  | csrWrite w => exact w.select_lockstep hcatalog
  | compare relation lhs rhs pass => exact hnative (selectCompare_lockstep hcatalog relation lhs rhs pass)
  | jumpToFail address =>
    refine hnative ((Lockstep.expect (FreshIds.skip m) _ address).bind fun address _ haddress => ?_)
    rw [haddress]
    exact (hdraw "jr").bind fun _ _ h => withVirtual h (by decide) address
  | readPte target | writePte target =>
    refine Lockstep.environment_bind (.pure ?_)
    exact Instruction.renumbered_self (FreshIds.skip_empty m)
      (by simp [Instruction.operands, PteTarget.directive])
  | modifyPte page level recursive => exact .throw _ _
  | system instruction => exact hnative (hdraw instruction)
  | comment text => exact .pure ⟨rfl, by simp [Instruction.operands, Instruction.comment]⟩

end Op

namespace Action

omit hcatalog in
theorem Renumbered.id_eq {f : Id → Id} {a a' : Action} (h : a.Renumbered f a') : a'.id = f a.id := by
  cases h with
  | page spec hid => exact hid.symm
  | _ => rfl

theorem select_lockstep {a a' : Action} (h : a.Renumbered (FreshIds.skip m) a') :
    Lockstep m context (Instruction.Renumbered (FreshIds.skip m)) a.select a'.select := by
  have hid : a'.id = FreshIds.skip m a.id := h.id_eq
  have hnamed {i i' : Instruction} (hi : i.Renumbered (FreshIds.skip m) i') :
      Instruction.Renumbered (FreshIds.skip m) { i with id := a.id } { i' with id := a'.id } :=
    ⟨by rw [hi.same, hid]; rfl, hi.lodged⟩
  cases h with
  | simple id expanded op =>
    exact (op.select_lockstep hcatalog id).bind fun _ _ hi => .pure (hnamed hi)
  | page spec hfixed =>
    refine (Lockstep.pure ?_).bind fun _ _ hi => .pure (hnamed hi)
    exact Instruction.renumbered_self hfixed (by simp [Instruction.operands, Instruction.label])
  | assertion id expanded cause fault resume hcode =>
    have hblock (action action' : String) : Lockstep m context (Instruction.Renumbered (FreshIds.skip m))
        (Block.select id action (.assertException cause fault resume))
        (Block.select (FreshIds.skip m id) action' (.assertException cause fault resume)) := by
      cases fault <;> cases resume
      case some.some =>
        exact .pure (Instruction.renumbered_self (FreshIds.skip_empty m) (by simp [Instruction.operands]))
      all_goals exact .throw _ _
    exact (hblock _ _).bind fun _ _ hi => .pure (hnamed hi)

omit hcatalog in
theorem openDestination_renumbered {f : Id → Id} (id : Id) (h : i.Renumbered f i') :
    (openDestination id i).Renumbered f (openDestination (f id) i') where
  same := by
    have hdest : (i.destination.map (Operand.mapId f)).map (fun op =>
        if op.type.isRegister ∧ op.value = .unset then { op with value := .virtual (f id) } else op) =
        (i.destination.map fun op =>
          if op.type.isRegister ∧ op.value = .unset then { op with value := .virtual id } else op).map
            (Operand.mapId f) := by
      rw [Option.map_map, Option.map_map]
      refine Option.map_congr fun op _ => ?_
      by_cases hopen : op.type.isRegister ∧ op.value = .unset
      · simp [Operand.mapId, hopen, OperandValue.mapId]
      · have hopen' : ¬ ((op.mapId f).type.isRegister ∧ (op.mapId f).value = .unset) := by
          simpa [Operand.mapId] using hopen
        simp only [Function.comp_apply, if_neg hopen, if_neg hopen']
    rw [h.same]
    simp only [openDestination, Instruction.mapIds, hdest]
  lodged op hop id' hvalue := by
    rcases List.mem_append.1 hop with hop | hop
    · obtain ⟨old, hold, rfl⟩ := Option.map_eq_some_iff.1 (Option.mem_toList.1 hop)
      split
      next hopen => exact hopen.1
      next hclosed =>
        rw [if_neg hclosed] at hvalue
        exact h.lodged old (List.mem_append_left _ (Option.mem_toList.2 hold)) id' hvalue
    · exact h.lodged op (List.mem_append_right _ hop) id' hvalue

theorem selectAll_lockstep {actions actions' : List Action}
    (h : List.Forall₂ (Renumbered (FreshIds.skip m)) actions actions') :
    Lockstep m context (List.Forall₂ (Instruction.Renumbered (FreshIds.skip m))) (selectAll actions)
      (selectAll actions') := by
  induction h with
  | nil => exact .pure .nil
  | cons ha hrest ih =>
    refine (select_lockstep hcatalog ha).bind fun i i' hi => ?_
    refine ih.bind fun more more' hmore => .pure (.cons ?_ hmore)
    rw [ha.id_eq]
    exact openDestination_renumbered _ hi

end Action

end Declared

end Select

namespace Instruction

abbrev Seam : List Instruction → List Instruction → Prop :=
  PlanLowering.Seam isPointerLabel isLabel

def notes (m : Nat) (text : Option String) : List Instruction :=
  text.toList.map fun text => .comment s!"r{m}" text

end Instruction

namespace Action

variable {m : Nat} {context : Context} {s t : State} {a : Action} {i : Instruction}
variable {xs ys : List Action} {code : List Instruction}

theorem select_places (h : a.select context s = .ok i t) :
    (openDestination a.id i).isPointerLabel = a.isPointerLabel ∧
      (openDestination a.id i).isLabel = a.isLabel := by
  have hform : (openDestination a.id i).form = i.form := rfl
  rw [Instruction.isPointerLabel, Instruction.isLabel, hform]
  cases a with
  | simple id expanded op =>
    obtain ⟨j, hj, rfl⟩ := select_simple_ok h
    simp only [Op.select_form hj]
    cases op with
    | csrRead csr direct | csrWrite w =>
      rw [Op.form]
      split <;> exact ⟨rfl, rfl⟩
    | label name pointer => cases pointer <;> exact ⟨rfl, rfl⟩
    | _ => exact ⟨rfl, rfl⟩
  | block id expanded owner code =>
    obtain ⟨j, hj, _, rfl⟩ := select_block_ok h
    cases hj <;> exact ⟨rfl, rfl⟩

theorem seam_selectAll {first second : List Instruction} {u v : State} (h : Seam xs ys)
    (hfirst : selectAll xs context s = .ok first t) (hsecond : selectAll ys context u = .ok second v) :
    Instruction.Seam first second := by
  have hplaces {actions : List Action} {code : List Instruction} {s t : State}
      (hrun : selectAll actions context s = .ok code t) :
      List.Forall₂ (fun (a : Action) i => i.isPointerLabel = a.isPointerLabel ∧ i.isLabel = a.isLabel)
        actions code := by
    refine (selectAll_each hrun).imp fun a o ho => ?_
    obtain ⟨i, s, t, hi, rfl⟩ := ho
    exact select_places hi
  exact h.of_forall₂ (hplaces hfirst) (hplaces hsecond)

theorem selectAll_append : selectAll (xs ++ ys) context s = .ok code t ↔ ∃ first u second,
    selectAll xs context s = .ok first u ∧ selectAll ys context u = .ok second t ∧
      code = first ++ second := by
  induction xs generalizing s code with
  | nil => simp [selectAll, eq_comm]
  | cons a rest ih =>
    simp only [List.cons_append, selectAll, Lower.bind_ok, Lower.pure_ok]
    grind

theorem selectAll_notes (m : Nat) (text : Option String) (s : State) :
    selectAll (notes m true text) context s = .ok (Instruction.notes m text) s := by
  cases text <;> rfl

theorem selectAll_noted (hcatalog : ∀ t ∈ context.catalog.templates, t.Typed) {text : Option String}
    (h : Noted (Renumbered (FreshIds.skip m)) Seam (notes m true text) xs ys) :
    Lockstep m context
      (Noted (Instruction.Renumbered (FreshIds.skip m)) Instruction.Seam (Instruction.notes m text))
      (selectAll xs) (selectAll ys) :=
  Lower.lockstep_noted (fun _ _ _ _ _ => selectAll_append) (selectAll_notes m text)
    (fun _ _ => selectAll_lockstep hcatalog) seam_selectAll h

end Action
end PlanLowering
