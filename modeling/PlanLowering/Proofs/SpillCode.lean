import PlanLowering.Proofs.AllocatedCode
import PlanLowering.Proofs.Machine

/-!
# What spill code does

A reload, a save and a move of the stack pointer, each run on its own. They come from a declared
catalog, whose templates have the operands that the names promise.
-/

namespace PlanLowering

variable {xlen : Xlen} {σ : Type} {p : Processor xlen σ} {m : Machine xlen σ}

structure Instruction.Spills (xlen : Xlen) (effect : Effect) (i : Instruction) : Prop where
  native : i.form = .native
  harmless : i.clobbers = []
  typed : i.Typed
  effect : xlen.effect? i.name = some effect

namespace Instruction

variable {effect : Effect} {i i' : Instruction} {slot : Slot}
variable {value : OperandValue} {action : String} {r : Register}

theorem Spills.setSource (h : i.Spills xlen effect)
    (hset : i.setSource slot value action = .ok i') :
    i'.Spills xlen effect ∧ i'.destination = i.destination := by
  obtain ⟨sources, hfirst, rfl⟩ := setSource_ok.1 hset
  exact ⟨⟨h.native, h.harmless, typed_setFirst hfirst h.typed, h.effect⟩, rfl⟩

theorem Spills.setImmediate (h : i.Spills xlen effect)
    (hset : i.setImmediate value action = .ok i') :
    i'.Spills xlen effect ∧ i'.destination = i.destination := by
  obtain ⟨sources, hfirst, rfl⟩ := setImmediate_ok.1 hset
  exact ⟨⟨h.native, h.harmless, typed_setFirst hfirst h.typed, h.effect⟩, rfl⟩

theorem Spills.setDestination (h : i.Spills xlen effect)
    (hset : i.setDestination (.reg r) action = .ok i') :
    i'.Spills xlen effect ∧ i'.target? = some r := by
  obtain ⟨op, _, rfl⟩ := setDestination_ok.1 hset
  exact ⟨⟨h.native, h.harmless, h.typed, h.effect⟩, rfl⟩

theorem Spills.isLabel (h : i.Spills xlen effect) : i.isLabel = false := by
  simp [Instruction.isLabel, h.native]

theorem Spills.based (h : i.Spills xlen effect) {base : Register} {v : Int} {i₁ : Instruction}
    {action' : String} (hbase : i.setSource .rs1 (.reg base) action = .ok i₁)
    (himm : i₁.setImmediate (.imm v) action' = .ok i') :
    i'.Spills xlen effect ∧ i'.sourceRegister? .rs1 = some base ∧ i'.immediate? = some v ∧
      i'.target? = i.target? ∧ i'.sourceRegister? .rs2 = i.sourceRegister? .rs2 := by
  obtain ⟨h₁, hdest₁⟩ := h.setSource hbase
  obtain ⟨h₂, hdest₂⟩ := h₁.setImmediate himm
  have hrs1 : i'.sourceRegister? .rs1 = some base := by
    rw [sourceRegister_setImmediate h₁.typed (by decide) himm, sourceRegister_setSource hbase]
  have hrs2 : i'.sourceRegister? .rs2 = i.sourceRegister? .rs2 := by
    rw [sourceRegister_setImmediate h₁.typed (by decide) himm,
      sourceRegister_setSource_of_ne (by decide) hbase]
  refine ⟨h₂, hrs1, immediate_setImmediate himm, ?_, hrs2⟩
  exact congrArg (fun dest => dest.bind Operand.register?) (hdest₂.trans hdest₁)

theorem Spills.address (h : i.Spills xlen effect) {base : Register} {v : Int} {i₁ : Instruction}
    (hbase : i.setSource .rs1 (.reg base) action = .ok i₁)
    (himm : i₁.setImmediate (.imm v) action = .ok i') (id : Id) :
    Instruction.Spills xlen effect { i' with id } ∧
      m.address? { i' with id } = some ((m.registers base).toNat + v) ∧
      Instruction.target? { i' with id } = i.target? ∧
      Instruction.sourceRegister? { i' with id } .rs2 = i.sourceRegister? .rs2 := by
  obtain ⟨hi', hrs1, hvalue, htarget, hrs2⟩ := h.based hbase himm
  have haddress : m.address? i' = some ((m.registers base).toNat + v) := by
    simp [Machine.address?, hrs1, hvalue]
  exact ⟨⟨hi'.native, hi'.harmless, hi'.typed, hi'.effect⟩, haddress, htarget, hrs2⟩

theorem Spills.register {s : Register} (h : i.Spills xlen effect) (hs : i.target? ≠ some s) :
    (p.exec m i).registers s = m.registers s :=
  Processor.exec_register hs (Processor.not_destroyed_of_harmless h.native h.harmless)

theorem Spills.registers (h : i.Spills xlen effect) (htarget : i.target? = some r) :
    (p.exec m i).registers = Function.update m.registers r (p.value m i r) := by
  funext s
  by_cases hs : s = r
  · subst hs
    rw [Processor.exec_target h.isLabel htarget, Function.update_self]
  · rw [Function.update_of_ne hs, h.register]
    simpa [htarget] using Ne.symm hs

end Instruction

theorem Xlen.bytes_pos (xlen : Xlen) : 0 < xlen.bytes := by
  cases xlen <;> decide

namespace SpillCode

variable {spill : SpillCode} {r : Register} {slot : Nat} {id : Id} {o : Instruction}

/-- Spill code comes from a declared catalog under the names that the register width asks for. -/
structure Declared (xlen : Xlen) (spill : SpillCode) : Prop where
  width : spill.width = xlen.bytes
  load : ∀ r i, spill.template r true = .ok i → i.Spills xlen .load
  store : ∀ r i, spill.template r false = .ok i → i.Spills xlen .store ∧ ∀ s, i.target? ≠ some s
  adjust : spill.adjust.Spills xlen .sum

theorem effect_spillOpcode (xlen : Xlen) (file : RegisterFile) (load : Bool) :
    xlen.effect? (xlen.spillOpcode file load) = some (if load then .load else .store) := by
  cases xlen <;> cases file <;> cases load <;> decide

theorem spills_of_blank {i : Instruction} {effect : Effect} (h : i.Blank)
    (heffect : xlen.effect? i.name = some effect) : i.Spills xlen effect :=
  ⟨h.native, h.harmless, h.typed, heffect⟩

theorem target_of_blank {i : Instruction} (h : i.Blank) (r : Register) : i.target? ≠ some r := by
  unfold Instruction.target?
  cases hdest : i.destination with
  | none => simp
  | some op =>
    have hunset := h.unset op (by simp [hdest])
    simp [Operand.register?, hunset]

theorem ofContext_declared {context : Context} {specs : List TemplateSpec} {width : Xlen}
    (hcatalog : Catalog.ofSpecs specs width = .ok context.catalog)
    (h : ofContext context = .ok spill) : spill.Declared context.environment.xlen := by
  have htemplate : ∀ r load i, spill.template r load = .ok i → i.Blank ∧
      i.Spills context.environment.xlen (if load then .load else .store) := by
    intro r load i hi
    obtain ⟨hblank, hname⟩ := Catalog.instruction_blank hcatalog (template_ok h hi)
    exact ⟨hblank, spills_of_blank hblank (hname ▸ effect_spillOpcode _ _ _)⟩
  obtain ⟨hadjust, hwidth⟩ := adjust_ok h
  obtain ⟨hblank, hname⟩ := Catalog.instruction_blank hcatalog hadjust
  constructor
  case width => exact hwidth
  case load => exact fun r i hi => (htemplate r true i hi).2
  case store =>
    intro r i hi
    obtain ⟨hblank, hspills⟩ := htemplate r false i hi
    exact ⟨hspills, target_of_blank hblank⟩
  case adjust => exact spills_of_blank hblank (hname ▸ rfl)

def cell (spill : SpillCode) (m : Machine xlen σ) (slot : Nat) : Int :=
  (m.registers .sp).toNat + spill.offset slot

def word (spill : SpillCode) (m : Machine xlen σ) (slot : Nat) : xlen.Word :=
  Memory.load m.memory (spill.cell m slot)

theorem cell_congr {m' : Machine xlen σ} (h : m'.registers .sp = m.registers .sp) (n : Nat) :
    spill.cell m' n = spill.cell m n := by
  rw [cell, cell, h]

theorem cells_disjoint (h : spill.Declared xlen) {n n' : Nat} (hne : n ≠ n') :
    spill.cell m n + xlen.bytes ≤ spill.cell m n' ∨
      spill.cell m n' + xlen.bytes ≤ spill.cell m n := by
  have hoffset : ∀ k k' : Nat, k < k' → k * xlen.bytes + xlen.bytes ≤ k' * xlen.bytes := by
    intro k k' hlt
    rw [← Nat.succ_mul]
    exact Nat.mul_le_mul_right _ hlt
  simp only [cell, offset, h.width]
  rcases Nat.lt_or_gt_of_ne hne with hlt | hlt
  · exact .inl (by have := hoffset n n' hlt; omega)
  · exact .inr (by have := hoffset n' n hlt; omega)

theorem exec_reload (h : spill.Declared xlen) (ho : spill.reload r slot id = .ok o) :
    o.isLabel = false ∧ o.target? = some r ∧
      (p.exec m o).registers =
        Function.update m.registers r (xlen.fill r.file (spill.word m slot)) ∧
      (p.exec m o).memory = m.memory := by
  simp only [reload, except_bind_ok, except_pure_ok] at ho
  obtain ⟨i, htemplate, i₁, hdest, i₂, hbase, i₃, himm, rfl⟩ := ho
  obtain ⟨h₁, htarget⟩ := (h.load r i htemplate).setDestination hdest
  obtain ⟨ho, haddress, htarget', _⟩ := h₁.address (m := m) hbase himm s!"{id}.reload"
  rw [htarget] at htarget'
  refine ⟨ho.isLabel, htarget', ?_, ?_⟩
  · rw [ho.registers htarget']
    simp [Processor.value, ho.effect, haddress, word, cell]
  · simp only [Processor.exec, ho.isLabel, Processor.memoryAfter, ho.effect, haddress]
    rfl

theorem exec_save (h : spill.Declared xlen) (ho : spill.save r slot id = .ok o) :
    o.isLabel = false ∧ o.target? = none ∧ (p.exec m o).registers = m.registers ∧
      (p.exec m o).memory =
        Memory.store m.memory (spill.cell m slot) (xlen.low (m.registers r)) := by
  simp only [save, except_bind_ok, except_pure_ok] at ho
  obtain ⟨i, htemplate, i₁, hrs2, i₂, hbase, i₃, himm, rfl⟩ := ho
  obtain ⟨h₀, hunset⟩ := h.store r i htemplate
  obtain ⟨h₁, hdest⟩ := h₀.setSource hrs2
  obtain ⟨ho, haddress, htarget, hsource⟩ := h₁.address (m := m) hbase himm s!"{id}.spill"
  rw [Instruction.sourceRegister_setSource hrs2] at hsource
  have hnone : Instruction.target? { i₃ with id := s!"{id}.spill" } = none := by
    rw [htarget, Instruction.target?, hdest]
    exact Option.eq_none_iff_forall_ne_some.2 hunset
  refine ⟨ho.isLabel, hnone, ?_, ?_⟩
  · funext s
    exact ho.register (by simp [hnone])
  · simp only [Processor.exec, ho.isLabel, Processor.memoryAfter, ho.effect, haddress, hsource]
    rfl

theorem word_store (h : spill.Declared xlen) {m' : Machine xlen σ} {v : xlen.Word} {n : Nat}
    (hsp : m'.registers .sp = m.registers .sp)
    (hmemory : m'.memory = Memory.store m.memory (spill.cell m slot) v) :
    spill.word m' n = if n = slot then v else spill.word m n := by
  rw [word, cell_congr hsp, hmemory]
  split
  · next hn => rw [hn, Memory.load_store]
  · next hn => exact Memory.load_store_of_disjoint (cells_disjoint h hn)

theorem exec_moveStack {bytes : Int} (h : spill.Declared xlen)
    (ho : spill.moveStack bytes id = .ok o) :
    o.isLabel = false ∧ o.target? = some .sp ∧
      (p.exec m o).registers =
        Function.update m.registers .sp (m.registers .sp + BitVec.ofInt _ bytes) ∧
      (p.exec m o).memory = m.memory := by
  simp only [moveStack, except_bind_ok, except_pure_ok] at ho
  obtain ⟨i₁, hdest, i₂, hbase, i₃, himm, rfl⟩ := ho
  obtain ⟨h₁, htarget⟩ := h.adjust.setDestination hdest
  obtain ⟨ho, haddress, htarget', _⟩ := h₁.address (m := m) hbase himm id
  rw [htarget] at htarget'
  refine ⟨ho.isLabel, htarget', ?_, ?_⟩
  · rw [ho.registers htarget']
    simp [Processor.value, ho.effect, haddress, BitVec.ofInt_add]
  · simp only [Processor.exec, ho.isLabel, Processor.memoryAfter, ho.effect, haddress]
    rfl

end SpillCode
end PlanLowering
