import PlanLowering.Proofs.FirstBlock
import PlanLowering.Proofs.Legalized
import PlanLowering.Proofs.LoweringSteps
import PlanLowering.Proofs.TestCode
import PlanLowering.Proofs.WorkedLists

/-!
# Placeholders in lowered programs

Allocation gives every id a register, so an operand of the output is open exactly if selection left
it open. The code around the bodies is complete on its own. What remains are the opcodes that the
plan pins itself: a program has no placeholder if and only if all of these fit their steps.
-/

namespace PlanLowering

variable {context : Context} {state state' : State} {code out : List Instruction}
variable {i o : Instruction} {t : Template} {slots : List Slot} {name : String}

section Allocation

variable {op op' : Operand} {ops ops' : List Operand} {spill : SpillCode}

theorem Operand.Placed.concrete (h : op.Placed op') : op'.isConcrete ↔ op.isSettled := by
  unfold Placed at h
  cases hvirtual : op.virtual? with
  | none =>
    rw [hvirtual] at h
    simp [h, isSettled, hvirtual]
  | some id =>
    rw [hvirtual] at h
    obtain ⟨r, rfl⟩ := h
    simp [isConcrete, isSettled, hvirtual]

theorem Operand.forall_placed (h : List.Forall₂ Operand.Placed ops ops') :
    (∀ op ∈ ops', op.isConcrete) ↔ ∀ op ∈ ops, op.isSettled := by
  induction h with
  | nil => simp
  | cons hop _ ih => rw [List.forall_mem_cons, List.forall_mem_cons, hop.concrete, ih]

theorem Instruction.Placed.allocated (h : i.Placed o) : o.isAllocated ↔ i.isSettled := by
  rw [Instruction.isAllocated_iff, Instruction.isSettled_iff]
  exact Operand.forall_placed (List.rel_append h.destination h.sources)

theorem Xlen.spillOpcode_named (xlen : Xlen) (file : RegisterFile) (load : Bool) :
    (xlen.spillOpcode file load, if load then [.rd, .rs1, .imm] else [.rs1, .rs2, .imm]) ∈
      Catalog.namedOpcodes := by
  cases xlen <;> cases file <;> cases load <;>
    simp [spillOpcode, wordLoad, wordStore, floatLoad, floatStore, Catalog.namedOpcodes]

abbrev Instruction.Concrete (t : Template) (slots : List Slot) (i : Instruction) : Prop :=
  i.Wired Operand.isConcrete t slots

theorem Instruction.Concrete.allocated (h : i.Concrete t slots) (hslots : t.slots ⊆ slots) :
    i.isAllocated := Instruction.isAllocated_iff.2 (h.good_iff.2 hslots)

variable (hcomplete : context.catalog.Complete)
include hcomplete

theorem concrete_named (hname : (name, slots) ∈ Catalog.namedOpcodes)
    (h : context.catalog.instruction name = .ok i) :
    ∃ t : Template, t.Typed ∧ t.slots ⊆ slots ∧ i.Concrete t [] := by
  obtain ⟨t, ht, hslots, rfl⟩ := hcomplete.instruction hname h
  exact ⟨t, ht, hslots, Instruction.wired_instruction fun _ => Operand.not_isConcrete_of_unset⟩

theorem allocated_li {i₁ : Instruction} {r : Register} {value : OperandValue}
    {need need' : String} (hvalue : ∀ op : Operand, Operand.isConcrete { op with value })
    (hi : context.catalog.instruction "li" = .ok i)
    (hrd : i.setDestination (.reg r) need = .ok i₁)
    (himm : i₁.setImmediate value need' = .ok o) : o.isAllocated := by
  obtain ⟨t, ht, hslots, hwired⟩ := concrete_named hcomplete
    (show ("li", [.rd, .imm]) ∈ _ by simp [Catalog.namedOpcodes]) hi
  have hwired := hwired.setDestination ht hrd fun _ _ => rfl
  have hwired := hwired.setImmediate ht himm hvalue
  exact Instruction.Concrete.allocated hwired (List.Subset.trans hslots (by simp))

theorem allocated_based {i₁ i₂ : Instruction} {r base : Register} {value : Int}
    {need need' need'' : String} (hname : (name, [.rd, .rs1, .imm]) ∈ Catalog.namedOpcodes)
    (hi : context.catalog.instruction name = .ok i)
    (hrd : i.setDestination (.reg r) need = .ok i₁)
    (hrs1 : i₁.setSource .rs1 (.reg base) need' = .ok i₂)
    (himm : i₂.setImmediate (.imm value) need'' = .ok o) : o.isAllocated := by
  obtain ⟨t, ht, hslots, hwired⟩ := concrete_named hcomplete hname hi
  have hwired := hwired.setDestination ht hrd fun _ _ => rfl
  have hwired := hwired.setSource ht hrs1 fun _ _ => rfl
  have hwired := hwired.setImmediate ht himm fun _ => rfl
  exact Instruction.Concrete.allocated hwired (List.Subset.trans hslots (by simp))

theorem allocated_store {i₁ i₂ : Instruction} {r base : Register} {value : Int}
    {need need' need'' : String} (hname : (name, [.rs1, .rs2, .imm]) ∈ Catalog.namedOpcodes)
    (hi : context.catalog.instruction name = .ok i)
    (hrs2 : i.setSource .rs2 (.reg r) need = .ok i₁)
    (hrs1 : i₁.setSource .rs1 (.reg base) need' = .ok i₂)
    (himm : i₂.setImmediate (.imm value) need'' = .ok o) : o.isAllocated := by
  obtain ⟨t, ht, hslots, hwired⟩ := concrete_named hcomplete hname hi
  have hwired := hwired.setSource ht hrs2 fun _ _ => rfl
  have hwired := hwired.setSource ht hrs1 fun _ _ => rfl
  have hwired := hwired.setImmediate ht himm fun _ => rfl
  exact Instruction.Concrete.allocated hwired (List.Subset.trans hslots (by simp))

theorem SpillCode.Makes.allocated (hspill : SpillCode.ofContext context = .ok spill)
    (h : spill.Makes o) : o.isAllocated := by
  cases h with
  | reload h =>
    simp only [SpillCode.reload, except_bind_ok, except_pure_ok] at h
    obtain ⟨i, hi, i₁, hrd, i₂, hrs1, i₃, himm, rfl⟩ := h
    have hload := SpillCode.template_ok hspill hi
    show i₃.isAllocated
    exact allocated_based hcomplete (Xlen.spillOpcode_named _ _ true) hload hrd hrs1 himm
  | save h =>
    simp only [SpillCode.save, except_bind_ok, except_pure_ok] at h
    obtain ⟨i, hi, i₁, hrs2, i₂, hrs1, i₃, himm, rfl⟩ := h
    have hstore := SpillCode.template_ok hspill hi
    show i₃.isAllocated
    exact allocated_store hcomplete (Xlen.spillOpcode_named _ _ false) hstore hrs2 hrs1 himm
  | moveStack h =>
    simp only [SpillCode.moveStack, except_bind_ok, except_pure_ok] at h
    obtain ⟨i₁, hrd, i₂, hrs1, i₃, himm, rfl⟩ := h
    have hadjust := (SpillCode.adjust_ok hspill).1
    show i₃.isAllocated
    exact allocated_based hcomplete (by simp [Catalog.namedOpcodes]) hadjust hrd hrs1 himm

theorem Allocation.apply_allocated {a : Allocation} (h : a.apply context code = .ok out) :
    (∀ o ∈ out, o.isAllocated) ↔ ∀ i ∈ code, i.isSettled := by
  obtain ⟨spill, hspill, hkept, hout⟩ := mem_apply h
  constructor
  · intro hall i hi
    obtain ⟨o, ho, hplaced⟩ := hkept i hi
    exact hplaced.allocated.1 (hall o ho)
  · intro hall o ho
    rcases hout o ho with hmade | ⟨i, hi, hplaced⟩
    · exact hmade.allocated hcomplete hspill
    · exact hplaced.allocated.2 (hall i hi)

theorem lowerRoutine_allocated {actions : List Action}
    (h : lowerRoutine actions context state = .ok out state') :
    (∀ o ∈ out, o.isAllocated) ↔
      ∀ pin ∈ Action.pinsAll actions, pin.fits context.catalog := by
  obtain ⟨expanded, _, selected, _, legal, _, hexpand, hselect, hlegal, hallocate⟩ :=
    lowerRoutine_passes h
  obtain ⟨a, _, _, _, happly⟩ := allocate_ok hallocate
  obtain ⟨hcovers, hexpanded⟩ := Action.expandAll_covers hexpand
  rw [Allocation.apply_allocated hcomplete happly, legalize_settled hcomplete hlegal,
    Action.selectAll_settled hcomplete hexpanded hselect]
  constructor
  · intro hall pin hpin
    exact hall pin (hcovers.kept hpin)
  · intro hall pin hpin
    rcases hcovers.own pin hpin with hpin | hpin
    · exact hall pin hpin
    · exact Pin.fits_own hcomplete pin hpin

end Allocation

section Around

variable {r : Register} {symbol owner : String} {offset : Int}

theorem csrDirective_allocated (csr : String) (access : CsrAccess) (direct : Bool) :
    (Instruction.csrDirective csr access direct).isAllocated := by
  cases access <;> rfl

variable (hcomplete : context.catalog.Complete)
include hcomplete

namespace TestFrame

theorem loadSymbol_allocated (h : loadSymbol context r symbol = .ok o) : o.isAllocated := by
  simp only [loadSymbol, except_bind_ok, except_pure_ok] at h
  obtain ⟨i, hi, i₁, hrd, i₂, himm, rfl⟩ := h
  show i₂.isAllocated
  exact allocated_li hcomplete (fun _ => rfl) hi hrd himm

theorem storageLoad_allocated (h : storageLoad context offset = .ok o) : o.isAllocated := by
  simp only [storageLoad, except_bind_ok] at h
  obtain ⟨i, hi, i₁, hrd, i₂, hrs1, himm⟩ := h
  exact allocated_based hcomplete (Xlen.spillOpcode_named _ .gpr true) hi hrd hrs1 himm

theorem storageStore_allocated (h : storageStore context offset = .ok o) : o.isAllocated := by
  simp only [storageStore, except_bind_ok] at h
  obtain ⟨i, hi, i₁, hrs2, i₂, hrs1, himm⟩ := h
  exact allocated_store hcomplete (Xlen.spillOpcode_named _ .gpr false) hi hrs2 hrs1 himm

theorem openStack_allocated {stack : Id} {size : UInt64}
    (h : openStack context stack size = .ok out) : ∀ o ∈ out, o.isAllocated := by
  simp only [openStack, except_bind_ok, except_pure_ok] at h
  obtain ⟨i, hbytes, i₁, hbytesRd, bytes, hbytesImm, j, htop, j₁, htopRd, j₂, htopRs1, top,
    htopRs2, k, halign, k₁, halignRd, k₂, halignRs1, align, halignImm, page, hpage, rfl⟩ := h
  have hbytes : bytes.isAllocated :=
    allocated_li hcomplete (fun _ => rfl) hbytes hbytesRd hbytesImm
  have htop : top.isAllocated := by
    obtain ⟨t, ht, hslots, hwired⟩ := concrete_named hcomplete
      (show ("add", [.rd, .rs1, .rs2]) ∈ _ by simp [Catalog.namedOpcodes]) htop
    have hwired := hwired.setDestination ht htopRd fun _ _ => rfl
    have hwired := hwired.setSource ht htopRs1 fun _ _ => rfl
    have hwired := hwired.setSource ht htopRs2 fun _ _ => rfl
    exact Instruction.Concrete.allocated hwired (List.Subset.trans hslots (by simp))
  have halign : align.isAllocated :=
    allocated_based hcomplete (by simp [Catalog.namedOpcodes]) halign halignRd halignRs1 halignImm
  simp only [List.forall_mem_cons]
  exact ⟨loadSymbol_allocated hcomplete hpage, hbytes, htop, halign, by simp⟩

end TestFrame

namespace Harness

theorem jumpThrough_allocated (h : jumpThrough context symbol owner = .ok out) :
    ∀ o ∈ out, o.isAllocated := by
  simp only [jumpThrough, except_bind_ok, except_pure_ok] at h
  obtain ⟨i, haddress, i₁, haddressRd, address, haddressImm, j, htarget, j₁, htargetRd, j₂,
    htargetRs1, target, htargetImm, k, hjump, k₁, hjumpRd, k₂, hjumpRs1, jump, hjumpImm, rfl⟩ := h
  have haddress : address.isAllocated :=
    allocated_li hcomplete (fun _ => rfl) haddress haddressRd haddressImm
  have htarget : target.isAllocated :=
    allocated_based hcomplete (Xlen.spillOpcode_named _ .gpr true) htarget htargetRd htargetRs1
      htargetImm
  have hjump : jump.isAllocated :=
    allocated_based hcomplete (by simp [Catalog.namedOpcodes]) hjump hjumpRd hjumpRs1 hjumpImm
  simp only [List.forall_mem_cons]
  exact ⟨haddress, htarget, hjump, by simp⟩

end Harness

/-- The code around bodies neither has placeholders nor hides one. -/
theorem Framing.allocated : Framing context fun i => i.isAllocated where
  label _ _ := rfl
  read csr := csrDirective_allocated csr _ _
  write csr := csrDirective_allocated csr _ _
  page _ _ := TestFrame.loadSymbol_allocated hcomplete
  store _ _ := TestFrame.storageStore_allocated hcomplete
  load _ _ := TestFrame.storageLoad_allocated hcomplete
  stack _ _ _ := TestFrame.openStack_allocated hcomplete
  jump _ _ _ := Harness.jumpThrough_allocated hcomplete

end Around

def Routine.isAllocated (r : Routine) : Bool := r.instructions.all Instruction.isAllocated

theorem Routine.isAllocated_iff {r : Routine} :
    r.isAllocated ↔ ∀ i ∈ r.instructions, i.isAllocated := by
  simp [isAllocated]

namespace Program

def routines (p : Program) : List Routine := p.tests ++ p.functions ++ p.harness

section Lower

variable {functions : List Action} {tests : List TestCase} {test : TestCase} {routine : Routine}
variable {routines : List Routine} {program : Program}
variable (hcomplete : context.catalog.Complete)
include hcomplete

theorem lowerFunctions_allocated
    (h : lowerFunctions functions context state = .ok routines state') :
    (∀ routine ∈ routines, routine.isAllocated) ↔
      ∀ pin ∈ Action.pinsAll functions, pin.fits context.catalog := by
  replace h := lowerFunctions_ok.1 h
  induction h with
  | done => simp
  | next hout _ ih =>
    rw [List.forall_mem_cons, Routine.isAllocated_iff, lowerRoutine_allocated hcomplete hout,
      Action.pinsAll_cons, Action.pinsAll_cons, Action.pinsAll_nil, List.append_nil,
      List.forall_mem_append]
    exact and_congr Iff.rfl ih

theorem lowerTest_allocated (h : lowerTest test context state = .ok routine state') :
    routine.isAllocated ↔ ∀ pin ∈ Action.pinsAll test.actions, pin.fits context.catalog := by
  obtain ⟨c, hc, rfl⟩ := lowerTest_ok h
  obtain ⟨opened, closed, label, _, hbody, _⟩ := hc.run
  rw [Routine.isAllocated_iff, ← lowerRoutine_allocated hcomplete hbody]
  exact (Framing.allocated hcomplete).instructions hc

theorem lowerTests_allocated (h : lowerTests tests context state = .ok routines state') :
    (∀ routine ∈ routines, routine.isAllocated) ↔
      ∀ test ∈ tests, ∀ pin ∈ Action.pinsAll test.actions, pin.fits context.catalog := by
  replace h := lowerTests_ok.1 h
  induction h with
  | done => simp
  | next hown _ ih =>
    rw [List.forall_mem_cons, List.forall_mem_cons, lowerTest_allocated hcomplete hown]
    exact and_congr Iff.rfl ih

theorem ofTests_allocated (hfresh : ∀ test ∈ tests, Action.areFresh test.actions)
    (h : ofTests tests context state = .ok program state') :
    (∀ routine ∈ program.routines, routine.isAllocated) ↔
      ∀ test ∈ tests, ∀ pin ∈ Action.pinsAll test.actions, pin.fits context.catalog := by
  obtain ⟨batch, _, _, _, _, hbatch, hfunctions, _, hlowered, hharness, _⟩ := ofTests_ok h
  have hharness : ∀ routine ∈ program.harness, routine.isAllocated := fun routine hroutine =>
    Routine.isAllocated_iff.2 ((Framing.allocated hcomplete).routines hharness routine hroutine)
  simp only [routines, List.forall_mem_append, lowerTests_allocated hcomplete hlowered,
    lowerFunctions_allocated hcomplete hfunctions]
  constructor
  · rintro ⟨⟨htests, hfunctions⟩, _⟩ test htest pin hpin
    rcases (CanonicalBatch.ofTests_pins hfresh hbatch).1 ⟨test, htest, hpin⟩ with
      ⟨test', htest', hpin'⟩ | hpin'
    · exact htests test' htest' pin hpin'
    · exact hfunctions pin hpin'
  · intro hall
    have hbatched : ∀ pin, ((∃ test ∈ batch.tests, pin ∈ Action.pinsAll test.actions) ∨
        pin ∈ Action.pinsAll batch.functions) → pin.fits context.catalog := by
      intro pin hpin
      obtain ⟨test, htest, hpin⟩ := (CanonicalBatch.ofTests_pins hfresh hbatch).2 hpin
      exact hall test htest pin hpin
    exact ⟨⟨fun test htest pin hpin => hbatched pin (.inl ⟨test, htest, hpin⟩),
      fun pin hpin => hbatched pin (.inr hpin)⟩, hharness⟩

end Lower

theorem buildTests_pins {scenarios : List Scenario} {tests : List TestCase}
    (h : buildTests .standard scenarios = .ok tests) :
    (∀ test ∈ tests, Action.areFresh test.actions) ∧
      tests.map (fun test => Action.pinsAll test.actions) =
        scenarios.map (fun scenario => Step.pinsAll scenario.steps) := by
  induction scenarios generalizing tests with
  | nil =>
    simp only [buildTests, except_pure_ok] at h
    simp [← h]
  | cons scenario rest ih =>
    simp only [buildTests, StepBuilders.buildTest, except_bind_ok, except_pure_ok] at h
    obtain ⟨test, ⟨actions, hactions, rfl⟩, more, hmore, rfl⟩ := h
    obtain ⟨hfresh, hpins⟩ := StepBuilders.buildAll_pins hactions
    obtain ⟨hmoreFresh, hmorePins⟩ := ih hmore
    rw [List.forall_mem_cons, List.map_cons, List.map_cons, hpins, hmorePins]
    exact ⟨⟨hfresh, hmoreFresh⟩, rfl⟩

/-- A program has no placeholder if and only if every opcode that its plan pins has just the slots
that are wired in its step. -/
theorem allocated_iff_pins_fit {scenarios : List Scenario} {program : Program}
    (hcatalog : Catalog.builtin context.environment.xlen = .ok context.catalog)
    (h : lowerScenarios .standard context scenarios = .ok program) :
    (∀ routine ∈ program.routines, ∀ i ∈ routine.instructions, i.isAllocated) ↔
      ∀ scenario ∈ scenarios, ∀ pin ∈ Step.pinsAll scenario.steps, pin.fits context.catalog := by
  simp only [lowerScenarios, except_bind_ok] at h
  obtain ⟨tests, htests, h⟩ := h
  obtain ⟨hfresh, hpins⟩ := buildTests_pins htests
  cases hrun : ofTests tests context (.start context.options) with
  | error e final => simp [hrun] at h
  | ok lowered final =>
    simp only [hrun, except_pure_ok] at h
    subst h
    have hallocated := ofTests_allocated (Catalog.builtin_complete hcatalog) hfresh hrun
    simp only [Routine.isAllocated_iff] at hallocated
    rw [hallocated]
    have hlists : ∀ pins, (∃ test ∈ tests, Action.pinsAll test.actions = pins) ↔
        ∃ scenario ∈ scenarios, Step.pinsAll scenario.steps = pins := by
      intro pins
      rw [← List.mem_map, ← List.mem_map, hpins]
    constructor
    · intro hall scenario hscenario
      obtain ⟨test, htest, hsame⟩ := (hlists _).2 ⟨scenario, hscenario, rfl⟩
      exact hsame ▸ hall test htest
    · intro hall test htest
      obtain ⟨scenario, hscenario, hsame⟩ := (hlists _).1 ⟨test, htest, rfl⟩
      exact hsame ▸ hall scenario hscenario

/-- A fence asks for two registers, and its step wires none. -/
def fence : List Scenario :=
  [{ name := "t", steps := [{ id := "a", kind := .system "sfence.vma" }] }]

def fenceContext (catalog : Catalog) : Context := { catalog, environment := {}, options := {} }

theorem fence_lowers : ∃ catalog program, Catalog.builtin .rv64 = .ok catalog ∧
    lowerScenarios .standard (fenceContext catalog) fence = .ok program ∧
    ∃ routine ∈ program.routines, ∃ i ∈ routine.instructions, i.isAllocated = false := by
  obtain ⟨program, h⟩ : ∃ program, lowerScenarios .standard (fenceContext .rv64) fence =
      .ok program ∧ ∃ routine ∈ program.routines, ∃ i ∈ routine.instructions, i.isAllocated = false :=
    exists_lowered rfl (by decide +kernel)
  exact ⟨.rv64, program, Catalog.builtin_rv64, h⟩

theorem fence_allocated_iff_pins_fit : ∃ catalog program, Catalog.builtin .rv64 = .ok catalog ∧
    lowerScenarios .standard (fenceContext catalog) fence = .ok program ∧
    ((∀ routine ∈ program.routines, ∀ i ∈ routine.instructions, i.isAllocated) ↔
      ∀ scenario ∈ fence, ∀ pin ∈ Step.pinsAll scenario.steps, pin.fits catalog) := by
  obtain ⟨catalog, program, hcatalog, h, _⟩ := fence_lowers
  have hbuiltin : Catalog.builtin (fenceContext catalog).environment.xlen =
      .ok (fenceContext catalog).catalog := hcatalog
  exact ⟨catalog, program, hcatalog, h, allocated_iff_pins_fit hbuiltin h⟩

theorem fence_leaves_placeholder : ¬ ∀ (context : Context) (scenarios : List Scenario)
    (program : Program), Catalog.builtin context.environment.xlen = .ok context.catalog →
      lowerScenarios .standard context scenarios = .ok program →
      ∀ routine ∈ program.routines, ∀ i ∈ routine.instructions, i.isAllocated := by
  intro hall
  obtain ⟨catalog, program, hcatalog, h, routine, hroutine, i, hi, hopen⟩ := fence_lowers
  have hallocated := hall (fenceContext catalog) fence program hcatalog h routine hroutine i hi
  rw [hopen] at hallocated
  cases hallocated

end Program
end PlanLowering
