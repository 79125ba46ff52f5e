import PlanLowering.Program.Lower
import PlanLowering.Proofs.Catalog
import PlanLowering.Proofs.Wiring

/-!
# The code of a test

A lowered test is a body and what lowering puts around it. A property that all code around bodies
has belongs to a test just if it belongs to its body.
-/

namespace PlanLowering

variable {context : Context} {state state' : State} {code : List Instruction}
variable {i i₁ i₂ o : Instruction}

section Native

variable {name need need' need'' symbol owner : String} {value value' value'' : OperandValue}
variable {r : Register} {offset : Int} {stack : Id} {size : UInt64}

theorem Instruction.native_constant (hi : context.catalog.instruction name = .ok i)
    (hrd : i.setDestination value need = .ok i₁) (himm : i₁.setImmediate value' need' = .ok o) :
    o.form = .native :=
  (setImmediate_form himm).trans ((setDestination_form hrd).trans (Catalog.instruction_form hi))

theorem Instruction.native_based (hi : context.catalog.instruction name = .ok i)
    (hrd : i.setDestination value need = .ok i₁)
    (hrs1 : i₁.setSource .rs1 value' need' = .ok i₂)
    (himm : i₂.setImmediate value'' need'' = .ok o) : o.form = .native :=
  (setImmediate_form himm).trans ((setSource_form hrs1).trans
    ((setDestination_form hrd).trans (Catalog.instruction_form hi)))

namespace TestFrame

theorem loadSymbol_native (h : loadSymbol context r symbol = .ok o) : o.form = .native := by
  simp only [loadSymbol, except_bind_ok, except_pure_ok] at h
  obtain ⟨i, hi, i₁, hrd, i₂, himm, rfl⟩ := h
  have hload := Instruction.native_constant hi hrd himm
  exact hload

theorem storageLoad_native (h : storageLoad context offset = .ok o) : o.form = .native := by
  simp only [storageLoad, except_bind_ok] at h
  obtain ⟨i, hi, i₁, hrd, i₂, hrs1, himm⟩ := h
  exact Instruction.native_based hi hrd hrs1 himm

theorem storageStore_native (h : storageStore context offset = .ok o) : o.form = .native := by
  simp only [storageStore, except_bind_ok] at h
  obtain ⟨i, hi, i₁, hrs2, i₂, hrs1, himm⟩ := h
  rw [Instruction.setImmediate_form himm, Instruction.setSource_form hrs1,
    Instruction.setSource_form hrs2, Catalog.instruction_form hi]

theorem openStack_native (h : openStack context stack size = .ok code) :
    ∀ o ∈ code, o.form = .native := by
  simp only [openStack, except_bind_ok, except_pure_ok] at h
  obtain ⟨i, hbytes, i₁, hbytesRd, bytes, hbytesImm, j, htop, j₁, htopRd, j₂, htopRs1, top,
    htopRs2, k, halign, k₁, halignRd, k₂, halignRs1, align, halignImm, page, hpage, rfl⟩ := h
  have hbytes := Instruction.native_constant hbytes hbytesRd hbytesImm
  have htop : top.form = .native := by
    rw [Instruction.setSource_form htopRs2, Instruction.setSource_form htopRs1,
      Instruction.setDestination_form htopRd, Catalog.instruction_form htop]
  have halign := Instruction.native_based halign halignRd halignRs1 halignImm
  simp only [List.forall_mem_cons]
  exact ⟨loadSymbol_native hpage, hbytes, htop, halign, by simp⟩

section Storage

variable {move : Nat → List String → Except LoweringError (List Instruction)} {csr : String}
variable {rest : List String}

theorem atStorage_nil (h : atStorage context move [] = .ok code) : code = [] := by
  rw [atStorage, except_pure_ok] at h
  exact h.symm

theorem atStorage_cons (h : atStorage context move (csr :: rest) = .ok code) :
    ∃ page moved, loadSymbol context .sp context.options.csrStorage = .ok page ∧
      move 0 (csr :: rest) = .ok moved ∧ code = page :: moved := by
  simp only [atStorage, except_bind_ok, except_pure_ok] at h
  obtain ⟨page, hpage, moved, hmoved, rfl⟩ := h
  exact ⟨page, moved, hpage, hmoved, rfl⟩

end Storage

end TestFrame

theorem Harness.jumpThrough_native (h : jumpThrough context symbol owner = .ok code) :
    ∀ o ∈ code, o.form = .native := by
  simp only [jumpThrough, except_bind_ok, except_pure_ok] at h
  obtain ⟨i, haddress, i₁, haddressRd, address, haddressImm, j, htarget, j₁, htargetRd, j₂,
    htargetRs1, target, htargetImm, k, hjump, k₁, hjumpRd, k₂, hjumpRs1, jump, hjumpImm, rfl⟩ := h
  have haddress := Instruction.native_constant haddress haddressRd haddressImm
  have htarget := Instruction.native_based htarget htargetRd htargetRs1 htargetImm
  have hjump := Instruction.native_based hjump hjumpRd hjumpRs1 hjumpImm
  simp only [List.forall_mem_cons]
  exact ⟨haddress, htarget, hjump, by simp⟩

end Native

/-- A body between the code that sets it up and the code that ends it. -/
structure TestCode where
  entry : Instruction
  save : List Instruction
  setup : List Instruction
  body : List Instruction
  restore : List Instruction
  passed : List Instruction

namespace TestCode

def prologue (c : TestCode) : List Instruction := c.entry :: c.save ++ c.setup

def epilogue (c : TestCode) : List Instruction := c.restore ++ c.passed

def instructions (c : TestCode) : List Instruction := c.prologue ++ c.body ++ c.epilogue

structure LowersTo (test : TestCase) (context : Context) (state state' : State) (c : TestCode) :
    Prop where
  run : ∃ opened closed label,
    Lower.reserve .data s!"{test.name}_stack" (Program.stackSpec context.options) context state =
      .ok () opened ∧
    lowerRoutine test.actions context opened = .ok c.body closed ∧
    Lower.freshLabel context closed = .ok label state' ∧ c.entry = .label label test.name false
  save : TestFrame.save context (TestFrame.runtimeCsrs c.body) = .ok c.save
  setup : ∃ size, TestFrame.openStack context s!"{test.name}_stack" size = .ok c.setup
  restore : TestFrame.restore context (TestFrame.runtimeCsrs c.body) = .ok c.restore
  passed : Harness.testPassed context test.name = .ok c.passed

end TestCode

theorem Program.lowerTest_ok {test : TestCase} {routine : Routine}
    (h : lowerTest test context state = .ok routine state') :
    ∃ c : TestCode, c.LowersTo test context state state' ∧
      routine = ⟨test.name, c.instructions⟩ := by
  simp only [lowerTest, Lower.bind_ok, Lower.read_ok, Lower.ofExcept_ok, Lower.get_ok,
    Lower.pure_ok] at h
  obtain ⟨_, _, ⟨rfl, rfl⟩, _, opened, hreserve, body, closed, hbody, label, _, hlabel, save, _,
    ⟨hsave, rfl⟩, _, _, ⟨rfl, rfl⟩, page, _, ⟨_, rfl⟩, setup, _, ⟨hsetup, rfl⟩, restore, _,
    ⟨hrestore, rfl⟩, passed, _, ⟨hpassed, rfl⟩, rfl, rfl⟩ := h
  refine ⟨⟨.label label test.name false, save, setup, body, restore, passed⟩, ?_, ?_⟩
  · exact ⟨⟨opened, closed, label, hreserve, hbody, hlabel, rfl⟩, hsave, ⟨_, hsetup⟩, hrestore,
      hpassed⟩
  · simp [TestCode.instructions, TestCode.prologue, TestCode.epilogue]

structure Framing (context : Context) (P : Instruction → Prop) : Prop where
  label : ∀ id name, P (.label id name false)
  read : ∀ csr, P (.csrDirective csr .read false)
  write : ∀ csr, P (.csrDirective csr (.update .write) false)
  page : ∀ symbol i, TestFrame.loadSymbol context .sp symbol = .ok i → P i
  store : ∀ offset i, TestFrame.storageStore context offset = .ok i → P i
  load : ∀ offset i, TestFrame.storageLoad context offset = .ok i → P i
  stack : ∀ stack size code, TestFrame.openStack context stack size = .ok code → ∀ i ∈ code, P i
  jump : ∀ symbol owner code, Harness.jumpThrough context symbol owner = .ok code →
    ∀ i ∈ code, P i

namespace Framing

variable {P : Instruction → Prop} {slot : Nat} {csrs : List String} {name : String}

theorem of_native (hlabel : ∀ id name, P (.label id name false))
    (hdirective : ∀ csr access, P (.csrDirective csr access false))
    (hnative : ∀ i : Instruction, i.form = .native → P i) : Framing context P where
  label := hlabel
  read csr := hdirective csr _
  write csr := hdirective csr _
  page _ _ h := hnative _ (TestFrame.loadSymbol_native h)
  store _ _ h := hnative _ (TestFrame.storageStore_native h)
  load _ _ h := hnative _ (TestFrame.storageLoad_native h)
  stack _ _ _ h i hi := hnative i (TestFrame.openStack_native h i hi)
  jump _ _ _ h i hi := hnative i (Harness.jumpThrough_native h i hi)

variable (hP : Framing context P)
include hP

theorem saveFrom (h : TestFrame.saveFrom context slot csrs = .ok code) : ∀ i ∈ code, P i := by
  induction csrs generalizing slot code with
  | nil =>
    rw [TestFrame.saveFrom, except_pure_ok] at h
    simp [← h]
  | cons csr rest ih =>
    simp only [TestFrame.saveFrom, except_bind_ok, except_pure_ok] at h
    obtain ⟨store, hstore, more, hmore, rfl⟩ := h
    simp only [List.forall_mem_cons]
    exact ⟨hP.read csr, hP.store _ _ hstore, ih hmore⟩

theorem restoreFrom (h : TestFrame.restoreFrom context slot csrs = .ok code) : ∀ i ∈ code, P i := by
  induction csrs generalizing slot code with
  | nil =>
    rw [TestFrame.restoreFrom, except_pure_ok] at h
    simp [← h]
  | cons csr rest ih =>
    simp only [TestFrame.restoreFrom, except_bind_ok, except_pure_ok] at h
    obtain ⟨load, hload, more, hmore, rfl⟩ := h
    simp only [List.forall_mem_cons]
    exact ⟨hP.load _ _ hload, hP.write csr, ih hmore⟩

theorem atStorage {move : Nat → List String → Except LoweringError (List Instruction)}
    (hmove : ∀ slot csrs code, move slot csrs = .ok code → ∀ i ∈ code, P i)
    (h : TestFrame.atStorage context move csrs = .ok code) : ∀ i ∈ code, P i := by
  cases csrs with
  | nil => simp [TestFrame.atStorage_nil h]
  | cons csr rest =>
    obtain ⟨page, moved, hpage, hmoved, rfl⟩ := TestFrame.atStorage_cons h
    exact List.forall_mem_cons.2 ⟨hP.page _ _ hpage, hmove _ _ _ hmoved⟩

theorem testPassed (h : Harness.testPassed context name = .ok code) : ∀ i ∈ code, P i := by
  simp only [Harness.testPassed, except_bind_ok, except_pure_ok] at h
  obtain ⟨jump, hjump, rfl⟩ := h
  exact List.forall_mem_cons.2 ⟨hP.label _ _, hP.jump _ _ _ hjump⟩

theorem routines {routines : List Routine} (h : Harness.routines context = .ok routines) :
    ∀ routine ∈ routines, ∀ i ∈ routine.instructions, P i := by
  have hroutine : ∀ {name symbol : String} {routine : Routine},
      Harness.routine context name symbol = .ok routine → ∀ i ∈ routine.instructions, P i := by
    intro name symbol routine h
    simp only [Harness.routine, except_bind_ok, except_pure_ok] at h
    obtain ⟨jump, hjump, rfl⟩ := h
    exact List.forall_mem_cons.2 ⟨hP.label _ _, hP.jump _ _ _ hjump⟩
  simp only [Harness.routines, except_bind_ok, except_pure_ok] at h
  obtain ⟨setup, hsetup, cleanup, hcleanup, failed, hfailed, rfl⟩ := h
  simp only [List.forall_mem_cons]
  exact ⟨hroutine hsetup, hroutine hcleanup, hroutine hfailed, by simp⟩

variable {test : TestCase} {c : TestCode} (h : c.LowersTo test context state state')
include h

theorem prologue : ∀ i ∈ c.prologue, P i := by
  obtain ⟨opened, closed, label, _, _, _, hentry⟩ := h.run
  obtain ⟨size, hsetup⟩ := h.setup
  simp only [TestCode.prologue, hentry, List.forall_mem_cons, List.forall_mem_append]
  exact ⟨⟨hP.label _ _, hP.atStorage (fun _ _ _ => hP.saveFrom) h.save⟩, hP.stack _ _ _ hsetup⟩

theorem epilogue : ∀ i ∈ c.epilogue, P i :=
  List.forall_mem_append.2
    ⟨hP.atStorage (fun _ _ _ => hP.restoreFrom) h.restore, hP.testPassed h.passed⟩

theorem instructions : (∀ i ∈ c.instructions, P i) ↔ ∀ i ∈ c.body, P i := by
  simp only [TestCode.instructions, List.forall_mem_append]
  exact ⟨fun hall => hall.1.2, fun hbody => ⟨⟨hP.prologue h, hbody⟩, hP.epilogue h⟩⟩

end Framing
end PlanLowering
