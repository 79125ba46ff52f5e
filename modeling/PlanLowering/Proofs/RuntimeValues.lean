import PlanLowering.Proofs.RuntimeAccess
import PlanLowering.Proofs.Rv64Catalog
import PlanLowering.Proofs.TestCode

/-!
# Values between code and runtime

In a lowered program whatever a directive takes from t2 was put there right in front of it, and
whatever it leaves in t2 is fetched right behind it. This holds of the code of the plan and of the
code around a test, which keeps control registers on a page of its own.
-/

namespace PlanLowering

open Instruction (Hands)

variable {context : Context} {state state' : State} {code : List Instruction} {i o : Instruction}

section Around

variable {name symbol owner : String} {offset : Int} {slot : Nat} {csrs : List String}

theorem Along.of_native (h : ∀ i ∈ code, i.form = .native) : Along Hands code .idle .idle := by
  induction code with
  | nil => exact .nil
  | cons i rest ih =>
    obtain ⟨hi, hrest⟩ := List.forall_mem_cons.1 h
    exact .cons (.native hi) (ih hrest)

namespace TestFrame

theorem storageLoad_hands (h : storageLoad context offset = .ok o) : o.Hands .idle .operand := by
  simp only [storageLoad, except_bind_ok, Instruction.setDestination_ok, Instruction.setSource_ok,
    Instruction.setImmediate_ok] at h
  obtain ⟨i, hi, _, ⟨_, _, rfl⟩, _, ⟨_, _, rfl⟩, _, _, rfl⟩ := h
  have hform := Catalog.instruction_form hi
  exact .fill hform rfl

theorem restoreFrom_hands (h : restoreFrom context slot csrs = .ok code) :
    Along Hands code .idle .idle := by
  induction csrs generalizing slot code with
  | nil =>
    rw [restoreFrom, except_pure_ok] at h
    exact h ▸ .nil
  | cons csr rest ih =>
    simp only [restoreFrom, except_bind_ok, except_pure_ok] at h
    obtain ⟨load, hload, more, hmore, rfl⟩ := h
    exact .cons (storageLoad_hands hload) (.cons (.csrUpdate _ _ _) (ih hmore))

theorem atStorage_hands {move : Nat → List String → Except LoweringError (List Instruction)}
    (hmove : ∀ slot csrs code, move slot csrs = .ok code → Along Hands code .idle .idle)
    (h : atStorage context move csrs = .ok code) : Along Hands code .idle .idle := by
  cases csrs with
  | nil => exact atStorage_nil h ▸ .nil
  | cons csr rest =>
    obtain ⟨page, moved, hpage, hmoved, rfl⟩ := atStorage_cons h
    exact .cons (.native (loadSymbol_native hpage)) (hmove _ _ _ hmoved)

end TestFrame

namespace Harness

theorem testPassed_hands (h : testPassed context name = .ok code) :
    Along Hands code .idle .idle := by
  simp only [testPassed, except_bind_ok, except_pure_ok] at h
  obtain ⟨jump, hjump, rfl⟩ := h
  exact .cons (.pass rfl) (Along.of_native (jumpThrough_native hjump))

theorem routines_hands {routines : List Routine} (h : Harness.routines context = .ok routines) :
    ∀ routine ∈ routines, Along Hands routine.instructions .idle .idle := by
  have hroutine : ∀ {name symbol : String} {routine : Routine},
      Harness.routine context name symbol = .ok routine →
        Along Hands routine.instructions .idle .idle := by
    intro name symbol routine h
    simp only [Harness.routine, except_bind_ok, except_pure_ok] at h
    obtain ⟨jump, hjump, rfl⟩ := h
    exact .cons (.pass rfl) (Along.of_native (jumpThrough_native hjump))
  simp only [Harness.routines, except_bind_ok, except_pure_ok] at h
  obtain ⟨setup, hsetup, cleanup, hcleanup, failed, hfailed, rfl⟩ := h
  simp only [List.forall_mem_cons]
  exact ⟨hroutine hsetup, hroutine hcleanup, hroutine hfailed, by simp⟩

end Harness

variable (htyped : ∀ t ∈ context.catalog.templates, t.Typed)
include htyped

/-- What was stored in t2 goes to memory, at an offset of the stack pointer. -/
theorem TestFrame.storageStore_hands (h : storageStore context offset = .ok o) :
    o.Hands .result .idle := by
  simp only [storageStore, except_bind_ok] at h
  obtain ⟨i, hi, i₁, hrs2, i₂, hrs1, himm⟩ := h
  have hdrawn := Catalog.drawn_instruction (fun _ value => ∀ id, value ≠ .virtual id) hi (by simp)
  have hbased := (hdrawn.setSource hrs2 (by simp)).setSource hrs1 (by simp)
  have hstored := hbased.setImmediate htyped himm (by simp)
  obtain ⟨sources₁, hfirst₁, rfl⟩ := Instruction.setSource_ok.1 hrs2
  obtain ⟨sources₂, hfirst₂, rfl⟩ := Instruction.setSource_ok.1 hrs1
  obtain ⟨sources₃, hfirst₃, rfl⟩ := Instruction.setImmediate_ok.1 himm
  obtain ⟨op, _, hop⟩ := Instruction.find?_setFirst (fun _ => rfl) hfirst₁
  rw [← Instruction.find?_setFirst_of_skip hfirst₂ (by simp_all),
    ← Instruction.find?_setFirst_of_skip hfirst₃ ?_] at hop
  · refine .fetch hstored.native ?_ ?_ ⟨_, List.mem_of_find?_eq_some hop, rfl⟩
    · rw [hstored.name]
      cases context.environment.xlen <;> decide
    · rw [Instruction.virtualSources, List.filterMap_eq_nil_iff]
      exact fun op hop => Operand.virtual?_eq_none (hstored.sources op hop)
  · intro op hop htype
    have hadmits := hbased.admits htyped hop
    rw [decide_eq_true_eq] at htype
    rw [htype] at hadmits
    have hslot : op.slot ≠ .rs2 := by
      intro hslot
      rw [hslot] at hadmits
      cases hadmits
    simp [hslot]

theorem TestFrame.saveFrom_hands (h : saveFrom context slot csrs = .ok code) :
    Along Hands code .idle .idle := by
  induction csrs generalizing slot code with
  | nil =>
    rw [saveFrom, except_pure_ok] at h
    exact h ▸ .nil
  | cons csr rest ih =>
    simp only [saveFrom, except_bind_ok, except_pure_ok] at h
    obtain ⟨store, hstore, more, hmore, rfl⟩ := h
    exact .cons (.csrRead _ _) (.cons (storageStore_hands htyped hstore) (ih hmore))

end Around

namespace Program

section Batch

variable {functions : List Action} {tests : List TestCase} {test : TestCase} {routine : Routine}
variable {routines : List Routine} {program : Program}
variable (htyped : ∀ t ∈ context.catalog.templates, t.Typed)
include htyped

theorem lowerFunctions_hands (hfunctions : ∀ f ∈ functions, f.isFresh)
    (h : lowerFunctions functions context state = .ok routines state') :
    ∀ routine ∈ routines, Along Hands routine.instructions .idle .idle := by
  replace h := lowerFunctions_ok.1 h
  induction h with
  | done => simp
  | next hout _ ih =>
    obtain ⟨hf, hrest⟩ := List.forall_mem_cons.1 hfunctions
    have hcode := lowerRoutine_hands htyped
      (List.forall_mem_singleton.2 (Action.hands_of_fresh hf)) hout
    exact List.forall_mem_cons.2 ⟨hcode, ih hrest⟩

theorem lowerTest_hands (htest : ∀ a ∈ test.actions, a.isFresh)
    (h : lowerTest test context state = .ok routine state') :
    Along Hands routine.instructions .idle .idle := by
  obtain ⟨c, hc, rfl⟩ := lowerTest_ok h
  obtain ⟨opened, closed, label, _, hbody, _, hentry⟩ := hc.run
  obtain ⟨size, hsetup⟩ := hc.setup
  have hsave := TestFrame.atStorage_hands
    (fun _ _ _ => TestFrame.saveFrom_hands htyped) hc.save
  have hbody := lowerRoutine_hands htyped (fun a ha => Action.hands_of_fresh (htest a ha)) hbody
  have hrestore := TestFrame.atStorage_hands
    (fun _ _ _ => TestFrame.restoreFrom_hands) hc.restore
  have hentry : Hands c.entry .idle .idle := .pass (hentry ▸ rfl)
  have hprologue := (Along.cons hentry hsave).append
    (.of_native (TestFrame.openStack_native hsetup))
  exact (hprologue.append hbody).append (hrestore.append (Harness.testPassed_hands hc.passed))

theorem lowerTests_hands (htests : ∀ test ∈ tests, ∀ a ∈ test.actions, a.isFresh)
    (h : lowerTests tests context state = .ok routines state') :
    ∀ routine ∈ routines, Along Hands routine.instructions .idle .idle := by
  replace h := lowerTests_ok.1 h
  induction h with
  | done => simp
  | next hown _ ih =>
    obtain ⟨htest, hrest⟩ := List.forall_mem_cons.1 htests
    exact List.forall_mem_cons.2 ⟨lowerTest_hands htyped htest hown, ih hrest⟩

theorem ofTests_hands (hfresh : ∀ test ∈ tests, Action.areFresh test.actions)
    (h : ofTests tests context state = .ok program state') :
    ∀ routine ∈ program.routines, Along Hands routine.instructions .idle .idle := by
  obtain ⟨batch, _, _, _, _, hbatch, hfunctions, _, hlowered, hharness, _⟩ := ofTests_ok h
  obtain ⟨htests, hlifted⟩ := CanonicalBatch.ofTests_fresh hfresh hbatch
  simp only [routines, List.forall_mem_append]
  exact ⟨⟨lowerTests_hands htyped htests hlowered,
    lowerFunctions_hands htyped hlifted hfunctions⟩, Harness.routines_hands hharness⟩

end Batch

/-- Nothing that lowering puts into the code of a plan, or around it, comes between a directive and
the instruction that t2 carries its operand from or its result to. -/
theorem handovers_undisturbed {scenarios : List Scenario} {program : Program}
    (hcatalog : Catalog.builtin context.environment.xlen = .ok context.catalog)
    (h : lowerScenarios .standard context scenarios = .ok program) :
    ∀ routine ∈ program.routines, HandsOver routine.instructions := by
  obtain ⟨tests, final, htests, hrun⟩ := lowerScenarios_ok h
  intro routine hroutine
  exact (ofTests_hands (Catalog.builtin_complete hcatalog).typed (buildTests_pins htests).1
    hrun routine hroutine).handsOver

/-- User mode, which reaches control registers through the runtime. -/
def userContext : Context :=
  { standardContext .rv64 with environment := { privilege := .user } }

/-- A control register that is read, and one that is written where a trap is expected. -/
def guarded : List Scenario :=
  [{ name := "t", steps := [
    { id := "r", kind := .csrRead "mstatus" false },
    { id := "e", kind := .assertException .illegalInstruction, code := [
      { id := "w", kind := .csrWrite "satp" (some 7) none none false }] }] }]

theorem guarded_handovers_undisturbed : ∃ program,
    Catalog.builtin userContext.environment.xlen = .ok userContext.catalog ∧
    lowerScenarios .standard userContext guarded = .ok program ∧
    (∃ routine ∈ program.routines, (∃ i ∈ routine.instructions, i.form.takesT2) ∧
      ∃ i ∈ routine.instructions, i.form.leavesT2) ∧
    ∀ routine ∈ program.routines, HandsOver routine.instructions := by
  have hbuiltin : Catalog.builtin userContext.environment.xlen = .ok userContext.catalog :=
    Catalog.builtin_rv64
  obtain ⟨program, h, hdirectives⟩ : ∃ program,
      lowerScenarios .standard userContext guarded = .ok program ∧
      ∃ routine ∈ program.routines, (∃ i ∈ routine.instructions, i.form.takesT2) ∧
        ∃ i ∈ routine.instructions, i.form.leavesT2 :=
    exists_lowered rfl (by decide +kernel)
  exact ⟨program, hbuiltin, h, hdirectives, handovers_undisturbed hbuiltin h⟩

end Program
end PlanLowering
