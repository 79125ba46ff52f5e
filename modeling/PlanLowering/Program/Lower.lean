import PlanLowering.Action.Build
import PlanLowering.Allocation.Spill
import PlanLowering.Batch
import PlanLowering.Code.Legal
import PlanLowering.Program.Frame
import PlanLowering.Program.Harness

/-! # Lowering a batch

Functions are lowered first, callees before callers, and what each destroys is recorded for its
callers. Then come the tests, each between the code that sets it up and the code that ends it.
-/

namespace PlanLowering

/-- Allocated code of a list of actions. -/
def lowerRoutine (actions : List Action) : Lower (List Instruction) := do
  let actions ← expandAll actions
  let code ← Action.selectAll actions
  let code ← legalize code
  allocate {} code

def Instruction.touched (recorded : IdMap (List Register)) (i : Instruction) : List Register :=
  let callee := match i.form with
    | .call target => (recorded.get? target).getD []
    | _ => []
  (i.destination.bind Operand.register?).toList ++ i.clobbers ++ callee

def clobberedRegisters (recorded : IdMap (List Register)) (code : List Instruction) :
    List Register :=
  (code.flatMap (Instruction.touched recorded)).eraseDups

namespace Program

def lowerFunctions : List Action → Lower (List Routine)
  | [] => return []
  | function :: rest => do
    let instructions ← lowerRoutine [function]
    modify fun state =>
      let touched := clobberedRegisters state.clobbers instructions
      { state with clobbers := state.clobbers.insert function.id touched }
    let more ← lowerFunctions rest
    return { name := function.id, instructions } :: more

/-- Size and permissions of stack pages and of the storage page. -/
def stackSpec (options : Options) : PageSpec := { size := options.stackPageSize }

def lowerTest (test : TestCase) : Lower Routine := do
  let context ← read
  let stack := s!"{test.name}_stack"
  Lower.reserve .data stack (stackSpec context.options)
  let body ← lowerRoutine test.actions
  let csrs := TestFrame.runtimeCsrs body
  let entry := Instruction.label (← Lower.freshLabel) test.name false
  let save ← Lower.ofExcept (TestFrame.save context csrs)
  let page ← Lower.ofExcept ((← get).pages.page .data stack)
  let setup ← Lower.ofExcept (TestFrame.openStack context stack page.spec.size)
  let restore ← Lower.ofExcept (TestFrame.restore context csrs)
  let passed ← Lower.ofExcept (Harness.testPassed context test.name)
  return { name := test.name, instructions := entry :: save ++ setup ++ body ++ restore ++ passed }

def lowerTests : List TestCase → Lower (List Routine)
  | [] => return []
  | test :: rest => do
    let routine ← lowerTest test
    let more ← lowerTests rest
    return routine :: more

/-- Lowers tests that were built before. -/
def ofTests (tests : List TestCase) : Lower Program := do
  let context ← read
  let batch ← CanonicalBatch.ofTests tests
  let functions ← lowerFunctions batch.functions
  Lower.reserve .data context.options.csrStorage (stackSpec context.options)
  let tests ← lowerTests batch.tests
  let harness ← Lower.ofExcept (Harness.routines context)
  let pages := (← get).pages
  return { tests, functions, harness
           dataPages := pages.pages .data, codePages := pages.pages .code }

def buildTests (builders : StepBuilders) : List Scenario → Except LoweringError (List TestCase)
  | [] => return []
  | scenario :: rest => do
    let test ← builders.buildTest scenario
    let more ← buildTests builders rest
    return test :: more

end Program

/-- Lowers a batch of scenarios from the start of a run. -/
def lowerScenarios (builders : StepBuilders) (context : Context) (scenarios : List Scenario) :
    Except LoweringError Program := do
  let tests ← Program.buildTests builders scenarios
  match Program.ofTests tests context (State.start context.options) with
  | .ok program _ => return program
  | .error e _ => throw e

end PlanLowering
