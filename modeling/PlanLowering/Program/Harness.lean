import PlanLowering.Action.Expansion
import PlanLowering.Program.Routine

/-! # The test harness

Routines shared by the tests of a batch, and the jump to the pass handler that ends each test.
-/

namespace PlanLowering.Harness

def jumpThrough (context : Context) (symbol owner : String) :
    Except LoweringError (List Instruction) := do
  let need := "harness jump"
  let address ← context.catalog.instruction "li"
  let address ← address.setDestination (.reg .t0) need
  let address ← address.setImmediate (.symbol symbol) need
  let target ← context.catalog.instruction context.environment.xlen.wordLoad
  let target ← target.setDestination (.reg .t1) need
  let target ← target.setSource .rs1 (.reg .t0) need
  let target ← target.setImmediate (.imm 0) need
  let jump ← context.catalog.instruction "jalr"
  let jump ← jump.setDestination (.reg .ra) need
  let jump ← jump.setSource .rs1 (.reg .t1) need
  let jump ← jump.setImmediate (.imm 0) need
  return [{ address with id := s!"{owner}_addr" }, { target with id := s!"{owner}_target" },
    { jump with id := s!"{owner}_jump" }]

def testPassed (context : Context) (test : String) : Except LoweringError (List Instruction) := do
  let label := s!"{test}_passed"
  let jump ← jumpThrough context context.options.passedSymbol label
  return .label label label false :: jump

def routine (context : Context) (name symbol : String) : Except LoweringError Routine := do
  let jump ← jumpThrough context symbol name
  return { name, instructions := .label name name false :: jump }

/-- Setup and cleanup pass at once; the local failure target fails. -/
def routines (context : Context) : Except LoweringError (List Routine) := do
  let setup ← routine context "test_setup" context.options.passedSymbol
  let cleanup ← routine context "test_cleanup" context.options.passedSymbol
  let failed ← routine context "local_test_failed" context.options.failedSymbol
  return [setup, cleanup, failed]

end PlanLowering.Harness
