import PlanLowering.Action.Renaming
import PlanLowering.Lowering

/-! # Canonical batches

Step ids are unique within one scenario only. A canonical batch shares one space of ids: every
action is renamed, code pages become functions, and memory is registered and dropped.
-/

namespace PlanLowering

structure CanonicalBatch where
  /-- Tests without memory and code pages. -/
  tests : List TestCase := []
  /-- Code pages, nested ones before their owners. -/
  functions : List Action := []

namespace Action

def freshId : Action → Lower Id
  | .simple _ _ (.memory spec) => do
    let id ← Lower.freshDataPage
    Lower.reserve .data id spec
    return id
  | .block _ _ (.codePage spec) _ => do
    let id ← Lower.freshCodePage
    Lower.reserve .code id spec
    return id
  | _ => Lower.freshValue

/-- Adds the action's new id to the map. -/
def numberOwn (scope : IdScope) (map : IdMap Id) (a : Action) : Lower (IdMap Id) := do
  if map.contains a.id then throw (.duplicateId a.id scope)
  return map.insert a.id (← a.freshId)

mutual

/-- Nested code is numbered before its owner. -/
def number (scope : IdScope) (map : IdMap Id) : Action → Lower (IdMap Id)
  | .simple id expanded op => numberOwn scope map (.simple id expanded op)
  | .block id expanded owner code => do
    let map ← numberAll scope map code
    numberOwn scope map (.block id expanded owner code)

def numberAll (scope : IdScope) (map : IdMap Id) : List Action → Lower (IdMap Id)
  | [] => return map
  | a :: rest => do
    let map ← a.number scope map
    numberAll scope map rest

end

mutual

def renameDeep (map : IdMap Id) : Action → Except LoweringError Action
  | .simple id expanded op => (Action.simple id expanded op).rename map
  | .block id expanded owner code => do
    let renamed ← (Action.block id expanded owner code).rename map
    let code ← renameAll map code
    return .block renamed.id expanded owner code

def renameAll (map : IdMap Id) : List Action → Except LoweringError (List Action)
  | [] => return []
  | a :: rest => do
    let a ← a.renameDeep map
    let more ← renameAll map rest
    return a :: more

end

mutual

def lift : Action → List Action × List Action
  | .simple _ _ (.memory _) => ([], [])
  | .simple id expanded op => ([.simple id expanded op], [])
  | .block id expanded (.codePage spec) code =>
    let (kept, functions) := liftAll code
    ([], functions ++ [.block id expanded (.codePage spec) kept])
  | .block id expanded owner code =>
    let (kept, functions) := liftAll code
    ([.block id expanded owner kept], functions)

def liftAll : List Action → List Action × List Action
  | [] => ([], [])
  | a :: rest =>
    let (kept, functions) := a.lift
    let (more, further) := liftAll rest
    (kept ++ more, functions ++ further)

end

end Action

namespace CanonicalBatch

def ofTest (test : TestCase) : Lower (TestCase × List Action) := do
  let map ← Action.numberAll (.test test.name) {} test.actions
  let actions ← Lower.ofExcept (Action.renameAll map test.actions)
  let (kept, functions) := Action.liftAll actions
  return ({ test with actions := kept }, functions)

def ofTests : List TestCase → Lower CanonicalBatch
  | [] => return {}
  | test :: rest => do
    let (test, functions) ← ofTest test
    let batch ← ofTests rest
    return { tests := test :: batch.tests, functions := functions ++ batch.functions }

end CanonicalBatch
end PlanLowering
