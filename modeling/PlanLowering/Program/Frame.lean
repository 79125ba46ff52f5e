import PlanLowering.Action.Expansion
import PlanLowering.Action.Selection

/-! # Code around a test body

A test runs on its own stack page. Control registers that its body reaches through the runtime are
kept on a storage page and given their values back at the end.
-/

namespace PlanLowering.TestFrame

/-- Control registers reached through the runtime, by first use. -/
def runtimeCsrs (body : List Instruction) : List String :=
  List.eraseDups <| body.filterMap fun i => match i.form with
    | .csrAccess csr _ _ => some csr
    | _ => none

def loadSymbol (context : Context) (r : Register) (symbol : String) :
    Except LoweringError Instruction := do
  let need := "routine setup"
  let i ← context.catalog.instruction "li"
  let i ← i.setDestination (.reg r) need
  let i ← i.setImmediate (.symbol symbol) need
  return { i with id := s!"li_{symbol}" }

def storageLoad (context : Context) (offset : Int) : Except LoweringError Instruction := do
  let i ← context.catalog.instruction context.environment.xlen.wordLoad
  let i ← i.setDestination (.reg .t2) "csr restore"
  let i ← i.setSource .rs1 (.reg .sp) "csr storage"
  i.setImmediate (.imm offset) "csr storage"

def storageStore (context : Context) (offset : Int) : Except LoweringError Instruction := do
  let i ← context.catalog.instruction context.environment.xlen.wordStore
  let i ← i.setSource .rs2 (.reg .t2) "csr save"
  let i ← i.setSource .rs1 (.reg .sp) "csr storage"
  i.setImmediate (.imm offset) "csr storage"

def slotOffset (context : Context) (slot : Nat) : Int :=
  (slot * context.environment.xlen.bytes : Nat)

def saveFrom (context : Context) (slot : Nat) :
    List String → Except LoweringError (List Instruction)
  | [] => return []
  | csr :: rest => do
    let store ← storageStore context (slotOffset context slot)
    let more ← saveFrom context (slot + 1) rest
    return .csrDirective csr .read false :: store :: more

def restoreFrom (context : Context) (slot : Nat) :
    List String → Except LoweringError (List Instruction)
  | [] => return []
  | csr :: rest => do
    let load ← storageLoad context (slotOffset context slot)
    let more ← restoreFrom context (slot + 1) rest
    return load :: .csrDirective csr (.update .write) false :: more

def atStorage (context : Context)
    (move : Nat → List String → Except LoweringError (List Instruction)) (csrs : List String) :
    Except LoweringError (List Instruction) := do
  match csrs with
  | [] => return []
  | csrs =>
    let base ← loadSymbol context .sp context.options.csrStorage
    return base :: (← move 0 csrs)

def save (context : Context) (csrs : List String) : Except LoweringError (List Instruction) :=
  atStorage context (saveFrom context) csrs

def restore (context : Context) (csrs : List String) : Except LoweringError (List Instruction) :=
  atStorage context (restoreFrom context) csrs

/-- The stack pointer starts at the top of the stack page, on a multiple of sixteen bytes. -/
def openStack (context : Context) (stack : Id) (size : UInt64) :
    Except LoweringError (List Instruction) := do
  let need := "stack setup"
  let bytes ← context.catalog.instruction "li"
  let bytes ← bytes.setDestination (.reg .t0) need
  let bytes ← bytes.setImmediate (.imm size.toInt64.toInt) need
  let top ← context.catalog.instruction "add"
  let top ← top.setDestination (.reg .sp) need
  let top ← top.setSource .rs1 (.reg .sp) need
  let top ← top.setSource .rs2 (.reg .t0) need
  let align ← context.catalog.instruction "andi"
  let align ← align.setDestination (.reg .sp) need
  let align ← align.setSource .rs1 (.reg .sp) need
  let align ← align.setImmediate (.imm (-16)) need
  let page ← loadSymbol context .sp stack
  return [page, { bytes with id := s!"{stack}_size" }, { top with id := s!"{stack}_top" },
    { align with id := s!"{stack}_align" }]

end PlanLowering.TestFrame
