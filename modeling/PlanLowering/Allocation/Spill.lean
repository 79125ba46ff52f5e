import PlanLowering.Action.Expansion
import PlanLowering.Allocation.Scan
import PlanLowering.Code.Layout

/-! # Allocated code

Every virtual operand is replaced by its register. A value on the stack is reloaded into a scratch
register in front of each instruction that reads it, and stored behind each one that writes it.
The slots lie in a frame that is opened at the entry and closed in front of every return.
-/

namespace PlanLowering

def RegisterFile.resultScratch : RegisterFile → Register
  | .gpr => .t0
  | .fpr => .ft0

def Xlen.floatLoad : Xlen → String
  | .rv64 => "fld"
  | .rv32 => "flw"

def Xlen.floatStore : Xlen → String
  | .rv64 => "fsd"
  | .rv32 => "fsw"

/-- Templates of spill code. A catalog may do without those for floats. -/
structure SpillCode where
  width : Nat
  load : Instruction
  store : Instruction
  floatLoad : Option Instruction
  floatStore : Option Instruction
  adjust : Instruction

namespace SpillCode

def ofContext (context : Context) : Except LoweringError SpillCode := do
  let xlen := context.environment.xlen
  let find? := fun name => (context.catalog.find? name).map Template.instruction
  let load ← context.catalog.instruction xlen.wordLoad
  let store ← context.catalog.instruction xlen.wordStore
  let adjust ← context.catalog.instruction "addi"
  return { width := xlen.bytes, load, store, adjust
           floatLoad := find? xlen.floatLoad, floatStore := find? xlen.floatStore }

variable (code : SpillCode)

def template (r : Register) (load : Bool) : Except LoweringError Instruction :=
  let template? := match r.file, load with
    | .gpr, true => some code.load
    | .gpr, false => some code.store
    | .fpr, true => code.floatLoad
    | .fpr, false => code.floatStore
  match template? with
  | some i => return i
  | none => throw (.internal (.noSpillInstruction r))

/-- Bytes from the stack pointer to a slot. -/
def offset (slot : Nat) : Int := (slot * code.width : Nat)

def reload (r : Register) (slot : Nat) (id : Id) : Except LoweringError Instruction := do
  let need := "spill reload"
  let i ← code.template r true
  let i ← i.setDestination (.reg r) need
  let i ← i.setSource .rs1 (.reg .sp) need
  let i ← i.setImmediate (.imm (code.offset slot)) need
  return { i with id := s!"{id}.reload" }

def save (r : Register) (slot : Nat) (id : Id) : Except LoweringError Instruction := do
  let need := "spill store"
  let i ← code.template r false
  let i ← i.setSource .rs2 (.reg r) need
  let i ← i.setSource .rs1 (.reg .sp) need
  let i ← i.setImmediate (.imm (code.offset slot)) need
  return { i with id := s!"{id}.spill" }

def moveStack (bytes : Int) (id : Id) : Except LoweringError Instruction := do
  let need := "spill frame"
  let i ← code.adjust.setDestination (.reg .sp) need
  let i ← i.setSource .rs1 (.reg .sp) need
  let i ← i.setImmediate (.imm bytes) need
  return { i with id }

def frame (slots : Nat) (body : List Instruction) : Except LoweringError (List Instruction) := do
  let enter ← code.moveStack (-code.offset slots) "spill_frame_open"
  let leave ← code.moveStack (code.offset slots) "spill_frame_close"
  let closing := List.flatMap fun i : Instruction => if i.name = "ret" then [leave, i] else [i]
  match body with
  | [] => return [enter]
  | first :: rest =>
    if first.isLabel then return first :: enter :: closing rest
    else return enter :: closing body

end SpillCode

/-- Scratch registers in use around one instruction, and the reloads that fill them. -/
structure Reloads where
  held : IdMap Register := {}
  code : List Instruction := []

namespace Reloads

/-- The scratch register of a spilled id; each id is reloaded once. -/
def reload (spill : SpillCode) (consumer : Id) (file : RegisterFile) (id : Id) (slot : Nat)
    (reloads : Reloads) : Except LoweringError (Register × Reloads) :=
  match reloads.held.get? id with
  | some r => return (r, reloads)
  | none =>
    let used := (reloads.held.entries.filter fun entry => entry.2.file = file).length
    match file.scratch[used]? with
    | none => throw (.internal (.scratchExhausted consumer))
    | some r => do
      let i ← spill.reload r slot id
      return (r, { held := reloads.held.insert id r, code := reloads.code ++ [i] })

end Reloads

namespace Allocation

variable (a : Allocation) (spill : SpillCode)

def replaceSources (consumer : Id) (reloads : Reloads) :
    List Operand → Except LoweringError (List Operand × Reloads)
  | [] => return ([], reloads)
  | op :: rest => do
    match op.virtual?, op.type.file? with
    | some id, some file =>
      let (r, reloads) ← match ← a.location id with
        | .register r => pure (r, reloads)
        | .slot n => reloads.reload spill consumer file id n
      let (more, reloads) ← replaceSources consumer reloads rest
      return ({ op with value := .reg r } :: more, reloads)
    | _, _ =>
      let (more, reloads) ← replaceSources consumer reloads rest
      return (op :: more, reloads)

/-- Sources are dead once the instruction executes, so a result may take their scratch register. -/
def replaceDestination (reloads : Reloads) (op : Operand) :
    Except LoweringError (Operand × List Instruction) := do
  match op.virtual?, op.type.file? with
  | some id, some file =>
    match ← a.location id with
    | .register r => return ({ op with value := .reg r }, [])
    | .slot n =>
      let r := (reloads.held.get? id).getD file.resultScratch
      return ({ op with value := .reg r }, [← spill.save r n id])
  | _, _ => return (op, [])

def replaceOperands (i : Instruction) : Except LoweringError Piece := do
  let (sources, reloads) ← a.replaceSources spill i.id {} i.sources
  match i.destination with
  | none => return { before := reloads.code, instruction := { i with sources } }
  | some op =>
    let (op, after) ← a.replaceDestination spill reloads op
    return { before := reloads.code, after
             instruction := { i with sources, destination := some op } }

def replaceAll : List Instruction → Except LoweringError (List Piece)
  | [] => return []
  | i :: rest => do
    let p ← a.replaceOperands spill i
    let more ← replaceAll rest
    return p :: more

/-- The code with registers for virtual operands, spill code and, if need be, a frame. -/
def apply (context : Context) (code : List Instruction) :
    Except LoweringError (List Instruction) := do
  let spill ← SpillCode.ofContext context
  let body := Piece.layout (← a.replaceAll spill code)
  if a.slots.size = 0 then return body else spill.frame a.slots.size body

/-- Intervals and their places for one routine. -/
def ofCode (pool : RegisterPool) (code : List Instruction) : Lower Allocation := do
  let intervals ← Lower.ofExcept (LiveInterval.ofCode (← get).clobbers code)
  Lower.draw (Scan.run pool intervals)

end Allocation

def allocate (pool : RegisterPool) (code : List Instruction) : Lower (List Instruction) := do
  let a ← Allocation.ofCode pool code
  Lower.ofExcept (a.apply (← read) code)

end PlanLowering
