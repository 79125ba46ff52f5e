import PlanLowering.Action.Describe
import PlanLowering.Lowering
import PlanLowering.Text.Occurrence

/-! # Selection

One instruction for each expanded action, with the action's ids and immediates wired into it.
-/

namespace PlanLowering

/-- Registers destroyed by the runtime's directives, which pass values through t2. -/
def runtimeClobbers : List Register := [.t1, .t2, .t6]

/-- Mnemonics whose immediate is a shift amount of five bits. -/
def shiftImmediates : List String :=
  ["slli", "srli", "srai", "slliw", "sraiw", "srliw", "rori", "roriw"]

namespace Lower

def withSource (i : Instruction) (slot : Slot) (value : OperandValue) (action : String) :
    Lower Instruction :=
  ofExcept (i.setSource slot value action)

def withImmediate (i : Instruction) (value : OperandValue) (action : String) : Lower Instruction :=
  ofExcept (i.setImmediate value action)

def withDestination (i : Instruction) (value : OperandValue) (action : String) :
    Lower Instruction :=
  ofExcept (i.setDestination value action)

def expect {α : Type} (action : String) (missing : ExpansionResult) : Option α → Lower α
  | some a => return a
  | none => throw (.internal (.unexpanded action missing))

end Lower

namespace Arithmetic

def filter (a : Arithmetic) : TemplateFilter where
  category := some .arithmetic
  registerSources := match a.src1, a.src2 with
    | some _, some _ => some 2
    | none, none => none
    | _, _ => some 1
  hasImmediate := if a.imm.isSome then some true else none

/-- The opcode asked for, if the catalog has it; otherwise any that takes the inputs. -/
def template (a : Arithmetic) : Lower Instruction := do
  match a.op.bind (← read).catalog.find? with
  | some t => return t.instruction
  | none => Lower.choose a.filter

/-- A source that is not given is a value of its own, filled in later. -/
def wireSource (slot : Slot) (src : Option Id) (action : String) (i : Instruction) :
    Lower Instruction := do
  match i.source? slot, src with
  | some _, some id => Lower.withSource i slot (.virtual id) action
  | some _, none => Lower.withSource i slot (.virtual (← Lower.freshValue)) action
  | none, some _ => throw (i.missing slot.name action)
  | none, none => return i

/-- A random immediate is positive in a signed field of twelve bits. -/
def wireImmediate (imm : Option Int) (action : String) (i : Instruction) : Lower Instruction := do
  match i.hasImmediate, imm with
  | true, some v => Lower.withImmediate i (.imm v) action
  | true, none =>
    let bits := if i.name ∈ shiftImmediates then 5 else 11
    Lower.withImmediate i (.imm (← Lower.draw (Draw.width bits 2))) action
  | false, some _ => throw (i.missing "imm" action)
  | false, none => return i

def select (a : Arithmetic) (action : String) : Lower Instruction := do
  let i ← a.template
  let i ← wireSource .rs1 a.src1 action i
  let i ← wireSource .rs2 a.src2 action i
  let i ← wireImmediate a.imm action i
  wireSource .rs3 none action i

end Arithmetic

namespace Access

/-- Last letter of a mnemonic that moves so many bytes. -/
def suffix? : Option Nat → Option Char
  | some 1 => some 'b'
  | some 2 => some 'h'
  | some 4 => some 'w'
  | some 8 => some 'd'
  | _ => none

/-- Templates of the access's width whose name contains none of the given texts. -/
def candidates (a : Access) (filter : TemplateFilter) (skip : List String) :
    Lower (List Template) := do
  return ((← read).catalog.filter filter).filter fun t =>
    let name := t.name.toList
    (skip.all fun part => !Text.occursIn part.toList name) &&
      (suffix? a.size).all fun c => name.getLast? = some c

def filter (a : Access) (category : Category) (excluded : Extensions) : TemplateFilter where
  category := some category
  excluded := excluded
  hasImmediate := if a.offset = 0 then none else some true

def template (a : Access) (filter : TemplateFilter) (skip : List String) : Lower Instruction := do
  match a.op with
  | some op => Lower.instruction op
  | none => Lower.chooseFrom (← a.candidates filter skip) filter

/-- An instruction without an immediate reaches offset zero only. -/
def wire (a : Access) (action : String) (i : Instruction) : Lower Instruction := do
  let i ← if i.hasImmediate then Lower.withImmediate i (.imm a.offset) action
    else if a.offset ≠ 0 then throw (i.missing "imm" action)
    else pure i
  let base ← Lower.expect action .baseRegister a.base
  Lower.withSource i .rs1 (.virtual base) action

/-- Forms that address through the stack pointer on their own are left out. -/
def selectLoad (a : Access) (action : String) : Lower Instruction := do
  let i ← a.template (a.filter .load .none) ["sp"]
  a.wire action i

def selectStore (a : Access) (value : Option Id) (action : String) : Lower Instruction := do
  let i ← a.template (a.filter .store (.union .atomic .svinval)) ["sp", "sc"]
  let i ← a.wire action i
  let value ← match value with
    | some id => pure id
    | none => Lower.freshValue
  Lower.withSource i .rs2 (.virtual value) action

end Access

/-- The directive that reads t2 or leaves its result there. -/
def Instruction.csrDirective (csr : String) (access : CsrAccess) (direct : Bool) : Instruction where
  name := "csr_rw"
  category := .system
  extension := .zicsr
  clobbers := runtimeClobbers
  form := .csrAccess csr access direct
  destination := match access with
    | .read => some { slot := .rd, type := .register .gpr, value := .reg .t2 }
    | .update _ => none
  sources := match access with
    | .read => []
    | .update _ => [{ slot := .rs1, type := .register .gpr, value := .reg .t2 }]

/-- The directive that reads or writes a page table entry through t2. -/
def PteTarget.directive (t : PteTarget) (write : Bool) (paging : Paging) : Instruction where
  name := if write then "write_pte" else "read_pte"
  category := .system
  clobbers := runtimeClobbers
  form := .pteAccess t.memory paging (t.level.getD paging.leafLevel) write
  destination :=
    if write then none else some { slot := .rd, type := .register .gpr, value := .reg .t2 }
  sources := if write then [{ slot := .rs1, type := .register .gpr, value := .reg .t2 }] else []

def CsrUpdate.mnemonic (immediate : Bool) : CsrUpdate → String
  | .write => if immediate then "csrrwi" else "csrrw"
  | .set => if immediate then "csrrsi" else "csrrs"
  | .clear => if immediate then "csrrci" else "csrrc"

namespace CsrWrite

def select (w : CsrWrite) (action : String) : Lower Instruction := do
  if (← Lower.environment).needsRuntime w.csr then
    return .csrDirective w.csr (.update w.how) w.direct
  else match w.value, w.src with
    | some v, none =>
      let i ← Lower.instruction (w.how.mnemonic true)
      let i ← Lower.withSource i .csr (.symbol w.csr) action
      Lower.withImmediate i (.imm v) action
    | _, src =>
      let i ← Lower.instruction (w.how.mnemonic false)
      let i ← Lower.withSource i .csr (.symbol w.csr) action
      let src ← Lower.expect action .sourceValue src
      Lower.withSource i .rs1 (.virtual src) action

end CsrWrite

namespace Op

def selectLi (v : Immediate) (action : String) : Lower Instruction := do
  Lower.withImmediate (← Lower.instruction "li") v.operand action

def selectCsrRead (csr : String) (direct : Bool) (action : String) : Lower Instruction := do
  if (← Lower.environment).needsRuntime csr then return .csrDirective csr .read direct
  else Lower.withSource (← Lower.instruction "csrr") .csr (.symbol csr) action

def selectCall (target : Id) (base : Option Id) (action : String) : Lower Instruction := do
  let base ← Lower.expect action .target base
  let i ← Lower.instruction "jalr"
  let i ← Lower.withDestination i (.reg .ra) action
  let i ← Lower.withSource i .rs1 (.virtual base) action
  let i ← Lower.withImmediate i (.imm 0) action
  return { i with form := .call target }

def selectCompare (relation : Relation) (lhs rhs : Id) (pass : Option String) (action : String) :
    Lower Instruction := do
  let pass ← Lower.expect action .passLabel pass
  let i ← Lower.instruction (match relation with | .equal => "beq" | .different => "bne")
  let i ← Lower.withSource i .rs1 (.virtual lhs) action
  let i ← Lower.withSource i .rs2 (.virtual rhs) action
  Lower.withSource i .offset (.symbol pass) action

def select (id : Id) (action : String) : Op → Lower Instruction
  | .arithmetic a => a.select action
  | .li v => selectLi v action
  | .liToT2 v => do
    let i ← selectLi v action
    let i ← Lower.withDestination i (.reg .t2) action
    return { i with clobbers := runtimeClobbers }
  | .moveToT2 src => do
    let i ← Lower.instruction "mv"
    let i ← Lower.withDestination i (.reg .t2) action
    let i ← Lower.withSource i .rs1 (.virtual src) action
    return { i with clobbers := runtimeClobbers }
  | .moveFromT2 _ => do
    Lower.withSource (← Lower.instruction "mv") .rs1 (.reg .t2) action
  | .label name pointer => return .label id name pointer
  | .load access => access.selectLoad action
  | .store access value => access.selectStore value action
  | .memory _ => throw (.internal (.reservesMemory action))
  | .ret => Lower.instruction "ret"
  | .call target base => selectCall target base action
  | .csrRead csr direct => selectCsrRead csr direct action
  | .csrWrite w => w.select action
  | .compare relation lhs rhs pass => selectCompare relation lhs rhs pass action
  | .jumpToFail address => do
    let address ← Lower.expect action .target address
    Lower.withSource (← Lower.instruction "jr") .rs1 (.virtual address) action
  | .readPte target => return target.directive false (← Lower.environment).paging
  | .writePte target => return target.directive true (← Lower.environment).paging
  | .modifyPte .. => throw (.internal (.replacedByExpansion action))
  | .system instruction => Lower.instruction instruction
  | .comment text => return .comment id text

end Op

namespace Block

/-- A code page begins with its label. An exception assertion tells the runtime what to expect
and where. -/
def select (id : Id) (action : String) : Block → Lower Instruction
  | .codePage _ => return .label id id false
  | .assertException cause fault resume => do
    match fault, resume with
    | some fault, some resume =>
      return { name := "OS_SETUP_CHECK_EXCP", category := .system, form := .runtime
               sources := [
                 { slot := .cause, type := .imm, value := .imm cause.code },
                 { slot := .fault, type := .symbol, value := .symbol fault },
                 { slot := .resume, type := .symbol, value := .symbol resume }] }
    | _, _ => throw (.internal (.unexpanded action .faultLabels))

end Block

namespace Action

def select (a : Action) : Lower Instruction := do
  let i ← match a with
    | .simple id _ op => op.select id a.describe
    | .block id _ owner _ => owner.select id a.describe
  return { i with id := a.id }

/-- A register destination that selection left open is the action's own value. -/
def openDestination (id : Id) (i : Instruction) : Instruction :=
  { i with destination := i.destination.map fun op =>
      if op.type.isRegister ∧ op.value = .unset then { op with value := .virtual id } else op }

/-- One instruction for each action, in order. -/
def selectAll : List Action → Lower (List Instruction)
  | [] => return []
  | a :: rest => do
    let i ← a.select
    let more ← selectAll rest
    return openDestination a.id i :: more

end Action
end PlanLowering
