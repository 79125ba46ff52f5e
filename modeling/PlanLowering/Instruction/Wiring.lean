import PlanLowering.LoweringError

/-! # Wiring operands

Setting one slot of an instruction on behalf of an action, which is named where the slot is
missing.
-/

namespace PlanLowering.Instruction

def setFirst (p : Operand → Bool) (value : OperandValue) : List Operand → Option (List Operand)
  | [] => none
  | op :: rest =>
    if p op then some ({ op with value } :: rest)
    else (setFirst p value rest).map (op :: ·)

def setSource? (i : Instruction) (slot : Slot) (value : OperandValue) : Option Instruction :=
  (setFirst (·.slot = slot) value i.sources).map fun sources => { i with sources }

def setImmediate? (i : Instruction) (value : OperandValue) : Option Instruction :=
  (setFirst (·.type = .imm) value i.sources).map fun sources => { i with sources }

def missing (i : Instruction) (slot action : String) : LoweringError :=
  .operandSlotMissing i.name slot action

def setSource (i : Instruction) (slot : Slot) (value : OperandValue) (action : String) :
    Except LoweringError Instruction :=
  match i.setSource? slot value with
  | some i => return i
  | none => throw (i.missing slot.name action)

def setImmediate (i : Instruction) (value : OperandValue) (action : String) :
    Except LoweringError Instruction :=
  match i.setImmediate? value with
  | some i => return i
  | none => throw (i.missing "imm" action)

def setDestination (i : Instruction) (value : OperandValue) (action : String) :
    Except LoweringError Instruction :=
  match i.destination with
  | some op => return { i with destination := some { op with value } }
  | none => throw (i.missing "rd" action)

/-- A source slot given by its name; `imm` stands for the first immediate. -/
def setNamed (i : Instruction) (name : String) (value : OperandValue) (action : String) :
    Except LoweringError Instruction :=
  match Slot.ofName? name with
  | some .imm => i.setImmediate value action
  | some slot => i.setSource slot value action
  | none => throw (i.missing name action)

end PlanLowering.Instruction
