import PlanLowering.IdMap
import PlanLowering.Register.Basic

/-! # Instruction operands

An operand is a typed slot of an instruction and what has been wired into it so far.
-/

namespace PlanLowering

inductive OperandType where
  | register (file : RegisterFile)
  | imm
  | symbol
  | csr
  deriving DecidableEq, Repr

namespace OperandType

def file? : OperandType → Option RegisterFile
  | .register file => some file
  | _ => none

def isRegister (type : OperandType) : Bool := type.file?.isSome

def choices : List (String × OperandType) :=
  [("gpr", .register .gpr), ("fpr", .register .fpr), ("imm", .imm), ("symbol", .symbol),
    ("csr", .csr)]

def name : OperandType → String
  | .register file => file.name
  | .imm => "imm"
  | .symbol => "symbol"
  | .csr => "csr"

end OperandType

inductive Slot where
  | rd | rs1 | rs2 | rs3 | imm | offset | csr
  | cause | fault | resume
  deriving DecidableEq, Repr

namespace Slot

def name : Slot → String
  | .rd => "rd"
  | .rs1 => "rs1"
  | .rs2 => "rs2"
  | .rs3 => "rs3"
  | .imm => "imm"
  | .offset => "offset"
  | .csr => "csr"
  | .cause => "cause"
  | .fault => "fault"
  | .resume => "return"

def all : List Slot := [.rd, .rs1, .rs2, .rs3, .imm, .offset, .csr, .cause, .fault, .resume]

def ofName? (text : String) : Option Slot := all.find? (·.name = text)

end Slot

inductive OperandValue where
  | unset
  /-- A value that still needs a register. -/
  | virtual (id : Id)
  | reg (r : Register)
  | imm (v : Int)
  /-- A label, the name of a control register or a symbolic expression. -/
  | symbol (s : String)
  deriving DecidableEq, Repr

structure Operand where
  slot : Slot
  type : OperandType
  value : OperandValue := .unset
  deriving DecidableEq, Repr

namespace Operand

/-- The id in a register slot that awaits allocation. -/
def virtual? (op : Operand) : Option Id :=
  match op.type, op.value with
  | .register _, .virtual id => some id
  | _, _ => none

def register? (op : Operand) : Option Register :=
  match op.value with
  | .reg r => some r
  | _ => none

def isConcrete (op : Operand) : Bool :=
  match op.value with
  | .unset => false
  | .virtual _ => false
  | _ => true

end Operand
end PlanLowering
