import PlanLowering.Instruction.Basic

/-! # Assembly text -/

namespace PlanLowering

def OperandValue.text : OperandValue → String
  | .unset => "?"
  | .virtual id => id
  | .reg r => r.name
  | .imm v => toString v
  | .symbol s => s

def Operand.text (op : Operand) : String :=
  match op.value with
  | .unset => "<" ++ op.slot.name ++ ">"
  | value => value.text

namespace Instruction

def operands (i : Instruction) : List Operand := i.destination.toList ++ i.sources

def text (i : Instruction) : String :=
  match i.form with
  | .label _ => i.name ++ ":"
  | .comment text => "# " ++ text
  | .csrAccess csr access direct => s!";#csr_rw({csr}, {access.name}, {direct})"
  | .pteAccess memory paging level write =>
    let directive := if write then "write_pte" else "read_pte"
    s!";#{directive}({memory}, {paging.walk}, {level})"
  | _ =>
    match i.operands with
    | [] => i.name
    | operands => i.name ++ " " ++ ", ".intercalate (operands.map Operand.text)

end Instruction
end PlanLowering
