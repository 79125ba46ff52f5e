import PlanLowering.Instruction.Basic

/-! # Layout of inserted code

A pass gives each instruction with the code that it puts in front of it and behind it. A pointer
label stays glued to its instruction, so code for that instruction goes in front of the label.
Any other label is a jump target, and code for the instruction goes behind it.
-/

namespace PlanLowering

structure Piece where
  before : List Instruction := []
  instruction : Instruction
  after : List Instruction := []

namespace Piece

/-- A pointer label that is waiting for its instruction is `held`. -/
def place (held : List Instruction) : List Piece → List Instruction
  | [] => held
  | p :: rest =>
    p.before ++ held ++
      if p.instruction.isPointerLabel ∧ p.after = [] then place [p.instruction] rest
      else p.instruction :: p.after ++ place [] rest

def layout (pieces : List Piece) : List Instruction := place [] pieces

end Piece
end PlanLowering
