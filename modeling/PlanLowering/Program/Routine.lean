import PlanLowering.Instruction.Assembly
import PlanLowering.Page.Registry

/-! # Lowered programs -/

namespace PlanLowering

/-- A named sequence of allocated instructions. -/
structure Routine where
  name : String
  instructions : List Instruction
  deriving DecidableEq, Repr

namespace Routine

def text (r : Routine) : String :=
  String.join <| r.instructions.map fun i =>
    (if i.isLabel then "" else "    ") ++ i.text ++ "\n"

def names (r : Routine) : List String := r.instructions.map Instruction.name

end Routine

structure Program where
  tests : List Routine
  functions : List Routine
  harness : List Routine
  dataPages : List Page
  codePages : List Page
  deriving DecidableEq, Repr

namespace Program

def test? (p : Program) (name : String) : Option Routine := p.tests.find? (·.name = name)

def function? (p : Program) (name : String) : Option Routine := p.functions.find? (·.name = name)

end Program
end PlanLowering
