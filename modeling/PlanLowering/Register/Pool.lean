import PlanLowering.Register.Basic

/-! # Registers open to allocation

Spill code works in scratch registers of its own, so they are never handed out.
-/

namespace PlanLowering

/-- Registers that hold spilled values around one instruction. -/
def RegisterFile.scratch : RegisterFile → List Register
  | .gpr => [.t0, .t6]
  | .fpr => [.ft0, .ft1, .ft2]

def RegisterFile.allocatable (file : RegisterFile) : List Register :=
  (Register.all file).filter fun r => r.role ≠ .special ∧ r ∉ file.scratch

/-- How many of the allocatable registers of each file may be handed out, lowest number first. -/
structure RegisterPool where
  gprs : Nat := RegisterFile.gpr.allocatable.length
  fprs : Nat := RegisterFile.fpr.allocatable.length
  deriving DecidableEq, Repr

namespace RegisterPool

def registers (pool : RegisterPool) : RegisterFile → List Register
  | .gpr => RegisterFile.gpr.allocatable.take pool.gprs
  | .fpr => RegisterFile.fpr.allocatable.take pool.fprs

def candidates (pool : RegisterPool) (file : RegisterFile) (excluded : List Register) :
    List Register :=
  (pool.registers file).filter fun r => r ∉ excluded

end RegisterPool
end PlanLowering
