import PlanLowering.Program.Lower
import PlanLowering.Proofs.OrdinaryCode

/-!
# Code around a test body

The code that sets a test up and ends it is made of opcodes that passes name. In a stocked catalog
it can be made for any control registers, any stack page and any symbols.
-/

namespace PlanLowering

variable {context : Context}
variable (hstock : context.catalog.Stocked context.environment.xlen)
include hstock

namespace TestFrame

theorem loadSymbol_returns (r : Register) (symbol : String) :
    Returns (loadSymbol context r symbol) fun _ => True := by
  have hli : Returns (context.catalog.instruction "li") (·.Offers [.rd, .imm]) :=
    hstock.instruction (by decide) (.inr (by decide))
  simp only [loadSymbol, returns_bind, returns_pure]
  exact hli.mono fun i hi => hi.setDestination (by simp) fun i hi =>
    hi.setImmediate (by simp) fun _ _ => trivial

theorem storageLoad_returns (offset : Int) :
    Returns (storageLoad context offset) fun _ => True := by
  simp only [storageLoad, returns_bind]
  exact (hstock.spillLoad .gpr).mono fun i hi => hi.setDestination (by simp) fun i hi =>
    hi.setSource (by simp) (by decide) fun i hi => hi.setImmediate (by simp) fun _ _ => trivial

theorem storageStore_returns (offset : Int) :
    Returns (storageStore context offset) fun _ => True := by
  simp only [storageStore, returns_bind]
  exact (hstock.spillStore .gpr).mono fun i hi => hi.setSource (by simp) (by decide) fun i hi =>
    hi.setSource (by simp) (by decide) fun i hi => hi.setImmediate (by simp) fun _ _ => trivial

theorem saveFrom_returns (slot : Nat) (csrs : List String) :
    Returns (saveFrom context slot csrs) fun _ => True := by
  induction csrs generalizing slot with
  | nil => exact returns_pure.2 trivial
  | cons csr rest ih =>
    simp only [saveFrom, returns_bind, returns_pure]
    exact (storageStore_returns hstock _).mono fun _ _ => ih (slot + 1)

theorem restoreFrom_returns (slot : Nat) (csrs : List String) :
    Returns (restoreFrom context slot csrs) fun _ => True := by
  induction csrs generalizing slot with
  | nil => exact returns_pure.2 trivial
  | cons csr rest ih =>
    simp only [restoreFrom, returns_bind, returns_pure]
    exact (storageLoad_returns hstock _).mono fun _ _ => ih (slot + 1)

theorem atStorage_returns {move : Nat → List String → Except LoweringError (List Instruction)}
    (hmove : ∀ slot csrs, Returns (move slot csrs) fun _ => True) (csrs : List String) :
    Returns (atStorage context move csrs) fun _ => True := by
  cases csrs with
  | nil => exact returns_pure.2 trivial
  | cons csr rest =>
    simp only [atStorage, returns_bind, returns_pure]
    exact (loadSymbol_returns hstock _ _).mono fun _ _ => hmove _ _

theorem save_returns (csrs : List String) : Returns (save context csrs) fun _ => True :=
  atStorage_returns hstock (saveFrom_returns hstock) csrs

theorem restore_returns (csrs : List String) : Returns (restore context csrs) fun _ => True :=
  atStorage_returns hstock (restoreFrom_returns hstock) csrs

theorem openStack_returns (stack : Id) (size : UInt64) :
    Returns (openStack context stack size) fun _ => True := by
  have hli : Returns (context.catalog.instruction "li") (·.Offers [.rd, .imm]) :=
    hstock.instruction (by decide) (.inr (by decide))
  have hadd : Returns (context.catalog.instruction "add") (·.Offers [.rd, .rs1, .rs2]) :=
    hstock.instruction (by decide) (.inr (by decide))
  have handi : Returns (context.catalog.instruction "andi") (·.Offers [.rd, .rs1, .imm]) :=
    hstock.instruction (by decide) (.inr (by decide))
  simp only [openStack, returns_bind, returns_pure]
  refine hli.mono fun i hi => hi.setDestination (by simp) fun i hi => ?_
  refine hi.setImmediate (by simp) fun _ _ => hadd.mono fun i hi => ?_
  refine hi.setDestination (by simp) fun i hi => hi.setSource (by simp) (by decide) fun i hi => ?_
  refine hi.setSource (by simp) (by decide) fun _ _ => handi.mono fun i hi => ?_
  refine hi.setDestination (by simp) fun i hi => hi.setSource (by simp) (by decide) fun i hi => ?_
  exact hi.setImmediate (by simp) fun _ _ => loadSymbol_returns hstock _ _

end TestFrame

namespace Harness

theorem jumpThrough_returns (symbol owner : String) :
    Returns (jumpThrough context symbol owner) fun _ => True := by
  have hli : Returns (context.catalog.instruction "li") (·.Offers [.rd, .imm]) :=
    hstock.instruction (by decide) (.inr (by decide))
  have hjalr : Returns (context.catalog.instruction "jalr") (·.Offers [.rd, .rs1, .imm]) :=
    hstock.instruction (by decide) (.inr (by decide))
  simp only [jumpThrough, returns_bind, returns_pure]
  refine hli.mono fun i hi => hi.setDestination (by simp) fun i hi => ?_
  refine hi.setImmediate (by simp) fun _ _ => (hstock.spillLoad .gpr).mono fun i hi => ?_
  refine hi.setDestination (by simp) fun i hi => hi.setSource (by simp) (by decide) fun i hi => ?_
  refine hi.setImmediate (by simp) fun _ _ => hjalr.mono fun i hi => ?_
  refine hi.setDestination (by simp) fun i hi => hi.setSource (by simp) (by decide) fun i hi => ?_
  exact hi.setImmediate (by simp) fun _ _ => trivial

theorem testPassed_returns (test : String) : Returns (testPassed context test) fun _ => True := by
  simp only [testPassed, returns_bind, returns_pure]
  exact jumpThrough_returns hstock _ _

theorem routine_returns (name symbol : String) :
    Returns (routine context name symbol) fun _ => True := by
  simp only [routine, returns_bind, returns_pure]
  exact jumpThrough_returns hstock _ _

theorem routines_returns : Returns (routines context) fun _ => True := by
  simp only [routines, returns_bind, returns_pure]
  exact (routine_returns hstock _ _).mono fun _ _ => (routine_returns hstock _ _).mono fun _ _ =>
    routine_returns hstock _ _

end Harness
end PlanLowering
