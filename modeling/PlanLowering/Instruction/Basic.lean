import PlanLowering.Environment
import PlanLowering.Instruction.Operand
import PlanLowering.Text.FlagList

/-! # Instructions

What selection produces and every later pass works on: native instructions, labels, comments
and directives to the test runtime.
-/

namespace PlanLowering

inductive Category where
  | arithmetic | load | store | branch | jump | csr | cast | system | pseudo
  deriving DecidableEq, Repr

namespace Category

def title : Category → String
  | .arithmetic => "Arithmetic"
  | .load => "Load"
  | .store => "Store"
  | .branch => "Branch"
  | .jump => "Jump"
  | .csr => "Csr"
  | .cast => "Cast"
  | .system => "System"
  | .pseudo => "Pseudo"

def key : Category → String
  | .arithmetic => "arithmetic"
  | .load => "load"
  | .store => "store"
  | .branch => "branch"
  | .jump => "jump"
  | .csr => "csr"
  | .cast => "cast"
  | .system => "system"
  | .pseudo => "pseudo"

def all : List Category :=
  [.arithmetic, .load, .store, .branch, .jump, .csr, .cast, .system, .pseudo]

def choices : List (String × Category) := all.map fun category => (category.key, category)

end Category

/-- Extensions of the instruction set. Bits without a name are kept. -/
structure Extensions where
  bits : UInt32
  deriving DecidableEq, Repr

namespace Extensions

def names : Text.FlagNames where
  width := 32
  names := [("I", 1), ("M", 2), ("A", 4), ("F", 8), ("D", 16), ("C", 32), ("ZICSR", 64),
    ("ZIFENCEI", 128), ("ZBB", 256), ("SVINVAL", 512)]

def none : Extensions := ⟨0⟩
def base : Extensions := ⟨1⟩
def multiply : Extensions := ⟨2⟩
def atomic : Extensions := ⟨4⟩
def single : Extensions := ⟨8⟩
def double : Extensions := ⟨16⟩
def zicsr : Extensions := ⟨64⟩
def zifencei : Extensions := ⟨128⟩
def zbb : Extensions := ⟨256⟩
def svinval : Extensions := ⟨512⟩

def union (e f : Extensions) : Extensions := ⟨e.bits ||| f.bits⟩

def intersects (e f : Extensions) : Bool := e.bits &&& f.bits ≠ 0

def ofText? (s : String) : Option Extensions :=
  (names.read? s).map fun bits => ⟨UInt32.ofNat bits⟩

def text (e : Extensions) : String := names.write e.bits.toNat

end Extensions

inductive CsrUpdate where
  | write | set | clear
  deriving DecidableEq, Repr

def CsrUpdate.name : CsrUpdate → String
  | .write => "write"
  | .set => "set"
  | .clear => "clear"

/-- What the runtime is asked to do with a control register. -/
inductive CsrAccess where
  | read
  | update (how : CsrUpdate)
  deriving DecidableEq, Repr

def CsrAccess.name : CsrAccess → String
  | .read => "read"
  | .update how => how.name

inductive InstructionForm where
  | native
  /-- A pointer label is the address of the next instruction and stays glued to it; any other
  label is a jump target. -/
  | label (pointer : Bool)
  | comment (text : String)
  | call (target : Id)
  /-- Runtime access to a control register through t2. -/
  | csrAccess (csr : String) (access : CsrAccess) (direct : Bool)
  /-- Runtime access to a page table entry through t2. -/
  | pteAccess (memory : Id) (paging : Paging) (level : Nat) (write : Bool)
  | runtime
  deriving DecidableEq, Repr

structure Instruction where
  id : Id := ""
  name : String
  category : Category
  extension : Extensions := .base
  destination : Option Operand := none
  sources : List Operand := []
  /-- Registers destroyed as a side effect. -/
  clobbers : List Register := []
  form : InstructionForm := .native
  deriving DecidableEq, Repr

namespace Instruction

def label (id : Id) (name : String) (pointer : Bool) : Instruction :=
  { id, name, category := .pseudo, form := .label pointer }

def comment (id : Id) (text : String) : Instruction :=
  { id, name := "#", category := .pseudo, form := .comment text }

def isLabel (i : Instruction) : Bool :=
  match i.form with
  | .label _ => true
  | _ => false

def isPointerLabel (i : Instruction) : Bool := i.form = .label true

def source? (i : Instruction) (slot : Slot) : Option Operand := i.sources.find? (·.slot = slot)

def hasImmediate (i : Instruction) : Bool := i.sources.any (·.type = .imm)

def registerSources (i : Instruction) : Nat := (i.sources.filter (·.type.isRegister)).length

def virtualSources (i : Instruction) : List Id := i.sources.filterMap Operand.virtual?

def virtualDestination? (i : Instruction) : Option Id := i.destination.bind Operand.virtual?

/-- Every operand is a register, an immediate or a symbol. -/
def isAllocated (i : Instruction) : Bool :=
  i.destination.all Operand.isConcrete && i.sources.all Operand.isConcrete

end Instruction
end PlanLowering
