import PlanLowering.Instruction.Basic
import PlanLowering.Plan.Step

/-! # Actions

What stands between steps and instructions. An action is made from a step or synthesized while
one is lowered; expansion puts the actions it needs around it, and selection turns it into one
instruction under its id.
-/

namespace PlanLowering

inductive Immediate where
  | value (v : Int)
  | symbol (s : String)
  deriving DecidableEq, Repr

def Immediate.operand : Immediate → OperandValue
  | .value v => .imm v
  | .symbol s => .symbol s

inductive Address where
  /-- A registered page. -/
  | page (id : Id)
  /-- A symbol that is no registered page. -/
  | symbol (name : Id)
  /-- A value that holds the address. -/
  | value (id : Id)
  deriving DecidableEq, Repr

def Address.id : Address → Id
  | .page id => id
  | .symbol id => id
  | .value id => id

/-- Memory at an offset from a base register. -/
structure Access where
  offset : Int
  memory : Option Address
  base : Option Id
  size : Option Nat := none
  op : Option String := none
  deriving DecidableEq, Repr

/-- An address held in a value is its own base. -/
def Access.to (memory : Option Address) (offset : Int) : Access where
  offset := offset
  memory := memory
  base := match memory with
    | some (.value id) => some id
    | _ => none

structure Arithmetic where
  op : Option String := none
  src1 : Option Id := none
  src2 : Option Id := none
  imm : Option Int := none
  deriving DecidableEq, Repr

def Arithmetic.binary (op : String) (src1 src2 : Id) : Arithmetic :=
  { op := some op, src1 := some src1, src2 := some src2 }

structure CsrWrite where
  csr : String
  how : CsrUpdate
  value : Option Int
  /-- Value id that supplies it instead. -/
  src : Option Id
  direct : Bool
  deriving DecidableEq, Repr

structure PteTarget where
  /-- Page whose table entry is meant. -/
  memory : Id
  level : Option Nat
  src : Option Id
  deriving DecidableEq, Repr

inductive Relation where
  | equal | different
  deriving DecidableEq, Repr

/-- Actions without nested code. -/
inductive Op where
  | arithmetic (a : Arithmetic)
  | li (v : Immediate)
  | liToT2 (v : Immediate)
  | moveToT2 (src : Id)
  | moveFromT2 (src : Id)
  | label (name : String) (pointer : Bool)
  | load (access : Access)
  | store (access : Access) (value : Option Id)
  | memory (spec : PageSpec)
  | ret
  | call (target : Id) (base : Option Id)
  | csrRead (csr : String) (direct : Bool)
  | csrWrite (w : CsrWrite)
  /-- Branches to `pass` where the relation holds. -/
  | compare (relation : Relation) (lhs rhs : Id) (pass : Option String)
  | jumpToFail (address : Option Id)
  | readPte (target : PteTarget)
  | writePte (target : PteTarget)
  | modifyPte (memory : Id) (level : UInt8) (recursive : Bool)
  | system (instruction : String)
  | comment (text : String)
  deriving DecidableEq, Repr

/-- Owners of nested code. -/
inductive Block where
  | codePage (spec : PageSpec)
  /-- The last nested action is expected to trap at `fault` and to come back to `resume`. -/
  | assertException (cause : ExceptionCause) (fault resume : Option String)
  deriving DecidableEq, Repr

inductive Action where
  | simple (id : Id) (expanded : Bool) (op : Op)
  | block (id : Id) (expanded : Bool) (owner : Block) (code : List Action)
  deriving Repr

namespace Action

def id : Action → Id
  | .simple id _ _ => id
  | .block id _ _ _ => id

def isExpanded : Action → Bool
  | .simple _ expanded _ => expanded
  | .block _ expanded _ _ => expanded

def code? : Action → Option (List Action)
  | .simple .. => none
  | .block _ _ _ code => some code

/-- An action that was not expanded yet. -/
def new (id : Id) (op : Op) : Action := .simple id false op

def li (id : Id) (v : Immediate) : Action := new id (.li v)

end Action

/-- A scenario as actions. -/
structure TestCase where
  name : String
  actions : List Action
  deriving Repr

end PlanLowering
