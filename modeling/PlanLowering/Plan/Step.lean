import PlanLowering.IdMap
import PlanLowering.Page.Spec
import PlanLowering.Plan.Cause

/-! # Test plans

A scenario is a list of steps. Steps name one another by id and mention no register, encoding
or address.
-/

namespace PlanLowering

inductive StepInput where
  | imm (v : Int64)
  | ref (id : Id)
  deriving DecidableEq, Repr

def StepInput.id? : StepInput → Option Id
  | .ref id => some id
  | .imm _ => none

inductive StepKind where
  | arithmetic (op : Option String)
  | load (offset : Int64) (accessSize : Option UInt8) (op : Option String)
  | store (offset : Int64) (accessSize : Option UInt8) (op : Option String)
  | memory (spec : PageSpec)
  | codePage (spec : PageSpec)
  | call
  | csrRead (csr : String) (direct : Bool)
  | csrWrite (csr : String) (value setMask clearMask : Option Int64) (direct : Bool)
  | assertEqual
  | assertNotEqual
  | assertException (cause : ExceptionCause)
  | readPte (level : UInt8)
  | writePte (level : UInt8)
  | readLeafPte
  | writeLeafPte
  | modifyPte (level : UInt8) (recursive : Bool)
  | system (instruction : String)
  | comment (text : String)
  deriving DecidableEq, Repr

/-- A step kind without its payload. -/
inductive StepTag where
  | arithmetic | load | store | memory | codePage | call | csrRead | csrWrite
  | assertEqual | assertNotEqual | assertException
  | readPte | writePte | readLeafPte | writeLeafPte | modifyPte | system | comment
  deriving DecidableEq, Repr

namespace StepTag

def title : StepTag → String
  | .arithmetic => "Arithmetic"
  | .load => "Load"
  | .store => "Store"
  | .memory => "Memory"
  | .codePage => "CodePage"
  | .call => "Call"
  | .csrRead => "CsrRead"
  | .csrWrite => "CsrWrite"
  | .assertEqual => "AssertEqual"
  | .assertNotEqual => "AssertNotEqual"
  | .assertException => "AssertException"
  | .readPte => "ReadPte"
  | .writePte => "WritePte"
  | .readLeafPte => "ReadLeafPte"
  | .writeLeafPte => "WriteLeafPte"
  | .modifyPte => "ModifyPte"
  | .system => "System"
  | .comment => "Comment"

def key : StepTag → String
  | .arithmetic => "arithmetic"
  | .load => "load"
  | .store => "store"
  | .memory => "memory"
  | .codePage => "code_page"
  | .call => "call"
  | .csrRead => "csr_read"
  | .csrWrite => "csr_write"
  | .assertEqual => "assert_equal"
  | .assertNotEqual => "assert_not_equal"
  | .assertException => "assert_exception"
  | .readPte => "read_pte"
  | .writePte => "write_pte"
  | .readLeafPte => "read_leaf_pte"
  | .writeLeafPte => "write_leaf_pte"
  | .modifyPte => "modify_pte"
  | .system => "system"
  | .comment => "comment"

def all : List StepTag :=
  [.arithmetic, .load, .store, .memory, .codePage, .call, .csrRead, .csrWrite, .assertEqual,
    .assertNotEqual, .assertException, .readPte, .writePte, .readLeafPte, .writeLeafPte,
    .modifyPte, .system, .comment]

end StepTag

namespace StepKind

def tag : StepKind → StepTag
  | .arithmetic .. => .arithmetic
  | .load .. => .load
  | .store .. => .store
  | .memory .. => .memory
  | .codePage .. => .codePage
  | .call => .call
  | .csrRead .. => .csrRead
  | .csrWrite .. => .csrWrite
  | .assertEqual => .assertEqual
  | .assertNotEqual => .assertNotEqual
  | .assertException .. => .assertException
  | .readPte .. => .readPte
  | .writePte .. => .writePte
  | .readLeafPte => .readLeafPte
  | .writeLeafPte => .writeLeafPte
  | .modifyPte .. => .modifyPte
  | .system .. => .system
  | .comment .. => .comment

def acceptsCode : StepKind → Bool
  | .codePage .. => true
  | .assertException .. => true
  | _ => false

/-- Steps that reserve memory, which other steps name by label. -/
def isMemory : StepKind → Bool
  | .memory .. => true
  | .codePage .. => true
  | _ => false

end StepKind

structure Step where
  id : Id
  kind : StepKind
  inputs : List StepInput := []
  code : List Step := []
  deriving Repr

/-- Steps lowered as one test. The name is used for labels and for the stack page. -/
structure Scenario where
  name : String
  steps : List Step
  deriving Repr

end PlanLowering
