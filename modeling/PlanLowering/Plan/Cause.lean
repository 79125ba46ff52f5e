/-! # Synchronous exception causes -/

namespace PlanLowering

inductive ExceptionCause where
  | instructionAddressMisaligned | instructionAccessFault | illegalInstruction | breakpoint
  | loadAddressMisaligned | loadAccessFault | storeAddressMisaligned | storeAccessFault
  | ecallFromUser | ecallFromSupervisor | ecallFromMachine
  | instructionPageFault | loadPageFault | storePageFault
  deriving DecidableEq, Repr

namespace ExceptionCause

def code : ExceptionCause → Nat
  | .instructionAddressMisaligned => 0
  | .instructionAccessFault => 1
  | .illegalInstruction => 2
  | .breakpoint => 3
  | .loadAddressMisaligned => 4
  | .loadAccessFault => 5
  | .storeAddressMisaligned => 6
  | .storeAccessFault => 7
  | .ecallFromUser => 8
  | .ecallFromSupervisor => 9
  | .ecallFromMachine => 11
  | .instructionPageFault => 12
  | .loadPageFault => 13
  | .storePageFault => 15

def title : ExceptionCause → String
  | .instructionAddressMisaligned => "InstructionAddressMisaligned"
  | .instructionAccessFault => "InstructionAccessFault"
  | .illegalInstruction => "IllegalInstruction"
  | .breakpoint => "Breakpoint"
  | .loadAddressMisaligned => "LoadAddressMisaligned"
  | .loadAccessFault => "LoadAccessFault"
  | .storeAddressMisaligned => "StoreAddressMisaligned"
  | .storeAccessFault => "StoreAccessFault"
  | .ecallFromUser => "EcallFromUser"
  | .ecallFromSupervisor => "EcallFromSupervisor"
  | .ecallFromMachine => "EcallFromMachine"
  | .instructionPageFault => "InstructionPageFault"
  | .loadPageFault => "LoadPageFault"
  | .storePageFault => "StorePageFault"

def key : ExceptionCause → String
  | .instructionAddressMisaligned => "instruction_address_misaligned"
  | .instructionAccessFault => "instruction_access_fault"
  | .illegalInstruction => "illegal_instruction"
  | .breakpoint => "breakpoint"
  | .loadAddressMisaligned => "load_address_misaligned"
  | .loadAccessFault => "load_access_fault"
  | .storeAddressMisaligned => "store_address_misaligned"
  | .storeAccessFault => "store_access_fault"
  | .ecallFromUser => "ecall_from_user"
  | .ecallFromSupervisor => "ecall_from_supervisor"
  | .ecallFromMachine => "ecall_from_machine"
  | .instructionPageFault => "instruction_page_fault"
  | .loadPageFault => "load_page_fault"
  | .storePageFault => "store_page_fault"

def all : List ExceptionCause :=
  [.instructionAddressMisaligned, .instructionAccessFault, .illegalInstruction, .breakpoint,
    .loadAddressMisaligned, .loadAccessFault, .storeAddressMisaligned, .storeAccessFault,
    .ecallFromUser, .ecallFromSupervisor, .ecallFromMachine, .instructionPageFault,
    .loadPageFault, .storePageFault]

def choices : List (String × ExceptionCause) := all.map fun cause => (cause.key, cause)

end ExceptionCause
end PlanLowering
