import PlanLowering.Catalog.Filter
import PlanLowering.Plan.Step

/-! # Why lowering fails

Each cause is a constructor; its wording is in one place. Content errors blame the plan, the
options or the catalog. Internal errors say that one pass broke what the next relies on.
-/

namespace PlanLowering

/-- What is wrong with a step. -/
inductive StepFlaw where
  | ownsCode (tag : StepTag)
  | hasInputs (tag : StepTag)
  | twoImmediates
  | tooManyOperands (count : Nat)
  | accessSize (size : UInt8)
  | extraLoadInput
  | immediateAddress (v : Int64)
  | extraStoreInput (id : Id)
  | immediateStoreInput (v : Int64)
  | emptyMemory
  | noCallTarget
  | notCallable (id : Id)
  | twoMasks
  | csrWriteInputs
  | assertionInputs
  | nothingToFault
  | immediatePteInput (v : Int64)
  | pteInputs (values : Nat)
  | notMemory (id : Id)
  | modifyPteInputs
  | noInstruction
  deriving DecidableEq, Repr

def StepFlaw.text : StepFlaw → String
  | .ownsCode tag => s!"{tag.title} steps cannot own nested code"
  | .hasInputs tag => s!"{tag.title} steps take no inputs"
  | .twoImmediates => "arithmetic step has two immediate inputs"
  | .tooManyOperands count => s!"arithmetic step has {count} inputs, at most 2 are supported"
  | .accessSize size => s!"invalid access size {size.toNat}"
  | .extraLoadInput => "load takes at most one input"
  | .immediateAddress v => s!"load address must be a step reference, got immediate {v.toInt}"
  | .extraStoreInput id => s!"unexpected extra store input '{id}'"
  | .immediateStoreInput v => s!"store inputs must be step references, got immediate {v.toInt}"
  | .emptyMemory => "memory size must be non-zero"
  | .noCallTarget => "call step names no code page"
  | .notCallable id => s!"call target '{id}' is not a code page"
  | .twoMasks => "csr write takes either a set mask or a clear mask, not both"
  | .csrWriteInputs =>
    "csr write takes at most one input, and no immediate input when a value is given"
  | .assertionInputs => "assertion needs exactly two step references"
  | .nothingToFault => "exception assertion needs nested code ending in the faulting step"
  | .immediatePteInput v => s!"page table entry inputs must be step references, got {v.toInt}"
  | .pteInputs values => s!"expected a page and at most {values} value input(s)"
  | .notMemory id => s!"'{id}' is not a memory step"
  | .modifyPteInputs => "modify_pte takes exactly one memory step input"
  | .noInstruction => "system step names no instruction"

/-- Where an id was defined twice. -/
inductive IdScope where
  | pages
  | test (name : String)
  | instructions
  deriving DecidableEq, Repr

def IdScope.text : IdScope → String
  | .pages => "memory registry"
  | .test name => s!"test '{name}'"
  | .instructions => "instruction list"

/-- What an action must have been given by its expansion. -/
inductive ExpansionResult where
  | passLabel | target | faultLabels | sourceValue | baseRegister
  deriving DecidableEq, Repr

def ExpansionResult.text : ExpansionResult → String
  | .passLabel => "pass label"
  | .target => "target register"
  | .faultLabels => "fault labels"
  | .sourceValue => "source value"
  | .baseRegister => "base register"

/-- A rule of the pipeline that was broken. -/
inductive Inconsistency where
  | emptyRange (lo hi : Int)
  | randomWidth (bits : Nat)
  | randomLowerBound (bits lower : Nat)
  | reservesMemory (action : String)
  | replacedByExpansion (action : String)
  | unexpanded (action : String) (missing : ExpansionResult)
  | accessWithoutBase (access : String)
  | nothingToFault
  | levelOverflow
  | noFreeRegister (id : Id)
  | scratchExhausted (instruction : Id)
  | noSpillInstruction (r : Register)
  deriving DecidableEq, Repr

def Inconsistency.text : Inconsistency → String
  | .emptyRange lo hi => s!"random range is empty: {lo}..={hi}"
  | .randomWidth bits => s!"random width must be in 3..=62 bits, got {bits}"
  | .randomLowerBound bits lower =>
    s!"random lower bound must be in 2..{bits} bits, got {lower}"
  | .reservesMemory action =>
    s!"{action} reserves memory and has no instruction; it must be lifted by canonicalization"
  | .replacedByExpansion action =>
    s!"{action} is replaced during expansion and has no instruction"
  | .unexpanded action missing => s!"{action} has no {missing.text}; expand it first"
  | .accessWithoutBase access => s!"access {access} has no base register"
  | .nothingToFault => "exception assertion has no code to fault on"
  | .levelOverflow => "attempt to add with overflow"
  | .noFreeRegister id => s!"no free register for '{id}'"
  | .scratchExhausted instruction =>
    s!"instruction {instruction} reloads more spilled values than scratch registers"
  | .noSpillInstruction r => s!"catalog has no spill instruction for {r.name}"

def CatalogFlaw.text : CatalogFlaw → String
  | .unreadable => "unreadable"
  | .unknownField template field => s!"template '{template}': unknown operand field '{field}'"
  | .secondDestination template => s!"template '{template}': more than one destination"
  | .repeatedSlot template slot =>
    s!"template '{template}': operand slot '{slot.name}' declared twice"
  | .duplicateTemplate template => s!"duplicate template '{template}'"

inductive LoweringError where
  | invalidStep (step : Id) (flaw : StepFlaw)
  | unregisteredStep (step : Id) (tag : StepTag)
  /-- Options, environment or plan are no value of their format. -/
  | unreadable
  | catalog (flaw : CatalogFlaw)
  | duplicateId (id : Id) (scope : IdScope)
  /-- An action was renamed by a map that does not hold its id. -/
  | undefinedId (id : Id) (action : String)
  | operandSlotMissing (instruction slot action : String)
  | noCast (source target : RegisterFile) (operand instruction : Id)
  | useBeforeDef (id : Id) (index : Nat)
  | unresolvedAllocation (id : Id)
  | instructionNotFound (name : String)
  | noCandidates (filter : TemplateFilter)
  | pageNotFound (id : Id)
  /-- A call of a function whose clobbers were never recorded. -/
  | unknownFunction (id : Id)
  | expansion (action : String) (source : LoweringError)
  | internal (cause : Inconsistency)
  deriving DecidableEq, Repr

inductive ErrorClass where
  | content | internal
  deriving DecidableEq, Repr

namespace LoweringError

def message : LoweringError → String
  | .invalidStep step flaw => s!"Invalid step '{step}': {flaw.text}"
  | .unregisteredStep step tag => s!"No action registered for step '{step}' of kind {tag.title}"
  | .unreadable => "Invalid configuration"
  | .catalog flaw => s!"Catalog load error: {flaw.text}"
  | .duplicateId id scope => s!"Duplicate id '{id}' in {scope.text}"
  | .undefinedId id action => s!"Undefined id '{id}' in rename of {action}"
  | .operandSlotMissing instruction slot action =>
    s!"Instruction '{instruction}' has no '{slot}' operand (needed by {action})"
  | .noCast source target operand instruction =>
    s!"No cast from {source.name} to {target.name} for operand '{operand}' of {instruction}"
  | .useBeforeDef id index =>
    s!"Virtual register '{id}' used before definition at instruction {index}"
  | .unresolvedAllocation id => s!"No allocation recorded for '{id}'"
  | .instructionNotFound name => s!"Instruction not found in catalog: {name}"
  | .noCandidates filter => s!"No instruction matches {filter.text}"
  | .pageNotFound id => s!"Page not found: {id}"
  | .unknownFunction id => s!"Call to function '{id}' with no recorded clobber set"
  | .expansion action source => s!"Failed to expand {action}: {source.message}"
  | .internal cause => s!"Internal lowering error: {cause.text}"

/-- A failed expansion is of the class of its cause. -/
def origin : LoweringError → ErrorClass
  | .invalidStep .. => .content
  | .unregisteredStep .. => .content
  | .unreadable => .content
  | .catalog .. => .content
  | .expansion _ source => source.origin
  | _ => .internal

end LoweringError
end PlanLowering
