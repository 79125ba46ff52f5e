import PlanLowering.Action.Basic
import PlanLowering.LoweringError
import PlanLowering.Plan.Scope
import PlanLowering.Text.Blank

/-! # Actions of steps

Each kind of step has a constructor, which checks the inputs of the step and is handed the
actions of its nested steps.
-/

namespace PlanLowering

namespace Arithmetic

/-- At most two inputs, of which at most one is an immediate. -/
def ofInputs (op : Option String) : List StepInput → Except StepFlaw Arithmetic
  | [] => return { op }
  | [.imm v] => return { op, imm := some v.toInt }
  | [.ref a] => return { op, src1 := some a }
  | [.imm _, .imm _] => throw .twoImmediates
  | [.imm v, .ref a] => return { op, src1 := some a, imm := some v.toInt }
  | [.ref a, .imm v] => return { op, src1 := some a, imm := some v.toInt }
  | [.ref a, .ref b] => return { op, src1 := some a, src2 := some b }
  | inputs => throw (.tooManyOperands inputs.length)

end Arithmetic

namespace Access

def checkSize : Option UInt8 → Except StepFlaw Unit
  | none => return
  | some size => if size ∈ [1, 2, 4, 8] then return else throw (.accessSize size)

def ofRef (scope : StepScope) (id : Id) : Address :=
  if scope.isMemory id then .page id else .value id

def ofStep (memory : Option Address) (offset : Int64) (size : Option UInt8) (op : Option String) :
    Access :=
  { Access.to memory offset.toInt with size := size.map UInt8.toNat, op }

/-- A load takes its address from its only input. -/
def ofLoadInputs (scope : StepScope) : List StepInput → Except StepFlaw (Option Address)
  | [] => return none
  | [.ref id] => return some (ofRef scope id)
  | [.imm v] => throw (.immediateAddress v)
  | _ => throw .extraLoadInput

/-- A store writes its first input that is no memory to its first input that is. -/
def ofStoreInputs (scope : StepScope) (memory value : Option Id) :
    List StepInput → Except StepFlaw (Option Id × Option Id)
  | [] => return (memory, value)
  | .imm v :: _ => throw (.immediateStoreInput v)
  | .ref id :: rest =>
    if scope.isMemory id ∧ memory = none then ofStoreInputs scope (some id) value rest
    else if value = none then ofStoreInputs scope memory (some id) rest
    else throw (.extraStoreInput id)

end Access

namespace CsrWrite

/-- A mask decides how the register is updated. The value comes from at most one place. -/
def ofStep (csr : String) (value setMask clearMask : Option Int64) (direct : Bool)
    (inputs : List StepInput) : Except StepFlaw CsrWrite := do
  let (how, value) ← match setMask, clearMask with
    | some _, some _ => throw .twoMasks
    | some mask, none => pure (CsrUpdate.set, some mask)
    | none, some mask => pure (CsrUpdate.clear, some mask)
    | none, none => pure (CsrUpdate.write, value)
  let value := value.map Int64.toInt
  match inputs with
  | [] => return { csr, how, value, src := none, direct }
  | [.ref id] => return { csr, how, value, src := some id, direct }
  | [.imm v] =>
    if value = none then return { csr, how, value := some v.toInt, src := none, direct }
    else throw .csrWriteInputs
  | _ => throw .csrWriteInputs

end CsrWrite

namespace PteTarget

def refs : List StepInput → Except StepFlaw (List Id)
  | [] => return []
  | .imm v :: _ => throw (.immediatePteInput v)
  | .ref id :: rest => return id :: (← refs rest)

/-- The first input names the page; further ones are values to write. -/
def ofInputs (scope : StepScope) (level : Option Nat) (values : Nat) (inputs : List StepInput) :
    Except StepFlaw PteTarget := do
  match ← refs inputs with
  | [] => throw (.pteInputs values)
  | memory :: rest =>
    if values < rest.length then throw (.pteInputs values)
    else if scope.isMemory memory then return { memory, level, src := rest.head? }
    else throw (.notMemory memory)

end PteTarget

namespace StepKind

def withoutInputs (kind : StepKind) : List StepInput → Except StepFlaw Unit
  | [] => return
  | _ => throw (.hasInputs kind.tag)

/-- A call names its target by its first reference. -/
def callTarget (scope : StepScope) (inputs : List StepInput) : Except StepFlaw Id :=
  match inputs.findSome? StepInput.id? with
  | none => throw .noCallTarget
  | some id => if scope.isCode id then return id else throw (.notCallable id)

def comparison (relation : Relation) : List StepInput → Except StepFlaw Op
  | [.ref lhs, .ref rhs] => return .compare relation lhs rhs none
  | _ => throw .assertionInputs

/-- The action of a step, given its inputs and the actions of its nested steps. -/
def action (scope : StepScope) (id : Id) (inputs : List StepInput) (code : List Action)
    (kind : StepKind) : Except StepFlaw Action := do
  match kind with
  | .arithmetic op => return .new id (.arithmetic (← Arithmetic.ofInputs op inputs))
  | .load offset size op =>
    let address ← Access.ofLoadInputs scope inputs
    Access.checkSize size
    return .new id (.load (Access.ofStep address offset size op))
  | .store offset size op =>
    Access.checkSize size
    let (page, value) ← Access.ofStoreInputs scope none none inputs
    return .new id (.store (Access.ofStep (page.map .page) offset size op) value)
  | .memory spec =>
    kind.withoutInputs inputs
    if spec.size = 0 then throw .emptyMemory
    return .new id (.memory spec)
  | .codePage spec =>
    kind.withoutInputs inputs
    return .block id false (.codePage spec) code
  | .call => return .new id (.call (← callTarget scope inputs) none)
  | .csrRead csr direct =>
    kind.withoutInputs inputs
    return .new id (.csrRead csr direct)
  | .csrWrite csr value setMask clearMask direct =>
    return .new id (.csrWrite (← CsrWrite.ofStep csr value setMask clearMask direct inputs))
  | .assertEqual => return .new id (← comparison .equal inputs)
  | .assertNotEqual => return .new id (← comparison .different inputs)
  | .assertException cause =>
    kind.withoutInputs inputs
    if code.isEmpty then throw .nothingToFault
    return .block id false (.assertException cause none none) code
  | .readPte level =>
    return .new id (.readPte (← PteTarget.ofInputs scope (some level.toNat) 0 inputs))
  | .readLeafPte => return .new id (.readPte (← PteTarget.ofInputs scope none 0 inputs))
  | .writePte level =>
    return .new id (.writePte (← PteTarget.ofInputs scope (some level.toNat) 1 inputs))
  | .writeLeafPte => return .new id (.writePte (← PteTarget.ofInputs scope none 1 inputs))
  | .modifyPte level recursive =>
    match inputs with
    | [.ref page] =>
      if scope.isMemory page then return .new id (.modifyPte page level recursive)
      else throw .modifyPteInputs
    | _ => throw .modifyPteInputs
  | .system instruction =>
    kind.withoutInputs inputs
    let name := Text.trim instruction.toList
    if name = [] then throw .noInstruction
    return .new id (.system (String.ofList name))
  | .comment text => return .new id (.comment text)

end StepKind

abbrev StepBuilder := Step → StepScope → List Action → Except LoweringError Action

def StepBuilder.ofKind : StepBuilder := fun step scope code =>
  match step.kind.action scope step.id step.inputs code with
  | .ok a => return a
  | .error flaw => throw (.invalidStep step.id flaw)

/-- Which constructor builds the steps of a kind. -/
structure StepBuilders where
  find? : StepTag → Option StepBuilder

namespace StepBuilders

def empty : StepBuilders := ⟨fun _ => none⟩

def standard : StepBuilders := ⟨fun _ => some StepBuilder.ofKind⟩

def register (builders : StepBuilders) (tag : StepTag) (builder : StepBuilder) : StepBuilders :=
  ⟨fun t => if t = tag then some builder else builders.find? t⟩

mutual

def build (builders : StepBuilders) (scope : StepScope) : Step → Except LoweringError Action
  | { id, kind, inputs, code } => do
    if !code.isEmpty && !kind.acceptsCode then throw (.invalidStep id (.ownsCode kind.tag))
    match builders.find? kind.tag with
    | none => throw (.unregisteredStep id kind.tag)
    | some builder =>
      let actions ← builders.buildAll scope code
      builder { id, kind, inputs, code } scope actions

def buildAll (builders : StepBuilders) (scope : StepScope) :
    List Step → Except LoweringError (List Action)
  | [] => return []
  | step :: rest => do
    let a ← builders.build scope step
    let more ← builders.buildAll scope rest
    return a :: more

end

def buildTest (builders : StepBuilders) (scenario : Scenario) : Except LoweringError TestCase := do
  let actions ← builders.buildAll (StepScope.ofSteps scenario.steps) scenario.steps
  return { name := scenario.name, actions }

end StepBuilders
end PlanLowering
