import PlanLowering.Code.Layout
import PlanLowering.Lowering

/-! # Legal code

In legal code every virtual source is defined before it is read, and has the type of the operand
that reads it. Sources without a definition are given a random value in front of their first use;
sources of the other register file are cast in front of each use.
-/

namespace PlanLowering

/-- Ids met so far in an instruction list. -/
structure Seen where
  /-- Ids of instructions. -/
  ids : List Id := []
  /-- Ids that count as defined. -/
  defined : List Id := []

def Lower.randomValue (id : Id) : Lower Instruction := do
  let i ← Lower.instruction "li"
  let value ← Lower.draw (Draw.width 32 2)
  let need := "immediate resolution"
  let i ← Lower.ofExcept (i.setImmediate (.imm value) need)
  let i ← Lower.ofExcept (i.setDestination (.virtual id) need)
  return { i with id }

namespace Seen

def claim (seen : Seen) (i : Instruction) : Except LoweringError Seen :=
  if i.id = "" then return seen
  else if i.id ∈ seen.ids then throw (.duplicateId i.id .instructions)
  else return { seen with ids := i.id :: seen.ids }

def materialize (seen : Seen) : List Id → Lower (List Instruction × Seen)
  | [] => return ([], seen)
  | id :: rest =>
    if id ∈ seen.defined then seen.materialize rest
    else do
      let li ← Lower.randomValue id
      let (more, seen) ← materialize { ids := id :: seen.ids, defined := id :: seen.defined } rest
      return (li :: more, seen)

def define (seen : Seen) (i : Instruction) : Seen :=
  { seen with defined := i.virtualDestination?.toList ++ i.id :: seen.defined }

def resolve (seen : Seen) : List Instruction → Lower (List Piece)
  | [] => return []
  | i :: rest => do
    let seen ← Lower.ofExcept (seen.claim i)
    let (before, seen) ← seen.materialize i.virtualSources
    let more ← (seen.define i).resolve rest
    return { before, instruction := i } :: more

end Seen

/-- Defines every source that the code reads but does not define. -/
def resolveImmediates (code : List Instruction) : Lower (List Instruction) := do
  return Piece.layout (← Seen.resolve {} code)

/-- Register file of the last definition of each id. -/
abbrev Produced := IdMap RegisterFile

namespace Produced

def cast (source target : RegisterFile) (id consumer : Id) : Lower (Id × Instruction) := do
  let filter := TemplateFilter.cast (.register source) (.register target)
  match (← read).catalog.filter filter with
  | [] => throw (.noCast source target id consumer)
  | candidates =>
    let fresh ← Lower.freshValue
    let i ← Lower.chooseFrom candidates filter
    let need := "cast insertion"
    let i ← Lower.ofExcept (i.setSource .rs1 (.virtual id) need)
    let i ← Lower.ofExcept (i.setDestination (.virtual fresh) need)
    return (fresh, { i with id := fresh })

/-- File that a source is defined in but not read from. -/
def mismatch? (produced : Produced) (op : Operand) :
    Option (Id × RegisterFile × RegisterFile) := do
  let id ← op.virtual?
  let target ← op.type.file?
  let source ← produced.get? id
  if source = target then none else some (id, source, target)

def castSources (consumer : Id) (produced : Produced) :
    List Operand → Lower (List Operand × List Instruction × Produced)
  | [] => return ([], [], produced)
  | op :: rest => do
    match produced.mismatch? op with
    | none =>
      let (more, casts, produced) ← castSources consumer produced rest
      return (op :: more, casts, produced)
    | some (id, source, target) =>
      let (fresh, i) ← cast source target id consumer
      let (more, casts, produced) ← castSources consumer (produced.insert fresh target) rest
      return ({ op with value := .virtual fresh } :: more, i :: casts, produced)

def define (produced : Produced) (i : Instruction) : Produced :=
  match i.destination with
  | none => produced
  | some op => match op.virtual?, op.type.file? with
    | some id, some file => produced.insert id file
    | _, _ => produced

def castAll (produced : Produced) : List Instruction → Lower (List Piece)
  | [] => return []
  | i :: rest => do
    let (sources, before, produced) ← castSources i.id produced i.sources
    let more ← castAll (define produced i) rest
    return { before, instruction := { i with sources } } :: more

end Produced

/-- Casts every source whose last definition is in the other register file. -/
def insertCasts (code : List Instruction) : Lower (List Instruction) := do
  return Piece.layout (← Produced.castAll {} code)

def legalize (code : List Instruction) : Lower (List Instruction) := do
  insertCasts (← resolveImmediates code)

end PlanLowering
