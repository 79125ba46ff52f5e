import PlanLowering.LoweringError

/-! # Live intervals

Code runs straight through, so a value lives from its first definition to its last occurrence.
Registers destroyed strictly inside that interval cannot hold it.
-/

namespace PlanLowering

structure LiveInterval where
  id : Id
  file : RegisterFile
  start : Nat
  finish : Nat
  excluded : List Register := []
  deriving DecidableEq, Repr

namespace LiveInterval

def straddles (interval : LiveInterval) (index : Nat) : Bool :=
  interval.start < index && index < interval.finish

def extend? (id : Id) (index : Nat) : List LiveInterval → Option (List LiveInterval)
  | [] => none
  | interval :: rest =>
    if interval.id = id then some ({ interval with finish := index } :: rest)
    else (extend? id index rest).map (interval :: ·)

def read (index : Nat) (live : List LiveInterval) (id : Id) :
    Except LoweringError (List LiveInterval) :=
  match extend? id index live with
  | some live => return live
  | none => throw (.useBeforeDef id index)

def write (index : Nat) (live : List LiveInterval) (op : Operand) : List LiveInterval :=
  match op.virtual?, op.type.file? with
  | some id, some file =>
    (extend? id index live).getD (live ++ [{ id, file, start := index, finish := index }])
  | _, _ => live

/-- What an instruction destroys; a call also destroys what its callee does. -/
def clobbers (recorded : IdMap (List Register)) (i : Instruction) :
    Except LoweringError (List Register) :=
  match i.form with
  | .call target =>
    match recorded.get? target with
    | some callee => return i.clobbers ++ callee
    | none => throw (.unknownFunction target)
  | _ => return i.clobbers

/-- Intervals of the code from an index on, and what each instruction destroys. -/
def trace (recorded : IdMap (List Register)) (index : Nat) (live : List LiveInterval) :
    List Instruction → Except LoweringError (List LiveInterval × List (Nat × List Register))
  | [] => return (live, [])
  | i :: rest => do
    let live ← i.virtualSources.foldlM (read index) live
    let live := i.destination.toList.foldl (write index) live
    let destroyed ← clobbers recorded i
    let (live, points) ← trace recorded (index + 1) live rest
    return (live, (index, destroyed) :: points)

def exclude (points : List (Nat × List Register)) (interval : LiveInterval) : LiveInterval :=
  let destroyed := (points.filter fun point => interval.straddles point.1).flatMap Prod.snd
  { interval with excluded := (destroyed.filter (·.file = interval.file)).eraseDups }

/-- The intervals of a routine, by the index at which they start. -/
def ofCode (recorded : IdMap (List Register)) (code : List Instruction) :
    Except LoweringError (List LiveInterval) := do
  let (live, points) ← trace recorded 0 [] code
  return live.map (exclude points)

end LiveInterval
end PlanLowering
