import PlanLowering.Allocation.Interval
import PlanLowering.Random.Source
import PlanLowering.Register.Pool

/-! # Linear scan

Intervals are visited by their start. Each gets a random free register; where there is none, the
interval that ends last is kept on the stack for its whole life.
-/

namespace PlanLowering

/-- Where a value is kept. -/
inductive Location where
  | register (r : Register)
  | slot (n : Nat)
  deriving DecidableEq, Repr

structure Allocation where
  intervals : List LiveInterval := []
  registers : IdMap Register := {}
  slots : IdMap Nat := {}

def Allocation.location (a : Allocation) (id : Id) : Except LoweringError Location :=
  match a.registers.get? id, a.slots.get? id with
  | some r, _ => return .register r
  | none, some n => return .slot n
  | none, none => throw (.unresolvedAllocation id)

structure Scan where
  /-- Intervals that hold a register, in the order in which they got it. -/
  active : List LiveInterval := []
  registers : IdMap Register := {}
  slots : IdMap Nat := {}

namespace Scan

/-- Frees the registers of intervals that ended before `start`. -/
def expire (scan : Scan) (start : Nat) : Scan :=
  { scan with active := scan.active.filter fun interval => start ≤ interval.finish }

def assign (scan : Scan) (interval : LiveInterval) (r : Register) : Scan :=
  { scan with
    active := scan.active ++ [interval]
    registers := scan.registers.insert interval.id r }

def toStack (scan : Scan) (id : Id) : Scan :=
  { scan with slots := scan.slots.insert id scan.slots.size }

/-- The register of an active interval, if the current interval could use it. -/
def usable? (scan : Scan) (pool : RegisterPool) (current other : LiveInterval) : Option Register :=
  if other.file = current.file then
    (scan.registers.get? other.id).filter (· ∈ pool.candidates current.file current.excluded)
  else none

/-- Position of the active interval that ends last among those whose register the current one
could use; of several the one that became active last. -/
def victim? (scan : Scan) (pool : RegisterPool) (current : LiveInterval) :
    Option (LiveInterval × Nat) :=
  (scan.active.zipIdx.filter fun other => (scan.usable? pool current other.1).isSome).foldl
    (fun best other => match best with
      | some v => if other.1.finish < v.1.finish then some v else some other
      | none => some other) none

/-- The victim hands its register on unless the current interval ends after it. -/
def spill (scan : Scan) (pool : RegisterPool) (current : LiveInterval) : Scan :=
  match scan.victim? pool current with
  | none => scan.toStack current.id
  | some (victim, position) =>
    if victim.finish < current.finish then scan.toStack current.id
    else match scan.registers.get? victim.id with
      | none => scan.toStack current.id
      | some r =>
        let evicted := { scan with
          active := scan.active.eraseIdx position
          registers := scan.registers.erase victim.id }
        (evicted.toStack victim.id).assign current r

def step (pool : RegisterPool) (scan : Scan) (current : LiveInterval) : Draw Scan := do
  let scan := scan.expire current.start
  let candidates := pool.candidates current.file current.excluded
  if candidates.length ≤ (scan.active.filter (·.file = current.file)).length then
    return scan.spill pool current
  else
    let taken := scan.active.filterMap fun interval => scan.registers.get? interval.id
    match ← Draw.choice (candidates.filter (· ∉ taken)) with
    | some r => return scan.assign current r
    | none => throw (.internal (.noFreeRegister current.id))

/-- Gives every interval a register or a slot; they come by their start. -/
def run (pool : RegisterPool) (intervals : List LiveInterval) : Draw Allocation := do
  let scan ← intervals.foldlM (step pool) {}
  return { intervals, registers := scan.registers, slots := scan.slots }

end Scan
end PlanLowering
