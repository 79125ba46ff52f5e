import PlanLowering.Catalog.Basic
import PlanLowering.FreshIds
import PlanLowering.Instruction.Wiring
import PlanLowering.Options
import PlanLowering.Page.Registry
import PlanLowering.Random.ChaCha

/-! # The state of a lowering run

Catalog, environment and options stay as they are. Random source, counters, pages and recorded
clobbers move on, and what a pass consumed stays consumed where it fails.
-/

namespace PlanLowering

/-- What becomes of a sum that no byte holds: it wraps around, or the run stops. -/
inductive Overflow where
  | wraps | stops
  deriving DecidableEq, Repr

def Overflow.succ (overflow : Overflow) (n : UInt8) : Except LoweringError UInt8 :=
  if n = 255 ∧ overflow = .stops then throw (.internal .levelOverflow) else return n + 1

structure Context where
  catalog : Catalog
  environment : Environment
  options : Options
  overflow : Overflow := .wraps

structure State where
  random : RandomSource
  ids : FreshIds := {}
  pages : PageRegistry := {}
  /-- Registers that each lowered function writes, by the id of its page. -/
  clobbers : IdMap (List Register) := {}

def State.start (options : Options) : State := { random := .ofSeed options.seed }

abbrev Lower := ReaderT Context (EStateM LoweringError State)

namespace Lower

variable {α : Type}

def ofExcept : Except LoweringError α → Lower α
  | .ok a => pure a
  | .error e => throw e

/-- A draw from the run's random source. -/
def draw (d : Draw α) : Lower α := fun _ state =>
  match d state.random with
  | .ok a random => .ok a { state with random }
  | .error e random => .error e { state with random }

def fresh (next : FreshIds → Id × FreshIds) : Lower Id :=
  modifyGet fun state =>
    let (id, ids) := next state.ids
    (id, { state with ids })

def freshValue : Lower Id := fresh FreshIds.value
def freshDataPage : Lower Id := fresh FreshIds.dataPage
def freshCodePage : Lower Id := fresh FreshIds.codePage
def freshLabel : Lower Id := fresh FreshIds.label
def freshNamed (stem : String) : Lower Id := fresh (FreshIds.named stem)

def environment : Lower Environment := return (← read).environment
def options : Lower Options := return (← read).options

def reserve (kind : PageKind) (id : Id) (spec : PageSpec) : Lower Unit := fun _ state =>
  match state.pages.register kind id spec with
  | .ok _ pages => .ok () { state with pages }
  | .error e pages => .error e { state with pages }

def targetLevel (level : UInt8) (recursive : Bool) : Lower UInt8 := do
  let overflow := (← read).overflow
  ofExcept (if recursive then return level else overflow.succ level)

def instruction (name : String) : Lower Instruction := do
  ofExcept ((← read).catalog.instruction name)

/-- A fresh instruction of a random candidate; the filter only names the query in the error. -/
def chooseFrom (candidates : List Template) (filter : TemplateFilter) : Lower Instruction := do
  match ← draw (Draw.choice candidates) with
  | some t => return t.instruction
  | none => throw (.noCandidates filter)

def choose (filter : TemplateFilter) : Lower Instruction := do
  chooseFrom ((← read).catalog.filter filter) filter

end Lower
end PlanLowering
