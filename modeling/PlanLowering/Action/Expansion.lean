import PlanLowering.Action.Describe
import PlanLowering.Lowering

/-! # Expansion

An action that needs others around it is replaced by a list that holds them and, as a rule, the
action itself. What is in the list is expanded in turn, so a list of actions is worked off from
the front. The cost of a list bounds the work.
-/

namespace PlanLowering

inductive Expansion where
  /-- The action needs nothing around it. -/
  | alone (a : Action)
  | spliced (actions : List Action)

def Expansion.actions : Expansion → List Action
  | .alone a => [a]
  | .spliced actions => actions

namespace Access

/-- Offsets that fit a signed field of twelve bits. -/
def offsetFits (offset : Int) : Bool := -2048 ≤ offset && offset ≤ 2047

/-- A page of random size, in whole units of 4096 bytes. -/
def reserveNew (flags : PageFlags) : Lower Id := do
  let size ← Lower.draw (Draw.width 32 12)
  let page ← Lower.freshDataPage
  Lower.reserve .data page { size := UInt64.ofNat (max (size.toNat / 4096 * 4096) 4096), flags }
  return page

/-- The access with its memory settled, and the label to start from unless a value holds the
address. -/
def anchor (flags : PageFlags) (a : Access) : Lower (Access × Option Id) := do
  match a.memory with
  | none =>
    let page ← reserveNew flags
    return ({ a with memory := some (.page page) }, some page)
  | some (.page id) =>
    if (← get).pages.isLabel id then return (a, some id) else throw (.pageNotFound id)
  | some (.symbol name) => return (a, some name)
  | some (.value _) => return (a, none)

/-- An offset that does not fit is added to the base behind the code that led there. -/
def widen (address : List Action) (a : Access) : Lower (List Action × Access) := do
  if offsetFits a.offset then return (address, a)
  else match a.base with
    | none => throw (.internal (.accessWithoutBase a.describe))
    | some base =>
      let offset ← Lower.freshValue
      let sum ← Lower.freshValue
      return (address ++ [Action.li offset (.value a.offset),
          Action.new sum (.arithmetic (.binary "add" base offset))],
        { a with base := some sum, offset := 0 })

/-- Loads the address of a label into a new base, and adds an offset that does not fit. -/
def expand (flags : PageFlags) (a : Access) : Lower (List Action × Access) := do
  let (a, label) ← a.anchor flags
  match label with
  | none => a.widen []
  | some label =>
    let id ← Lower.freshValue
    widen [Action.li id (.symbol label)] { a with base := some id }

end Access

namespace CsrWrite

/-- Directly a small value fits the instruction and any other is loaded first; the runtime takes
its value in t2. -/
def expand (w : CsrWrite) : Lower (List Action × CsrWrite) := do
  let runtime := (← Lower.environment).needsRuntime w.csr
  match w.src with
  | some src =>
    if runtime then
      let id ← Lower.freshValue
      return ([Action.new id (.moveToT2 src)], { w with src := some id })
    else return ([], w)
  | none =>
    let value ← match w.value with
      | some v => pure v
      | none => Lower.draw Draw.word
    let w := { w with value := some value }
    if 0 ≤ value ∧ value < 32 ∧ !runtime then return ([], w)
    else
      let id ← Lower.freshValue
      let op := if runtime then Op.liToT2 (.value value) else Op.li (.value value)
      return ([Action.new id op], { w with src := some id })

end CsrWrite

namespace PteTarget

/-- The value to write is brought into t2; a random one where none is given. -/
def expandWrite (t : PteTarget) : Lower (List Action × PteTarget) := do
  let op ← match t.src with
    | some src => pure (Op.moveToT2 src)
    | none =>
      let value ← Lower.draw Draw.word
      pure (Op.liToT2 (.value value))
  let id ← Lower.freshValue
  return ([Action.new id op], { t with src := some id })

end PteTarget

/-- Loads and stores of a whole register. -/
def Xlen.wordLoad : Xlen → String
  | .rv64 => "ld"
  | .rv32 => "lw"

def Xlen.wordStore : Xlen → String
  | .rv64 => "sd"
  | .rv32 => "sw"

namespace Op

/-- An expansion that puts actions in front of the action; it stands alone if there are none. -/
def behind (id : Id) (op : Op) : List Action → Expansion
  | [] => .alone (.simple id true op)
  | before => .spliced (before ++ [.simple id true op])

/-- A read through the runtime lands in t2 under a new id and is moved out under the old one. -/
def readThroughT2 (id : Id) (op : Op) : Lower Expansion := do
  let read ← Lower.freshValue
  return .spliced [.simple read true op, Action.new id (.moveFromT2 Register.t2.name)]

/-- The address of the failure handler is loaded through its symbol. -/
def expandJumpToFail (id : Id) : Lower Expansion := do
  let symbol := (← Lower.options).failedSymbol
  let xlen := (← Lower.environment).xlen
  let address ← Lower.freshValue
  let target ← Lower.freshValue
  let access := { Access.to (some (.value address)) 0 with op := some xlen.wordLoad }
  return .spliced [Action.li address (.symbol symbol), Action.new target (.load access),
    .simple id true (.jumpToFail (some target))]

/-- A failed comparison falls through to the failure jump. -/
def expandCompare (id : Id) (relation : Relation) (lhs rhs : Id) : Lower Expansion := do
  let pass ← Lower.freshNamed "pass_label"
  let fail ← Lower.freshValue
  let label ← Lower.freshLabel
  return .spliced [.simple id true (.compare relation lhs rhs (some pass)),
    Action.new fail (.jumpToFail none), Action.new label (.label pass false)]

/-- The entry is replaced by a pointer to the table of the next level, or to its own. -/
def expandModifyPte (page : Id) (level : UInt8) (recursive : Bool) : Lower Expansion := do
  let target ← Lower.targetLevel level recursive
  let xlen := (← Lower.environment).xlen
  let entry ← Lower.freshValue
  let write ← Lower.freshValue
  let access :=
    { Access.to (some (.symbol s!"{page}__pt_level{level}")) 0 with op := some xlen.wordStore }
  return .spliced
    [Action.li entry (.symbol s!"(({page}__pt_level{target}__phys >> 12) << 10) | 0x1"),
      Action.new write (.store access (some entry))]

def expand (id : Id) (op : Op) : Lower Expansion := do
  match op with
  | .load access =>
    let (before, access) ← access.expand .read
    return behind id (.load access) before
  | .store access value =>
    let (before, access) ← access.expand .readWrite
    return behind id (.store access value) before
  | .call target _ =>
    let base ← Lower.freshValue
    return behind id (.call target (some base)) [Action.li base (.symbol target)]
  | .csrRead csr _ =>
    if (← Lower.environment).needsRuntime csr then readThroughT2 id op
    else return behind id op []
  | .csrWrite w =>
    let (before, w) ← w.expand
    return behind id (.csrWrite w) before
  | .compare relation lhs rhs _ => expandCompare id relation lhs rhs
  | .jumpToFail _ => expandJumpToFail id
  | .readPte _ => readThroughT2 id op
  | .writePte target =>
    let (before, target) ← target.expandWrite
    return behind id (.writePte target) before
  | .modifyPte page level recursive => expandModifyPte page level recursive
  | _ => return behind id op []

/-- Strictly more than the actions of the expansion cost together. -/
def cost : Op → Nat
  | .load _ => 5
  | .store .. => 5
  | .call .. => 3
  | .csrRead .. => 3
  | .csrWrite _ => 3
  | .compare .. => 11
  | .jumpToFail _ => 8
  | .readPte _ => 3
  | .writePte _ => 3
  | .modifyPte .. => 7
  | _ => 1

end Op

def insertBeforeLast {α : Type} (x : α) : List α → List α
  | [] => [x]
  | [last] => [x, last]
  | a :: rest => a :: insertBeforeLast x rest

namespace Action

mutual

/-- Expands one action once; an action that was expanded before is left as it is. The body of a
code page is detached and closed. The code of an exception assertion is expanded once, and the
fault label goes in front of its last action. -/
def expand : Action → Lower Expansion
  | .simple id true op => return .alone (.simple id true op)
  | .simple id false op => op.expand id
  | .block id true owner code => return .alone (.block id true owner code)
  | .block id false (.codePage spec) code => do
    let ret ← Lower.freshValue
    return .spliced (.block id true (.codePage spec) [] :: code ++ [new ret .ret])
  | .block id false (.assertException cause _ _) code => do
    if code.isEmpty then throw (.internal .nothingToFault)
    let body ← expandEach code
    let fault ← Lower.freshNamed "fault_label"
    let resume ← Lower.freshNamed "excp_return_label"
    let faultId ← Lower.freshLabel
    let fail ← Lower.freshValue
    let resumeId ← Lower.freshLabel
    return .spliced
      (.block id true (.assertException cause (some fault) (some resume)) [] ::
        insertBeforeLast (new faultId (.label fault true)) body ++
        [new fail (.jumpToFail none), new resumeId (.label resume false)])

def expandEach : List Action → Lower (List Action)
  | [] => return []
  | a :: rest => do
    let expansion ← a.expand
    let more ← expandEach rest
    return expansion.actions ++ more

end

mutual

def cost : Action → Nat
  | .simple _ true _ => 1
  | .simple _ false op => op.cost
  | .block _ true _ _ => 1
  | .block _ false (.codePage _) code => 3 + costs code
  | .block _ false (.assertException ..) code => 12 + costs code

def costs : List Action → Nat
  | [] => 0
  | a :: rest => a.cost + costs rest

end

end Action

def Lower.expanding {α : Type} (action : String) (m : Lower α) : Lower α := fun context state =>
  match m context state with
  | .ok a state => .ok a state
  | .error e state => .error (.expansion action e) state

/-- Works off the list from the front. Each turn lowers its cost, so a list is done when as many
turns as it costs are over. -/
def expandWithin : Nat → List Action → Lower (List Action)
  | 0, _ => return []
  | _ + 1, [] => return []
  | turns + 1, a :: rest => do
    match ← Lower.expanding a.describe a.expand with
    | .alone a =>
      let more ← expandWithin turns rest
      return a :: more
    | .spliced actions => expandWithin turns (actions ++ rest)

/-- Replaces every action by what it expands to, in order. -/
def expandAll (actions : List Action) : Lower (List Action) :=
  expandWithin (Action.costs actions) actions

end PlanLowering
