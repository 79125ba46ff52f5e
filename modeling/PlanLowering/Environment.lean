import PlanLowering.Json.Record

/-! # The environment a batch is lowered for

Register width, privilege mode and paging scheme, and which control registers the mode may touch
on its own.
-/

namespace PlanLowering

inductive Xlen where
  | rv32 | rv64
  deriving DecidableEq, Repr

namespace Xlen

def bytes : Xlen → Nat
  | .rv32 => 4
  | .rv64 => 8

def choices : List (String × Xlen) := [("rv32", .rv32), ("rv64", .rv64)]

def name : Xlen → String
  | .rv32 => "rv32"
  | .rv64 => "rv64"

end Xlen

inductive Privilege where
  | machine | supervisor | user
  deriving DecidableEq, Repr

namespace Privilege

def rank : Privilege → Nat
  | .machine => 0
  | .supervisor => 1
  | .user => 2

def ofLetter : Option Char → Privilege
  | some 'm' => .machine
  | some 's' => .supervisor
  | _ => .user

/-- Lowest privilege that reaches a control register, read off its name. Hypervisor registers
count as supervisor ones; behind a `v` the second letter decides. -/
def ofCsr (csr : String) : Privilege :=
  match csr.toList with
  | 'h' :: _ => .supervisor
  | 'v' :: rest => ofLetter rest.head?
  | letters => ofLetter letters.head?

def choices : List (String × Privilege) :=
  [("machine", .machine), ("supervisor", .supervisor), ("user", .user)]

def name : Privilege → String
  | .machine => "machine"
  | .supervisor => "supervisor"
  | .user => "user"

end Privilege

inductive Paging where
  | bare | sv39 | sv48 | sv57
  deriving DecidableEq, Repr

namespace Paging

def leafLevel : Paging → Nat
  | .sv48 => 3
  | .sv57 => 4
  | _ => 2

/-- Scheme of a runtime walk, which takes three levels when paging is off. -/
def walk : Paging → String
  | .sv48 => "sv48"
  | .sv57 => "sv57"
  | _ => "sv39"

def choices : List (String × Paging) :=
  [("bare", .bare), ("sv39", .sv39), ("sv48", .sv48), ("sv57", .sv57)]

def name : Paging → String
  | .bare => "bare"
  | .sv39 => "sv39"
  | .sv48 => "sv48"
  | .sv57 => "sv57"

end Paging

structure Environment where
  privilege : Privilege := .machine
  paging : Paging := .bare
  xlen : Xlen := .rv64
  deriving DecidableEq, Repr

namespace Environment

/-- A control register above the mode is reached through the runtime only. -/
def needsRuntime (env : Environment) (csr : String) : Bool :=
  env.privilege.rank > (Privilege.ofCsr csr).rank

def ofJson? (json : Json) : Option Environment := do
  match ← json.record? ["priv", "paging_mode", "xlen"] with
  | [privilege, paging, xlen] =>
    return {
      privilege := ← Json.withDefault .machine (Json.choice? Privilege.choices) privilege
      paging := ← Json.withDefault .bare (Json.choice? Paging.choices) paging
      xlen := ← Json.withDefault .rv64 (Json.choice? Xlen.choices) xlen }
  | _ => none

def toJson (env : Environment) : Json :=
  .obj [("priv", .str env.privilege.name), ("paging_mode", .str env.paging.name),
    ("xlen", .str env.xlen.name)]

end Environment
end PlanLowering
