import PlanLowering.Text.Numeral

/-! # RISC-V registers

The integer and the float file, the role of each register in the calling convention, and the
names under which a register can be looked up.
-/

namespace PlanLowering

inductive RegisterFile where
  | gpr | fpr
  deriving DecidableEq, Repr

def RegisterFile.name : RegisterFile → String
  | .gpr => "gpr"
  | .fpr => "fpr"

inductive RegisterClass where
  /-- Hard-wired or reserved by the calling convention; never handed out. -/
  | special
  | temporary
  | saved
  | argument
  deriving DecidableEq, Repr

structure Register where
  file : RegisterFile
  index : Fin 32
  deriving DecidableEq, Repr

namespace Register

def integerNames : Vector String 32 :=
  #v["zero", "ra", "sp", "gp", "tp", "t0", "t1", "t2", "s0", "s1", "a0", "a1", "a2", "a3", "a4",
    "a5", "a6", "a7", "s2", "s3", "s4", "s5", "s6", "s7", "s8", "s9", "s10", "s11", "t3", "t4",
    "t5", "t6"]

def floatNames : Vector String 32 :=
  #v["ft0", "ft1", "ft2", "ft3", "ft4", "ft5", "ft6", "ft7", "fs0", "fs1", "fa0", "fa1", "fa2",
    "fa3", "fa4", "fa5", "fa6", "fa7", "fs2", "fs3", "fs4", "fs5", "fs6", "fs7", "fs8", "fs9",
    "fs10", "fs11", "ft8", "ft9", "ft10", "ft11"]

def name (r : Register) : String :=
  match r.file with
  | .gpr => integerNames.get r.index
  | .fpr => floatNames.get r.index

/-- Both files agree from the sixth register on; the first five integer registers are special. -/
def role (r : Register) : RegisterClass :=
  if r.file = .gpr ∧ r.index < 5 then .special
  else if r.index < 8 ∨ 28 ≤ r.index then .temporary
  else if 10 ≤ r.index ∧ r.index < 18 then .argument
  else .saved

def zero : Register := ⟨.gpr, 0⟩
def ra : Register := ⟨.gpr, 1⟩
def sp : Register := ⟨.gpr, 2⟩
def t0 : Register := ⟨.gpr, 5⟩
def t1 : Register := ⟨.gpr, 6⟩
def t2 : Register := ⟨.gpr, 7⟩
def s0 : Register := ⟨.gpr, 8⟩
def t6 : Register := ⟨.gpr, 31⟩
def ft0 : Register := ⟨.fpr, 0⟩
def ft1 : Register := ⟨.fpr, 1⟩
def ft2 : Register := ⟨.fpr, 2⟩

/-- The registers of a file, by number. -/
def all (file : RegisterFile) : List Register := (List.finRange 32).map (⟨file, ·⟩)

/-- A register given by its number, which may carry a plus sign and leading zeros. -/
def numbered? (file : RegisterFile) (digits : List Char) : Option Register := do
  let n ← Text.unsigned? 10 digits
  if h : n < 32 then some ⟨file, n, h⟩ else none

/-- Convention names come first, so `f` and a number never hides one of them. -/
def lookup? (text : String) : Option Register :=
  if text = "fp" then some s0
  else match (all .gpr ++ all .fpr).find? (·.name = text) with
    | some r => some r
    | none => match text.toList with
      | 'x' :: digits => numbered? .gpr digits
      | 'f' :: digits => numbered? .fpr digits
      | _ => none

end Register
end PlanLowering
