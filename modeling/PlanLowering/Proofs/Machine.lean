import Mathlib.Logic.Function.Basic
import PlanLowering.Allocation.Spill
import PlanLowering.Proofs.Catalog
import PlanLowering.Proofs.Wiring

/-!
# A machine for allocated code

Registers as wide as the processor and doubles in float registers, memory in bytes, and an arbitrary
rest. The machine knows what spill code does, which moves one word between a register and memory;
results and stores of all other instructions are parameters. Control flow, the hard-wired zero and
the end of the address space are left out.
-/

namespace PlanLowering

/-- A word as wide as a general register. -/
abbrev Xlen.Word (xlen : Xlen) := BitVec (8 * xlen.bytes)

abbrev Memory := Int → BitVec 8

namespace Memory

variable {xlen : Xlen} {memory memory' : Memory} {a b x : Int} {v : xlen.Word} {n i : Nat}

def bytes (memory : Memory) (a : Int) : (n : Nat) → BitVec (8 * n)
  | 0 => 0#0
  | n + 1 => (bytes memory (a + 1) n ++ memory a : BitVec (8 * n + 8))

def load (memory : Memory) (a : Int) : xlen.Word := bytes memory a xlen.bytes

def store (memory : Memory) (a : Int) (v : xlen.Word) : Memory := fun x =>
  if a ≤ x ∧ x < a + xlen.bytes then v.extractLsb' (8 * (x - a).toNat) 8 else memory x

theorem getLsbD_bytes (hi : i < 8 * n) :
    (bytes memory a n).getLsbD i = (memory (a + (i / 8 : Nat))).getLsbD (i % 8) := by
  induction n generalizing a i with
  | zero => omega
  | succ n ih =>
    show (bytes memory (a + 1) n ++ memory a : BitVec (8 * n + 8)).getLsbD i = _
    rw [BitVec.getLsbD_append]
    by_cases hlow : i < 8
    · simp [hlow, Nat.div_eq_of_lt, Nat.mod_eq_of_lt]
    · have hnext : a + 1 + ((i - 8) / 8 : Nat) = a + (i / 8 : Nat) := by omega
      have hbit : (i - 8) % 8 = i % 8 := by omega
      rw [if_neg hlow, ih (by omega), hnext, hbit]

theorem store_outside (h : ¬ (a ≤ x ∧ x < a + xlen.bytes)) : store memory a v x = memory x :=
  if_neg h

theorem load_congr (h : ∀ x, a ≤ x → x < a + xlen.bytes → memory x = memory' x) :
    (load memory a : xlen.Word) = load memory' a := by
  refine BitVec.eq_of_getLsbD_eq fun i hi => ?_
  rw [load, load, getLsbD_bytes hi, getLsbD_bytes hi, h _ (by omega) (by omega)]

theorem load_store (memory : Memory) (a : Int) (v : xlen.Word) : load (store memory a v) a = v := by
  refine BitVec.eq_of_getLsbD_eq fun i hi => ?_
  have hinside : a ≤ a + (i / 8 : Nat) ∧ a + (i / 8 : Nat) < a + xlen.bytes := by omega
  have hbyte : (a + (i / 8 : Nat) - a).toNat = i / 8 := by omega
  have hbit : 8 * (i / 8) + i % 8 = i := by omega
  have hlow : i % 8 < 8 := by omega
  rw [load, getLsbD_bytes hi, store, if_pos hinside, hbyte, BitVec.getLsbD_extractLsb', hbit]
  simp [hlow]

theorem load_store_of_disjoint (h : a + xlen.bytes ≤ b ∨ b + xlen.bytes ≤ a) :
    (load (store memory b v) a : xlen.Word) = load memory a :=
  load_congr fun _ _ _ => store_outside (by omega)

end Memory

namespace Xlen

variable {xlen : Xlen}

/-- Bits of a register. -/
def width (xlen : Xlen) : RegisterFile → Nat
  | .gpr => 8 * xlen.bytes
  | .fpr => 64

abbrev Registers (xlen : Xlen) := (r : Register) → BitVec (xlen.width r.file)

/-- The part of a register that a store of one word takes. -/
def low (xlen : Xlen) {file : RegisterFile} (v : BitVec (xlen.width file)) : xlen.Word :=
  v.setWidth (8 * xlen.bytes)

/-- The bits of a single as a float register holds them, below ones. -/
def boxed (v : BitVec 32) : BitVec 64 := BitVec.allOnes 32 ++ v

/-- What a load of one word leaves in a register. A float register has room for more than the word
of a narrow processor. -/
def fill (xlen : Xlen) (file : RegisterFile) (w : xlen.Word) : BitVec (xlen.width file) :=
  match xlen, file with
  | _, .gpr => w
  | .rv64, .fpr => w
  | .rv32, .fpr => boxed w

/-- The bits of some register. -/
structure Value (xlen : Xlen) where
  file : RegisterFile
  bits : BitVec (xlen.width file)
  deriving DecidableEq

/-- What comes back from a slot as wide as a general register. -/
def Value.throughSlot : {xlen : Xlen} → xlen.Value → xlen.Value
  | .rv32, ⟨.fpr, v⟩ => ⟨.fpr, boxed (BitVec.setWidth 32 v)⟩
  | _, v => v

theorem fill_low (v : xlen.Value) : Value.mk v.file (xlen.fill v.file (xlen.low v.bits)) =
    v.throughSlot := by
  obtain ⟨file, v⟩ := v
  cases xlen <;> cases file
  case rv32.fpr => rfl
  all_goals exact congrArg (Value.mk _) (BitVec.setWidth_eq v)

/-- Slots of a narrow processor have no room for a double. -/
def Value.FitsSlot : {xlen : Xlen} → xlen.Value → Prop
  | .rv32, ⟨.fpr, v⟩ => ∃ w, v = boxed w
  | _, _ => True

theorem setWidth_boxed (w : BitVec 32) : (boxed w).setWidth 32 = w :=
  BitVec.setWidth_append_eq_right

theorem Value.throughSlot_eq_iff {v : xlen.Value} : v.throughSlot = v ↔ v.FitsSlot := by
  obtain ⟨file, v⟩ := v
  cases xlen <;> cases file
  case rv32.fpr =>
    constructor
    · exact fun h => ⟨_, (eq_of_heq (Value.mk.inj h).2).symm⟩
    · rintro ⟨w, rfl⟩
      exact congrArg (fun w => Value.mk .fpr (boxed w)) (setWidth_boxed w)
  all_goals exact iff_of_true rfl trivial

end Xlen

structure Machine (xlen : Xlen) (σ : Type) where
  registers : xlen.Registers
  memory : Memory
  rest : σ

def Machine.zero (xlen : Xlen) : Machine xlen Unit where
  registers _ := 0
  memory _ := 0
  rest := ()

namespace Instruction

def target? (i : Instruction) : Option Register := i.destination.bind Operand.register?

def sourceRegister? (i : Instruction) (slot : Slot) : Option Register :=
  (i.source? slot).bind Operand.register?

def immediate? (i : Instruction) : Option Int :=
  (i.sources.find? (·.type = .imm)).bind fun op => match op.value with
    | .imm v => some v
    | _ => none

end Instruction

inductive Effect where
  | sum | load | store
  deriving DecidableEq

def Xlen.effect? (xlen : Xlen) (name : String) : Option Effect :=
  if name = "addi" then some .sum
  else if name = xlen.wordLoad ∨ name = xlen.floatLoad then some .load
  else if name = xlen.wordStore ∨ name = xlen.floatStore then some .store
  else none

/-- Functions behave as `recorded` says. The other fields are free: what instructions compute,
what is left in the registers they destroy, what they store, and how the rest moves on. -/
structure Processor (xlen : Xlen) (σ : Type) where
  recorded : IdMap (List Register)
  result : Instruction → Machine xlen σ → xlen.Registers
  debris : Instruction → Machine xlen σ → xlen.Registers
  store : Instruction → Machine xlen σ → Memory
  next : Instruction → Machine xlen σ → σ

variable {xlen : Xlen} {σ : Type}

namespace Machine

variable (m : Machine xlen σ)

def value (r : Register) : xlen.Value := ⟨r.file, m.registers r⟩

theorem value_congr {m m' : Machine xlen σ} {r : Register} (h : m'.registers r = m.registers r) :
    m'.value r = m.value r := by
  rw [value, value, h]

/-- The stack pointer. -/
abbrev sp : xlen.Word := m.registers .sp

/-- The base register plus the immediate. -/
def address? (i : Instruction) : Option Int := do
  let base ← i.sourceRegister? .rs1
  let offset ← i.immediate?
  return (m.registers base).toNat + offset

end Machine

namespace Processor

variable (p : Processor xlen σ) (m : Machine xlen σ) (i : Instruction)

/-- Side effects on registers. Callees restore the stack pointer. -/
def destroyed : List Register :=
  i.clobbers ++ match i.form with
    | .call f => ((p.recorded.get? f).getD []).filter (· ≠ .sp)
    | _ => []

def value (r : Register) : BitVec (xlen.width r.file) :=
  match xlen.effect? i.name, m.address? i with
  | some .sum, some a => BitVec.ofInt _ a
  | some .load, some a => xlen.fill r.file (Memory.load m.memory a)
  | _, _ => p.result i m r

def memoryAfter : Memory :=
  match xlen.effect? i.name, m.address? i, i.sourceRegister? .rs2 with
  | some .sum, some _, _ => m.memory
  | some .load, some _, _ => m.memory
  | some .store, some a, some r => Memory.store m.memory a (xlen.low (m.registers r))
  | _, _, _ => p.store i m

/-- All operands are read first, then side effects happen, and the result is written last. -/
def exec : Machine xlen σ :=
  if i.isLabel then m
  else {
    registers := fun r =>
      if i.target? = some r then p.value m i r
      else if r ∈ p.destroyed i then p.debris i m r
      else m.registers r
    memory := p.memoryAfter m i
    rest := p.next i m }

variable {p m i}

theorem exec_label (h : i.isLabel) : p.exec m i = m := by
  simp [exec, h]

theorem exec_target {r : Register} (hlabel : i.isLabel = false) (h : i.target? = some r) :
    (p.exec m i).registers r = p.value m i r := by
  simp [exec, hlabel, h]

theorem exec_register {r : Register} (htarget : i.target? ≠ some r) (h : r ∉ p.destroyed i) :
    (p.exec m i).registers r = m.registers r := by
  by_cases hlabel : i.isLabel
  · rw [exec_label hlabel]
  · simp [exec, hlabel, htarget, h]

theorem sp_not_destroyed (h : .sp ∉ i.clobbers) : .sp ∉ p.destroyed i := by
  unfold destroyed
  split <;> simp [h]

theorem destroyed_subset {known : List Register}
    (h : LiveInterval.clobbers p.recorded i = .ok known) : p.destroyed i ⊆ known := by
  cases hform : i.form with
  | call f =>
    cases hcallee : p.recorded.get? f with
    | none => simp [LiveInterval.clobbers, hform, hcallee] at h
    | some callee =>
      simp only [LiveInterval.clobbers, hform, hcallee, except_pure_ok] at h
      simp only [destroyed, hform, hcallee, Option.getD_some, ← h]
      exact List.append_subset.2
        ⟨List.subset_append_left _ _, fun r hr => List.mem_append_right _ (List.mem_filter.1 hr).1⟩
  | _ =>
    simp only [LiveInterval.clobbers, hform, except_pure_ok] at h
    simp [destroyed, hform, h]

theorem not_destroyed_of_harmless {r : Register} (hform : i.form = .native)
    (hclobbers : i.clobbers = []) : r ∉ p.destroyed i := by
  simp [destroyed, hform, hclobbers]

/-- All results are the same, so is all debris, and nothing is stored. -/
def constant (xlen : Xlen) (result debris : Nat) : Processor xlen Unit where
  recorded := {}
  result _ _ _ := BitVec.ofNat _ result
  debris _ _ _ := BitVec.ofNat _ debris
  store _ m := m.memory
  next _ _ := ()

theorem constant_memory {result debris : Nat} {m : Machine xlen Unit}
    (h : xlen.effect? i.name = none) :
    ((constant xlen result debris).exec m i).memory = m.memory := by
  unfold exec
  split
  · rfl
  · simp [memoryAfter, h, constant]

end Processor

namespace Instruction

variable {i i' : Instruction} {slot slot' : Slot} {r : Register} {v : Int} {value : OperandValue}
variable {action : String}

def Typed (i : Instruction) : Prop := ∀ op ∈ i.sources, op.slot.admits op.type

theorem typed_setFirst {p : Operand → Bool} {sources : List Operand}
    (h : setFirst p value i.sources = some sources) (hi : i.Typed) :
    Typed { i with sources } := by
  obtain ⟨front, op, back, hsources, _, _, rfl⟩ := setFirst_eq_some h
  intro a ha
  simp only [List.mem_append, List.mem_cons] at ha
  rcases ha with ha | rfl | ha
  · exact hi a (by simp [hsources, ha])
  · exact hi op (by simp [hsources])
  · exact hi a (by simp [hsources, ha])

theorem sourceRegister_setSource (h : i.setSource slot (.reg r) action = .ok i') :
    i'.sourceRegister? slot = some r := by
  obtain ⟨sources, hset, rfl⟩ := setSource_ok.1 h
  obtain ⟨op, _, hfound⟩ := find?_setFirst (fun _ => rfl) hset
  simp [sourceRegister?, source?, hfound, Operand.register?]

theorem sourceRegister_setSource_of_ne (hne : slot ≠ slot')
    (h : i.setSource slot value action = .ok i') :
    i'.sourceRegister? slot' = i.sourceRegister? slot' := by
  obtain ⟨sources, hset, rfl⟩ := setSource_ok.1 h
  have hskip := find?_setFirst_of_skip (q := (·.slot = slot')) hset (by
    intro op _ hop
    have hop : op.slot = slot := by simpa using hop
    simp [hop, hne])
  simp [sourceRegister?, source?, hskip]

theorem sourceRegister_setImmediate (hi : i.Typed) (hne : slot ≠ .imm)
    (h : i.setImmediate value action = .ok i') :
    i'.sourceRegister? slot = i.sourceRegister? slot := by
  obtain ⟨sources, hset, rfl⟩ := setImmediate_ok.1 h
  have hskip := find?_setFirst_of_skip (q := (·.slot = slot)) hset (by
    intro op hmem hop
    have hop : op.type = .imm := by simpa using hop
    have hadmits := hi op hmem
    have hslot : op.slot ≠ slot := by
      rintro rfl
      rw [hop] at hadmits
      revert hadmits hne
      cases op.slot <;> simp [Slot.admits]
    simp [hslot])
  simp [sourceRegister?, source?, hskip]

theorem immediate_setImmediate (h : i.setImmediate (.imm v) action = .ok i') :
    i'.immediate? = some v := by
  obtain ⟨sources, hset, rfl⟩ := setImmediate_ok.1 h
  obtain ⟨op, _, hfound⟩ := find?_setFirst (fun _ => rfl) hset
  simp [immediate?, hfound]

end Instruction
end PlanLowering
