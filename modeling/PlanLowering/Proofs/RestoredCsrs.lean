import Mathlib.Logic.Function.Basic
import PlanLowering.Proofs.Calls
import PlanLowering.Proofs.ExactIntervals
import PlanLowering.Proofs.RuntimeValues
import PlanLowering.Proofs.SpillCode
import PlanLowering.Proofs.TestCode

/-!
# Control registers outlive a test

Control registers that a test reaches through the runtime are saved on a page in front of it and
written back behind it. The machine here has memory in bytes and registers of one width, so that
slots which overlap, or which one half takes for others than the other half does, would show.
-/

namespace PlanLowering

structure Hart (xlen : Xlen) where
  registers : Register → xlen.Word
  csrs : String → xlen.Word
  memory : Memory

namespace Memory

variable {xlen : Xlen} {memory memory' : Memory} {a : Int}

/-- Consecutive words of memory, from an address on, are the values of control registers. -/
def Holds (memory : Memory) (values : String → xlen.Word) (a : Int) : List String → Prop
  | [] => True
  | csr :: rest => load memory a = values csr ∧ Holds memory values (a + xlen.bytes) rest

theorem Holds.congr {values : String → xlen.Word} {csrs : List String}
    (h : Holds memory values a csrs)
    (hsame : ∀ x, a ≤ x → x < a + (csrs.length * xlen.bytes : Nat) → memory' x = memory x) :
    Holds memory' values a csrs := by
  induction csrs generalizing a with
  | nil => trivial
  | cons csr rest ih =>
    rw [List.length_cons, Nat.succ_mul] at hsame
    refine ⟨?_, ih h.2 fun x hlow hhigh => hsame x (by omega) (by omega)⟩
    rw [load_congr fun x hlow hhigh => hsame x hlow (by omega)]
    exact h.1

end Memory

def Instruction.symbol? (i : Instruction) : Option String :=
  (i.sources.find? (·.type = .imm)).bind fun op => match op.value with
    | .symbol s => some s
    | _ => none

/-- The control register that a directive accesses, and how. -/
def Instruction.csrAccess? (i : Instruction) : Option (String × CsrAccess) :=
  match i.form with
  | .csrAccess csr access _ => some (csr, access)
  | _ => none

/-- Where symbols are, and what is left in registers that an instruction destroys. -/
structure Platform (xlen : Xlen) where
  address : String → xlen.Word
  debris : Hart xlen → Instruction → Register → xlen.Word

namespace Platform

variable {xlen : Xlen} (p : Platform xlen) (m : Hart xlen) (i : Instruction)

def place? : Option Int := do
  let base ← i.sourceRegister? .rs1
  let offset ← i.immediate?
  return (m.registers base).toNat + offset

def left : Register → xlen.Word := fun r =>
  if r ∈ i.clobbers then p.debris m i r else m.registers r

def yield? (result : xlen.Word) : Option (Register → xlen.Word) :=
  i.target?.map fun r => Function.update (p.left m i) r result

/-- What the instructions do that save control registers and write them back. Others are not
known. -/
def exec? : Option (Hart xlen) :=
  match i.form with
  | .csrAccess csr .read _ => do
    let registers ← p.yield? m i (m.csrs csr)
    return { m with registers }
  | .csrAccess csr (.update .write) _ => do
    let src ← i.sourceRegister? .rs1
    return { m with
      registers := p.left m i
      csrs := Function.update m.csrs csr (m.registers src) }
  | .native => match xlen.effect? i.name with
    | some .load => do
      let registers ← p.yield? m i (Memory.load m.memory (← place? m i))
      return { m with registers }
    | some .store => do
      let src ← i.sourceRegister? .rs2
      return { m with
        registers := p.left m i
        memory := Memory.store m.memory (← place? m i) (m.registers src) }
    | some .sum => none
    | none =>
      if i.name = "li" then do
        let registers ← p.yield? m i (p.address (← i.symbol?))
        return { m with registers }
      else none
  | _ => none

def run? (code : List Instruction) : Option (Hart xlen) := code.foldlM p.exec? m

/-- Whatever happens between two pieces of code, as long as it leaves some bytes from an address on
alone: behind the second one the control registers have the values again that they had in front of
the first one. -/
def Restores (page : Int) (size : Nat) (save restore : List Instruction) (csrs : List String) :
    Prop :=
  ∀ before : Hart xlen, ∃ saved, p.run? before save = some saved ∧
    ∀ after : Hart xlen, (∀ x, page ≤ x → x < page + size → after.memory x = saved.memory x) →
      ∃ restored, p.run? after restore = some restored ∧
        ∀ csr ∈ csrs, restored.csrs csr = before.csrs csr

end Platform

theorem Instruction.symbol_setImmediate {i i' : Instruction} {symbol action : String}
    (h : i.setImmediate (.symbol symbol) action = .ok i') : i'.symbol? = some symbol := by
  obtain ⟨sources, hset, rfl⟩ := setImmediate_ok.1 h
  obtain ⟨op, _, hfound⟩ := find?_setFirst (fun _ => rfl) hset
  simp [symbol?, hfound]

namespace Platform

variable {xlen : Xlen} {p : Platform xlen} {m : Hart xlen} {i : Instruction} {r base : Register}
variable {offset : Int} {symbol csr : String}

theorem run_append {code code' : List Instruction} {m' : Hart xlen}
    (h : p.run? m code = some m') : p.run? m (code ++ code') = p.run? m' code' := by
  rw [run?, List.foldlM_append]
  exact congrArg (· >>= fun m => p.run? m code') h

theorem left_of_harmless (h : i.clobbers = []) : p.left m i = m.registers := by
  funext r
  simp [left, h]

theorem left_of_directive (p : Platform xlen) (m : Hart xlen) (csr : String) (access : CsrAccess) :
    p.left m (.csrDirective csr access false) .sp = m.registers .sp :=
  if_neg (show Register.sp ∉ runtimeClobbers by decide)

theorem exec_read (p : Platform xlen) (m : Hart xlen) (csr : String) :
    ∃ m', p.exec? m (.csrDirective csr .read false) = some m' ∧ m'.csrs = m.csrs ∧
      m'.memory = m.memory ∧ m'.registers .t2 = m.csrs csr ∧
      m'.registers .sp = m.registers .sp := by
  have hne : Register.sp ≠ .t2 := by decide
  refine ⟨{ m with registers := Function.update (p.left m _) .t2 (m.csrs csr) }, rfl, rfl, rfl, ?_⟩
  simp [Function.update_of_ne hne, left_of_directive]

theorem exec_write (p : Platform xlen) (m : Hart xlen) (csr : String) :
    ∃ m', p.exec? m (.csrDirective csr (.update .write) false) = some m' ∧
      m'.csrs = Function.update m.csrs csr (m.registers .t2) ∧ m'.memory = m.memory ∧
      m'.registers .sp = m.registers .sp :=
  ⟨_, rfl, rfl, rfl, left_of_directive p m csr (.update .write)⟩

theorem exec_load (h : i.Spills xlen .load) (htarget : i.target? = some r)
    (hbase : i.sourceRegister? .rs1 = some base) (himm : i.immediate? = some offset) :
    ∃ m', p.exec? m i = some m' ∧ m'.csrs = m.csrs ∧ m'.memory = m.memory ∧
      m'.registers = Function.update m.registers r
        (Memory.load m.memory ((m.registers base).toNat + offset)) := by
  simp [exec?, h.native, h.effect, yield?, htarget, left_of_harmless h.harmless, place?, hbase,
    himm]

theorem exec_store (h : i.Spills xlen .store) (hsrc : i.sourceRegister? .rs2 = some r)
    (hbase : i.sourceRegister? .rs1 = some base) (himm : i.immediate? = some offset) :
    ∃ m', p.exec? m i = some m' ∧ m'.csrs = m.csrs ∧ m'.registers = m.registers ∧
      m'.memory =
        Memory.store m.memory ((m.registers base).toNat + offset) (m.registers r) := by
  simp [exec?, h.native, h.effect, hsrc, left_of_harmless h.harmless, place?, hbase, himm]

theorem exec_symbol (hform : i.form = .native) (hclobbers : i.clobbers = []) (hname : i.name = "li")
    (htarget : i.target? = some r) (hsymbol : i.symbol? = some symbol) :
    ∃ m', p.exec? m i = some m' ∧ m'.csrs = m.csrs ∧ m'.memory = m.memory ∧
      m'.registers = Function.update m.registers r (p.address symbol) := by
  have heffect : xlen.effect? "li" = none := by cases xlen <;> decide
  simp [exec?, hform, hname, heffect, yield?, htarget, left_of_harmless hclobbers, hsymbol]

end Platform

theorem TestFrame.slotOffset_succ (context : Context) (slot : Nat) :
    slotOffset context (slot + 1) = slotOffset context slot + context.environment.xlen.bytes := by
  simp [slotOffset, Nat.succ_mul]

section Storage

variable {context : Context} {specs : List TemplateSpec} {width : Xlen} {code : List Instruction}
variable {i : Instruction} {r : Register} {symbol : String} {offset : Int} {slot : Nat}
variable {csrs : List String}
variable {p : Platform context.environment.xlen} {m : Hart context.environment.xlen}
variable (hcatalog : Catalog.ofSpecs specs width = .ok context.catalog)
include hcatalog

namespace TestFrame

theorem exec_loadSymbol (h : loadSymbol context r symbol = .ok i) :
    ∃ m', p.exec? m i = some m' ∧ m'.csrs = m.csrs ∧ m'.memory = m.memory ∧
      m'.registers = Function.update m.registers r (p.address symbol) := by
  simp only [loadSymbol, except_bind_ok, except_pure_ok] at h
  obtain ⟨o, ho, o₁, hrd, o₂, himm, rfl⟩ := h
  obtain ⟨hblank, hname⟩ := Catalog.instruction_blank hcatalog ho
  have hsymbol := Instruction.symbol_setImmediate himm
  obtain ⟨op, _, rfl⟩ := Instruction.setDestination_ok.1 hrd
  obtain ⟨sources, _, rfl⟩ := Instruction.setImmediate_ok.1 himm
  exact Platform.exec_symbol hblank.native hblank.harmless hname rfl hsymbol

theorem exec_storageLoad (h : storageLoad context offset = .ok i) :
    ∃ m', p.exec? m i = some m' ∧ m'.csrs = m.csrs ∧ m'.memory = m.memory ∧
      m'.registers = Function.update m.registers .t2
        (Memory.load m.memory ((m.registers .sp).toNat + offset)) := by
  simp only [storageLoad, except_bind_ok] at h
  obtain ⟨o, ho, o₁, hrd, o₂, hrs1, himm⟩ := h
  obtain ⟨hblank, hname⟩ := Catalog.instruction_blank hcatalog ho
  have hspills : o.Spills context.environment.xlen .load :=
    SpillCode.spills_of_blank hblank (hname ▸ SpillCode.effect_spillOpcode _ .gpr true)
  obtain ⟨hspills, htarget⟩ := hspills.setDestination hrd
  obtain ⟨hspills, hbase, hoffset, htarget', _⟩ := hspills.based hrs1 himm
  exact Platform.exec_load hspills (htarget'.trans htarget) hbase hoffset

theorem exec_storageStore (h : storageStore context offset = .ok i) :
    ∃ m', p.exec? m i = some m' ∧ m'.csrs = m.csrs ∧ m'.registers = m.registers ∧
      m'.memory =
        Memory.store m.memory ((m.registers .sp).toNat + offset) (m.registers .t2) := by
  simp only [storageStore, except_bind_ok] at h
  obtain ⟨o, ho, o₁, hrs2, o₂, hrs1, himm⟩ := h
  obtain ⟨hblank, hname⟩ := Catalog.instruction_blank hcatalog ho
  have hspills : o.Spills context.environment.xlen .store :=
    SpillCode.spills_of_blank hblank (hname ▸ SpillCode.effect_spillOpcode _ .gpr false)
  obtain ⟨hspills, _⟩ := hspills.setSource hrs2
  obtain ⟨hspills, hbase, hoffset, _, hsrc⟩ := hspills.based hrs1 himm
  rw [Instruction.sourceRegister_setSource hrs2] at hsrc
  exact Platform.exec_store hspills hsrc hbase hoffset

theorem run_saveOne (csr : String) (h : storageStore context offset = .ok i) : ∃ m',
    p.run? m [.csrDirective csr .read false, i] = some m' ∧ m'.csrs = m.csrs ∧
      m'.registers .sp = m.registers .sp ∧
      m'.memory = Memory.store m.memory ((m.registers .sp).toNat + offset) (m.csrs csr) := by
  obtain ⟨m₁, hread, hcsrs₁, hmemory₁, ht2, hsp⟩ := p.exec_read m csr
  obtain ⟨m₂, hstore, hcsrs₂, hregisters₂, hmemory₂⟩ :=
    exec_storageStore hcatalog (p := p) (m := m₁) h
  refine ⟨m₂, by simp [Platform.run?, hread, hstore], hcsrs₂.trans hcsrs₁, ?_, ?_⟩
  · rw [hregisters₂, hsp]
  · rw [hmemory₂, hmemory₁, hsp, ht2]

theorem run_restoreOne (csr : String) (h : storageLoad context offset = .ok i) : ∃ m',
    p.run? m [i, .csrDirective csr (.update .write) false] = some m' ∧
      m'.csrs =
        Function.update m.csrs csr (Memory.load m.memory ((m.registers .sp).toNat + offset)) ∧
      m'.registers .sp = m.registers .sp ∧ m'.memory = m.memory := by
  obtain ⟨m₁, hload, hcsrs₁, hmemory₁, hregisters₁⟩ :=
    exec_storageLoad hcatalog (p := p) (m := m) h
  obtain ⟨m₂, hwrite, hcsrs₂, hmemory₂, hsp⟩ := p.exec_write m₁ csr
  refine ⟨m₂, by simp [Platform.run?, hload, hwrite], ?_, ?_, hmemory₂.trans hmemory₁⟩
  · rw [hcsrs₂, hcsrs₁, hregisters₁, Function.update_self]
  · rw [hsp, hregisters₁, Function.update_of_ne (by decide)]

theorem run_saveFrom (h : saveFrom context slot csrs = .ok code) : ∃ saved,
    p.run? m code = some saved ∧
      Memory.Holds saved.memory m.csrs ((m.registers .sp).toNat + slotOffset context slot) csrs ∧
      ∀ x < (m.registers .sp).toNat + slotOffset context slot, saved.memory x = m.memory x := by
  induction csrs generalizing slot code m with
  | nil =>
    rw [saveFrom, except_pure_ok] at h
    exact ⟨m, h ▸ rfl, trivial, fun _ _ => rfl⟩
  | cons csr rest ih =>
    simp only [saveFrom, except_bind_ok, except_pure_ok] at h
    obtain ⟨store, hstore, more, hmore, rfl⟩ := h
    obtain ⟨stored, hone, hcsrs, hsp, hmemory⟩ := run_saveOne hcatalog (p := p) (m := m) csr hstore
    obtain ⟨saved, hrun, hholds, hbelow⟩ := ih (m := stored) hmore
    have hnext := slotOffset_succ context slot
    rw [hcsrs, hsp, hnext, ← Int.add_assoc] at hholds
    rw [hsp, hnext, hmemory] at hbelow
    refine ⟨saved, (Platform.run_append hone).trans hrun, ⟨?_, hholds⟩, fun x hx => ?_⟩
    · -- later slots are behind this one
      rw [Memory.load_congr fun x _ hx => hbelow x (by omega), Memory.load_store]
    · rw [hbelow x (by omega), Memory.store_outside (by omega)]

theorem run_restoreFrom {values : String → context.environment.xlen.Word}
    (h : restoreFrom context slot csrs = .ok code)
    (hholds : Memory.Holds m.memory values ((m.registers .sp).toNat + slotOffset context slot) csrs) :
    ∃ restored, p.run? m code = some restored ∧
      ∀ csr, restored.csrs csr = if csr ∈ csrs then values csr else m.csrs csr := by
  induction csrs generalizing slot code m with
  | nil =>
    rw [restoreFrom, except_pure_ok] at h
    exact ⟨m, h ▸ rfl, by simp⟩
  | cons csr rest ih =>
    simp only [restoreFrom, except_bind_ok, except_pure_ok] at h
    obtain ⟨load, hload, more, hmore, rfl⟩ := h
    obtain ⟨next, hone, hcsrs, hsp, hmemory⟩ := run_restoreOne hcatalog (p := p) (m := m) csr hload
    obtain ⟨hfirst, hrest⟩ := hholds
    rw [Int.add_assoc, ← slotOffset_succ, ← hsp, ← hmemory] at hrest
    obtain ⟨restored, hrun, hvalues⟩ := ih hmore hrest
    refine ⟨restored, (Platform.run_append hone).trans hrun, fun other => ?_⟩
    rw [hvalues, hcsrs, hfirst]
    by_cases hother : other = csr
    · subst hother
      simp
    · simp [hother]

/-- Saving and writing back go over the same slots in the same order. -/
theorem restores {saving restoring : List Instruction} (hsave : save context csrs = .ok saving)
    (hrestore : restore context csrs = .ok restoring) :
    p.Restores (p.address context.options.csrStorage).toNat
      (csrs.length * context.environment.xlen.bytes) saving restoring csrs := by
  intro before
  cases csrs with
  | nil =>
    obtain rfl := atStorage_nil hsave
    obtain rfl := atStorage_nil hrestore
    exact ⟨before, rfl, fun after _ => ⟨after, rfl, by simp⟩⟩
  | cons csr rest =>
    obtain ⟨page, moved, hpage, hmoved, rfl⟩ := atStorage_cons hsave
    obtain ⟨page', moved', hpage', hmoved', rfl⟩ := atStorage_cons hrestore
    obtain ⟨opened, hopen, hcsrs, -, hregisters⟩ :=
      exec_loadSymbol hcatalog (p := p) (m := before) hpage
    have hsp : opened.registers .sp = p.address context.options.csrStorage := by simp [hregisters]
    obtain ⟨saved, hrun, hholds, -⟩ := run_saveFrom hcatalog (p := p) (m := opened) hmoved
    have hfirst : slotOffset context 0 = 0 := by simp [slotOffset]
    rw [hsp, hfirst, Int.add_zero, hcsrs] at hholds
    refine ⟨saved, by simpa [Platform.run?, hopen] using hrun, fun after hafter => ?_⟩
    obtain ⟨opened', hopen', -, hmemory', hregisters'⟩ :=
      exec_loadSymbol hcatalog (p := p) (m := after) hpage'
    have hsp' : opened'.registers .sp = p.address context.options.csrStorage := by
      simp [hregisters']
    have hkept : Memory.Holds opened'.memory before.csrs
        ((opened'.registers .sp).toNat + slotOffset context 0) (csr :: rest) := by
      rw [hsp', hfirst, Int.add_zero, hmemory']
      exact hholds.congr hafter
    obtain ⟨restored, hrun', hvalues⟩ := run_restoreFrom hcatalog (p := p) hmoved' hkept
    refine ⟨restored, by simpa [Platform.run?, hopen'] using hrun', fun other hother => ?_⟩
    rw [hvalues, if_pos hother]

end TestFrame
end Storage

section Accesses

variable {context : Context} {state state' : State} {code : List Instruction} {slot : Nat}
variable {csrs : List String} {csr name : String} {i : Instruction} {test : TestCase} {c : TestCode}

namespace Instruction

@[simp] theorem csrAccess_csrDirective (csr : String) (access : CsrAccess) (direct : Bool) :
    (csrDirective csr access direct).csrAccess? = some (csr, access) := rfl

@[simp] theorem csrAccess_label (id : Id) (name : String) (pointer : Bool) :
    (label id name pointer).csrAccess? = none := rfl

theorem csrAccess_of_native (h : i.form = .native) : i.csrAccess? = none := by
  simp [csrAccess?, h]

theorem accesses_of_native (h : ∀ i ∈ code, i.form = .native) : code.filterMap csrAccess? = [] := by
  rw [List.filterMap_eq_nil_iff]
  exact fun i hi => csrAccess_of_native (h i hi)

end Instruction

namespace TestFrame

theorem mem_runtimeCsrs : csr ∈ runtimeCsrs code ↔
    ∃ access, (csr, access) ∈ code.filterMap Instruction.csrAccess? := by
  simp only [runtimeCsrs, List.mem_eraseDups, List.mem_filterMap]
  constructor
  · rintro ⟨i, hi, hcsr⟩
    split at hcsr
    · next csr' access direct hform =>
      rw [Option.some.injEq] at hcsr
      exact ⟨access, i, hi, by simp [Instruction.csrAccess?, hform, hcsr]⟩
    · cases hcsr
  · rintro ⟨access, i, hi, haccess⟩
    unfold Instruction.csrAccess? at haccess
    split at haccess
    · next csr' access' direct hform =>
      simp only [Option.some.injEq, Prod.mk.injEq] at haccess
      exact ⟨i, hi, by simp [hform, haccess.1]⟩
    · cases haccess

theorem saveFrom_accesses (h : saveFrom context slot csrs = .ok code) :
    code.filterMap Instruction.csrAccess? = csrs.map (·, .read) := by
  induction csrs generalizing slot code with
  | nil =>
    rw [saveFrom, except_pure_ok] at h
    simp [← h]
  | cons csr rest ih =>
    simp only [saveFrom, except_bind_ok, except_pure_ok] at h
    obtain ⟨store, hstore, more, hmore, rfl⟩ := h
    have hnone := Instruction.csrAccess_of_native (storageStore_native hstore)
    simp [hnone, ih hmore]

theorem restoreFrom_accesses (h : restoreFrom context slot csrs = .ok code) :
    code.filterMap Instruction.csrAccess? = csrs.map (·, .update .write) := by
  induction csrs generalizing slot code with
  | nil =>
    rw [restoreFrom, except_pure_ok] at h
    simp [← h]
  | cons csr rest ih =>
    simp only [restoreFrom, except_bind_ok, except_pure_ok] at h
    obtain ⟨load, hload, more, hmore, rfl⟩ := h
    have hnone := Instruction.csrAccess_of_native (storageLoad_native hload)
    simp [hnone, ih hmore]

theorem atStorage_accesses {move : Nat → List String → Except LoweringError (List Instruction)}
    {access : CsrAccess} (hmove : ∀ slot csrs code, move slot csrs = .ok code →
      code.filterMap Instruction.csrAccess? = csrs.map (·, access))
    (h : atStorage context move csrs = .ok code) :
    code.filterMap Instruction.csrAccess? = csrs.map (·, access) := by
  cases csrs with
  | nil => simp [atStorage_nil h]
  | cons csr rest =>
    obtain ⟨page, moved, hpage, hmoved, rfl⟩ := atStorage_cons h
    have hnone := Instruction.csrAccess_of_native (loadSymbol_native hpage)
    rw [List.filterMap_cons, hnone, hmove _ _ _ hmoved]

end TestFrame

theorem Harness.testPassed_accesses (h : testPassed context name = .ok code) :
    code.filterMap Instruction.csrAccess? = [] := by
  simp only [testPassed, except_bind_ok, except_pure_ok] at h
  obtain ⟨jump, hjump, rfl⟩ := h
  simpa [List.filterMap_cons] using Instruction.accesses_of_native (jumpThrough_native hjump)

namespace TestCode

/-- Control registers that the body reaches through the runtime are saved once in front of it and
written back once behind it. What else happens in between does not matter. -/
structure KeepsCsrs (context : Context) (csrs : List String) (c : TestCode) : Prop where
  nodup : csrs.Nodup
  reached : ∀ csr, csr ∈ csrs ↔ ∃ access, (csr, access) ∈ c.body.filterMap Instruction.csrAccess?
  saved : c.prologue.filterMap Instruction.csrAccess? = csrs.map (·, .read)
  written : c.epilogue.filterMap Instruction.csrAccess? = csrs.map (·, .update .write)
  restored : ∀ p : Platform context.environment.xlen,
    p.Restores (p.address context.options.csrStorage).toNat
      (csrs.length * context.environment.xlen.bytes) c.save c.restore csrs

variable (h : c.LowersTo test context state state')
include h

theorem LowersTo.prologue_accesses : c.prologue.filterMap Instruction.csrAccess? =
    (TestFrame.runtimeCsrs c.body).map (·, .read) := by
  obtain ⟨opened, closed, label, _, _, _, hentry⟩ := h.run
  obtain ⟨size, hsetup⟩ := h.setup
  have hsave := TestFrame.atStorage_accesses (fun _ _ _ => TestFrame.saveFrom_accesses) h.save
  have hsetup := Instruction.accesses_of_native (TestFrame.openStack_native hsetup)
  simp [prologue, hentry, hsave, hsetup, List.filterMap_cons]

theorem LowersTo.epilogue_accesses : c.epilogue.filterMap Instruction.csrAccess? =
    (TestFrame.runtimeCsrs c.body).map (·, .update .write) := by
  have hrestore := TestFrame.atStorage_accesses
    (fun _ _ _ => TestFrame.restoreFrom_accesses) h.restore
  simp [epilogue, hrestore, Harness.testPassed_accesses h.passed]

theorem LowersTo.keepsCsrs {specs : List TemplateSpec} {width : Xlen}
    (hcatalog : Catalog.ofSpecs specs width = .ok context.catalog) :
    c.KeepsCsrs context (TestFrame.runtimeCsrs c.body) where
  nodup := LiveInterval.nodup_eraseDups _
  reached _ := TestFrame.mem_runtimeCsrs
  saved := h.prologue_accesses
  written := h.epilogue_accesses
  restored _ := TestFrame.restores hcatalog h.save h.restore

end TestCode
end Accesses

namespace Program

/-- Whatever the bodies do with registers and other memory, tests give control registers back. -/
theorem csrs_restored {builders : StepBuilders} {context : Context} {specs : List TemplateSpec}
    {width : Xlen} {scenarios : List Scenario} {program : Program}
    (hcatalog : Catalog.ofSpecs specs width = .ok context.catalog)
    (h : lowerScenarios builders context scenarios = .ok program) :
    ∃ tests, buildTests builders scenarios = .ok tests ∧
      ∀ routine ∈ program.tests, ∃ actions s t, ∃ c : TestCode, ∃ csrs,
        Turn tests context routine actions s ∧ lowerRoutine actions context s = .ok c.body t ∧
        routine.instructions = c.instructions ∧ c.KeepsCsrs context csrs := by
  obtain ⟨tests, final, htests, hrun⟩ := lowerScenarios_ok h
  obtain ⟨batch, s, t, u, v, hbatch, hfunctions, hstorage, hlowered, _⟩ := ofTests_ok hrun
  refine ⟨tests, htests, fun routine hroutine => ?_⟩
  obtain ⟨before, test, after, lowered, w, x, hsplit, hbefore, htest⟩ :=
    lowerTests_turn hlowered hroutine
  obtain ⟨c, hc, rfl⟩ := lowerTest_ok htest
  obtain ⟨opened, closed, label, hstack, hbody, _⟩ := hc.run
  exact ⟨test.actions, opened, closed, c, TestFrame.runtimeCsrs c.body,
    .test hbatch hfunctions hstorage hsplit hbefore htest hstack, hbody, rfl, hc.keepsCsrs hcatalog⟩

theorem guarded_csrs_restored : ∃ program,
    Catalog.ofSpecs Catalog.builtinSpecs .rv64 = .ok userContext.catalog ∧
    lowerScenarios .standard userContext guarded = .ok program ∧
    program.tests.map (fun routine => routine.instructions.filterMap Instruction.csrAccess?) =
      [[("mstatus", .read), ("satp", .read), ("mstatus", .read), ("satp", .update .write),
        ("mstatus", .update .write), ("satp", .update .write)]] ∧
    ∃ tests, buildTests .standard guarded = .ok tests ∧
      ∀ routine ∈ program.tests, ∃ actions s t, ∃ c : TestCode, ∃ csrs,
        Turn tests userContext routine actions s ∧
        lowerRoutine actions userContext s = .ok c.body t ∧
        routine.instructions = c.instructions ∧ c.KeepsCsrs userContext csrs := by
  have hcatalog : Catalog.ofSpecs Catalog.builtinSpecs .rv64 = .ok userContext.catalog :=
    Catalog.builtin_rv64
  obtain ⟨program, h, haccesses⟩ : ∃ program,
      lowerScenarios .standard userContext guarded = .ok program ∧
      (program.tests.map fun routine =>
        routine.instructions.filterMap Instruction.csrAccess?) =
        [[("mstatus", .read), ("satp", .read), ("mstatus", .read), ("satp", .update .write),
          ("mstatus", .update .write), ("satp", .update .write)]] :=
    exists_lowered rfl (by decide +kernel)
  exact ⟨program, hcatalog, h, haccesses, csrs_restored hcatalog h⟩

end Program
end PlanLowering
