import Mathlib.Data.Finset.Card
import PlanLowering.Proofs.FunctionCode
import PlanLowering.Proofs.Interval
import PlanLowering.Proofs.Placeholders
import PlanLowering.Proofs.Reloads
import PlanLowering.Proofs.Stock

/-!
# The budget of scratch registers

Allocation reloads values from the stack around one instruction at a time, each id once. So it runs
out of scratch registers only at an instruction that reads more ids of a file than there are scratch
registers in it, and with a stocked catalog nothing else can fail, however small the pool is. How
often a value is reloaded is not considered.
-/

namespace PlanLowering

variable {context : Context} {state : State} {code out : List Instruction}
variable {i o : Instruction} {id consumer : Id} {r : Register} {slot : Nat} {file : RegisterFile}
variable {spill : SpillCode} {a : Allocation} {ops : List Operand} {op : Operand}
variable {reloads : Reloads} {pool : RegisterPool} {intervals : List LiveInterval}

section Spill

theorem Catalog.Stocked.spillLoad {xlen : Xlen} {catalog : Catalog} (h : catalog.Stocked xlen)
    (file : RegisterFile) : Returns (catalog.instruction (xlen.spillOpcode file true))
      (·.Offers [.rd, .rs1, .imm]) := by
  cases xlen <;> cases file <;> exact h.instruction (by decide) (by decide)

theorem Catalog.Stocked.spillStore {xlen : Xlen} {catalog : Catalog} (h : catalog.Stocked xlen)
    (file : RegisterFile) : Returns (catalog.instruction (xlen.spillOpcode file false))
      (·.Offers [.rs1, .rs2, .imm]) := by
  cases xlen <;> cases file <;> exact h.instruction (by decide) (by decide)

namespace SpillCode

/-- Spill code can be made for the registers of both files. -/
structure Stocked (spill : SpillCode) : Prop where
  load : ∀ r, Returns (spill.template r true) (·.Offers [.rd, .rs1, .imm])
  store : ∀ r, Returns (spill.template r false) (·.Offers [.rs1, .rs2, .imm])
  adjust : spill.adjust.Offers [.rd, .rs1, .imm]

theorem ofContext_returns (hstock : context.catalog.Stocked context.environment.xlen) :
    Returns (ofContext context) Stocked := by
  have hadjust : Returns (context.catalog.instruction "addi") (·.Offers [.rd, .rs1, .imm]) :=
    hstock.instruction (by decide) (.inr (by decide))
  obtain ⟨floatLoad, hfloatLoad, hloads⟩ := hstock.spillLoad .fpr
  obtain ⟨floatStore, hfloatStore, hstores⟩ := hstock.spillStore .fpr
  obtain ⟨_, hfindLoad, rfl⟩ := Catalog.instruction_ok.1 hfloatLoad
  obtain ⟨_, hfindStore, rfl⟩ := Catalog.instruction_ok.1 hfloatStore
  simp only [Xlen.spillOpcode] at hfindLoad hfindStore
  simp only [ofContext, hfindLoad, hfindStore, Option.map_some, returns_bind, returns_pure]
  refine (hstock.spillLoad .gpr).mono fun load hloadWord => ?_
  refine (hstock.spillStore .gpr).mono fun store hstoreWord => ?_
  refine hadjust.mono fun adjust hadjust => ⟨fun r => ?_, fun r => ?_, hadjust⟩
  · cases hfile : r.file <;> simpa [template, hfile]
  · cases hfile : r.file <;> simpa [template, hfile]

theorem Stocked.reload (h : spill.Stocked) (r : Register) (slot : Nat) (id : Id) :
    Returns (spill.reload r slot id) fun _ => True := by
  simp only [SpillCode.reload, returns_bind, returns_pure]
  refine (h.load r).mono fun i hi => hi.setDestination (by simp) fun i hi => ?_
  exact hi.setSource (by simp) (by decide) fun i hi => hi.setImmediate (by simp) fun _ _ => trivial

theorem Stocked.save (h : spill.Stocked) (r : Register) (slot : Nat) (id : Id) :
    Returns (spill.save r slot id) fun _ => True := by
  simp only [SpillCode.save, returns_bind, returns_pure]
  refine (h.store r).mono fun i hi => hi.setSource (by simp) (by decide) fun i hi => ?_
  exact hi.setSource (by simp) (by decide) fun i hi => hi.setImmediate (by simp) fun _ _ => trivial

theorem Stocked.moveStack (h : spill.Stocked) (bytes : Int) (id : Id) :
    Returns (spill.moveStack bytes id) fun _ => True := by
  simp only [SpillCode.moveStack, returns_bind, returns_pure]
  refine h.adjust.setDestination (by simp) fun i hi => ?_
  exact hi.setSource (by simp) (by decide) fun i hi => hi.setImmediate (by simp) fun _ _ => trivial

theorem Stocked.frame (h : spill.Stocked) (slots : Nat) (body : List Instruction) :
    Returns (spill.frame slots body) fun _ => True := by
  simp only [SpillCode.frame, returns_bind]
  refine (h.moveStack _ _).mono fun enter _ => (h.moveStack _ _).mono fun leave _ => ?_
  cases body with
  | nil => simp
  | cons first rest => by_cases hlabel : first.isLabel <;> simp [hlabel]

end SpillCode

end Spill

section Replace

/-- The ids that are read from a file. -/
def idsRead (file : RegisterFile) (ops : List Operand) : List Id :=
  (ops.filter (·.type.file? = some file)).filterMap Operand.virtual?

theorem mem_idsRead : id ∈ idsRead file ops ↔
    ∃ op ∈ ops, op.type.file? = some file ∧ op.virtual? = some id := by
  simp [idsRead, and_assoc]

theorem idsRead_subset : idsRead file ops ⊆ idsRead file (op :: ops) := by
  intro id hid
  obtain ⟨other, hother, hread⟩ := mem_idsRead.1 hid
  exact mem_idsRead.2 ⟨other, List.mem_cons_of_mem _ hother, hread⟩

namespace Reloads

def inUse (reloads : Reloads) (file : RegisterFile) : Nat :=
  (reloads.held.entries.filter fun entry => entry.2.file = file).length

def awaited (reloads : Reloads) (file : RegisterFile) (ops : List Operand) : Finset Id :=
  (idsRead file ops).toFinset.filter fun id => reloads.held.get? id = none

def Affords (reloads : Reloads) (ops : List Operand) : Prop :=
  ∀ file : RegisterFile, reloads.inUse file + (reloads.awaited file ops).card ≤ file.scratch.length

theorem mem_awaited : id ∈ reloads.awaited file ops ↔
    id ∈ idsRead file ops ∧ reloads.held.get? id = none := by
  simp [awaited]

theorem Affords.tail (h : reloads.Affords (op :: ops)) : reloads.Affords ops := by
  intro file
  have hsub : reloads.awaited file ops ⊆ reloads.awaited file (op :: ops) :=
    Finset.filter_subset_filter _ fun id hid =>
      List.mem_toFinset.2 (idsRead_subset (List.mem_toFinset.1 hid))
  have hcard := Finset.card_le_card hsub
  have hroom := h file
  omega

theorem affords_initial
    (h : ∀ file : RegisterFile, (idsRead file ops).toFinset.card ≤ file.scratch.length) :
    Affords {} ops := by
  intro file
  have hused : inUse {} file = 0 := rfl
  have hcard : (awaited {} file ops).card ≤ (idsRead file ops).toFinset.card :=
    Finset.card_filter_le _ _
  have hroom := h file
  omega

/-- A reload takes one more scratch register, and there is one id less to wait for. -/
theorem affords_insert (hid : op.virtual? = some id) (hfile : op.type.file? = some file)
    (hheld : reloads.held.get? id = none) (hr : r.file = file)
    (h : reloads.Affords (op :: ops)) (more : List Instruction) :
    Affords { held := reloads.held.insert id r, code := more } ops := by
  intro f
  have hroom := h f
  have hused : inUse { held := reloads.held.insert id r, code := more } f =
      reloads.inUse f + if file = f then 1 else 0 := by
    simp only [inUse, IdMap.entries_insert hheld, List.filter_append, List.length_append]
    by_cases hf : file = f <;> simp [hr, hf]
  have hsub : awaited { held := reloads.held.insert id r, code := more } f ops ⊆
      (reloads.awaited f (op :: ops)).erase id := by
    intro key hkey
    obtain ⟨hread, hnone⟩ := mem_awaited.1 hkey
    rw [IdMap.get?_insert] at hnone
    split at hnone
    · cases hnone
    · next hne => exact Finset.mem_erase.2 ⟨hne, mem_awaited.2 ⟨idsRead_subset hread, hnone⟩⟩
  have hcard := Finset.card_le_card hsub
  rw [hused]
  split
  · next hf =>
    have hmem : id ∈ reloads.awaited f (op :: ops) :=
      mem_awaited.2 ⟨mem_idsRead.2 ⟨op, List.mem_cons_self, hf ▸ hfile, hid⟩, hheld⟩
    have herase := Finset.card_erase_add_one hmem
    omega
  · have herase := Finset.card_erase_le (s := reloads.awaited f (op :: ops)) (a := id)
    omega

theorem reload_returns (hspill : spill.Stocked) (hid : op.virtual? = some id)
    (hfile : op.type.file? = some file) (h : reloads.Affords (op :: ops)) :
    Returns (reloads.reload spill consumer file id slot) (·.2.Affords ops) := by
  unfold reload
  cases hheld : reloads.held.get? id with
  | some r => exact returns_pure.2 h.tail
  | none =>
    have hmem : id ∈ reloads.awaited file (op :: ops) :=
      mem_awaited.2 ⟨mem_idsRead.2 ⟨op, List.mem_cons_self, hfile, hid⟩, hheld⟩
    have hfree : reloads.inUse file < file.scratch.length := by
      have hpos := Finset.card_pos.2 ⟨id, hmem⟩
      have hroom := h file
      omega
    obtain ⟨r, hr⟩ : ∃ r, file.scratch[(reloads.held.entries.filter fun entry =>
        entry.2.file = file).length]? = some r := ⟨_, List.getElem?_eq_getElem hfree⟩
    have hscratch := RegisterFile.file_of_scratch (List.mem_of_getElem? hr)
    simp only [hr, returns_bind, returns_pure]
    exact (hspill.reload r slot id).mono fun o _ => affords_insert hid hfile hheld hscratch h _

end Reloads

namespace Allocation

open Reloads

theorem replaceSources_returns (hspill : spill.Stocked)
    (hplaced : ∀ op ∈ ops, ∀ id, op.virtual? = some id → ∃ l, a.location id = .ok l)
    (hroom : reloads.Affords ops) :
    Returns (a.replaceSources spill consumer reloads ops) fun _ => True := by
  induction ops generalizing reloads with
  | nil => exact returns_pure.2 trivial
  | cons op rest ih =>
    obtain ⟨hop, hrest⟩ := List.forall_mem_cons.1 hplaced
    unfold replaceSources
    cases hid : op.virtual? with
    | none =>
      simp only [returns_bind, returns_pure]
      exact ih hrest hroom.tail
    | some id =>
      obtain ⟨file, hfile⟩ := Operand.file_of_virtual hid
      obtain ⟨l, hl⟩ := hop id hid
      cases l with
      | register r =>
        simp only [hfile, hl, pure_bind, returns_bind, returns_ok, returns_pure]
        exact ih hrest hroom.tail
      | slot n =>
        simp only [hfile, hl, returns_bind, returns_ok, returns_pure]
        exact (reload_returns hspill hid hfile hroom).mono fun result hresult => ih hrest hresult

theorem replaceOperands_returns (hspill : spill.Stocked)
    (hplaced : ∀ op ∈ i.operands, ∀ id, op.virtual? = some id → ∃ l, a.location id = .ok l)
    (hroom : ∀ f : RegisterFile, (idsRead f i.sources).toFinset.card ≤ f.scratch.length) :
    Returns (a.replaceOperands spill i) fun _ => True := by
  have hsources : Returns (a.replaceSources spill i.id {} i.sources) fun _ => True :=
    replaceSources_returns hspill (fun op hop => hplaced op (List.mem_append_right _ hop))
      (affords_initial hroom)
  simp only [replaceOperands, returns_bind]
  refine hsources.mono fun result _ => ?_
  cases hdest : i.destination with
  | none => simp
  | some op =>
    simp only [returns_bind, returns_pure]
    unfold replaceDestination
    cases hid : op.virtual? with
    | none => simp
    | some id =>
      obtain ⟨file, hfile⟩ := Operand.file_of_virtual hid
      obtain ⟨l, hl⟩ := hplaced op (List.mem_append_left _ (by simp [hdest])) id hid
      cases l with
      | register r => simp [hfile, hl]
      | slot n =>
        simp only [hfile, hl, returns_bind, returns_ok, returns_pure]
        exact hspill.save _ n id

def WithinScratch (code : List Instruction) : Prop :=
  ∀ i ∈ code, ∀ f : RegisterFile, (idsRead f i.sources).toFinset.card ≤ f.scratch.length

theorem replaceAll_returns (hspill : spill.Stocked)
    (hplaced : ∀ i ∈ code, ∀ op ∈ i.operands, ∀ id, op.virtual? = some id →
      ∃ l, a.location id = .ok l) (hroom : WithinScratch code) :
    Returns (a.replaceAll spill code) fun _ => True := by
  induction code with
  | nil => exact returns_pure.2 trivial
  | cons i rest ih =>
    obtain ⟨hi, hrest⟩ := List.forall_mem_cons.1 hplaced
    obtain ⟨hown, hroom⟩ := List.forall_mem_cons.1 hroom
    simp only [replaceAll, returns_bind, returns_pure]
    exact (replaceOperands_returns hspill hi hown).mono fun _ _ => ih hrest hroom

theorem apply_returns (hstock : context.catalog.Stocked context.environment.xlen)
    (hplaced : ∀ i ∈ code, ∀ op ∈ i.operands, ∀ id, op.virtual? = some id →
      ∃ l, a.location id = .ok l) (hroom : WithinScratch code) :
    Returns (a.apply context code) fun _ => True := by
  simp only [apply, returns_bind]
  refine (SpillCode.ofContext_returns hstock).mono fun spill hspill => ?_
  refine (replaceAll_returns hspill hplaced hroom).mono fun pieces _ => ?_
  split
  · simp
  · exact hspill.frame _ _

theorem located (hsound : a.Sound pool) {recorded : IdMap (List Register)}
    (hdescribes : LiveInterval.Describes recorded code a.intervals) :
    ∀ i ∈ code, ∀ op ∈ i.operands, ∀ id, op.virtual? = some id → ∃ l, a.location id = .ok l := by
  intro i hi op hop id hid
  obtain ⟨k, hk⟩ := List.getElem?_of_mem hi
  obtain ⟨j, hj, rfl⟩ : ∃ j ∈ a.intervals, j.id = id := by
    rcases List.mem_append.1 hop with hop | hop
    · have hdef : i.Defines id := Option.bind_eq_some_iff.2 ⟨op, Option.mem_toList.1 hop, hid⟩
      obtain ⟨j, hj, hid, _⟩ := hdescribes.defined k i id hk hdef
      exact ⟨j, hj, hid⟩
    · obtain ⟨j, hj, hid, _⟩ := hdescribes.read k i hk id (List.mem_filterMap.2 ⟨op, hop, hid⟩)
      exact ⟨j, hj, hid⟩
  exact hsound.located (List.mem_map_of_mem hj)

open Lower

theorem ofCode_draws (hintervals : LiveInterval.ofCode state.clobbers code = .ok intervals) :
    (Allocation.ofCode pool code).Succeeds context state fun _ state' =>
      ∃ random, state' = { state with random } := by
  simp only [ofCode, succeeds_bind, succeeds_get, succeeds_ofExcept]
  have hscan : (Scan.run pool intervals).Total fun _ => True := by
    intro source
    obtain ⟨a, source', hrun, _⟩ :=
      Scan.run_ready pool (LiveInterval.ofCode_describes hintervals).ready source
    exact ⟨a, source', hrun, trivial⟩
  exact ⟨intervals, hintervals, succeeds_draw hscan fun a random _ => ⟨random, rfl⟩⟩

end Allocation

end Replace

open Lower

/-- Code that has intervals and keeps within the scratch registers can be allocated. -/
theorem allocate_draws (hstock : context.catalog.Stocked context.environment.xlen)
    (hintervals : LiveInterval.ofCode state.clobbers code = .ok intervals)
    (hroom : Allocation.WithinScratch code) :
    (allocate pool code).Succeeds context state fun _ state' =>
      ∃ random, state' = { state with random } := by
  simp only [allocate, succeeds_bind, succeeds_read]
  refine (Allocation.ofCode_draws hintervals).attach.mono ?_
  rintro a state' ⟨hrun, hdrawn⟩
  obtain ⟨hsound, hdescribes⟩ := Allocation.ofCode_ok hrun
  have hreturns := Allocation.apply_returns hstock (Allocation.located hsound hdescribes) hroom
  exact succeeds_of_returns (hreturns.mono fun _ _ => hdrawn)

section Operands

theorem Operand.virtual?_of_concrete (h : op.isConcrete) : op.virtual? = none := by
  apply virtual?_eq_none
  intro id hvalue
  simp [isConcrete, hvalue] at h

theorem Operand.Placed.virtual?_eq_none {op' : Operand} (h : op.Placed op') :
    op'.virtual? = none := by
  unfold Placed at h
  cases hid : op.virtual? with
  | none =>
    rw [hid] at h
    exact h ▸ hid
  | some id =>
    rw [hid] at h
    obtain ⟨r, rfl⟩ := h
    apply Operand.virtual?_eq_none
    intro key hkey
    cases hkey

theorem Allocation.apply_virtual (hcomplete : context.catalog.Complete)
    (h : a.apply context code = .ok out) : ∀ o ∈ out, ∀ op ∈ o.operands, op.virtual? = none := by
  obtain ⟨spill, hspill, _, hout⟩ := mem_apply h
  intro o ho op hop
  rcases hout o ho with hmade | ⟨i, _, hplaced⟩
  · have hallocated := hmade.allocated hcomplete hspill
    exact Operand.virtual?_of_concrete (Instruction.isAllocated_iff.1 hallocated op hop)
  · have hoperands : List.Forall₂ Operand.Placed i.operands o.operands :=
      List.rel_append hplaced.destination hplaced.sources
    obtain ⟨_, _, hop⟩ := exists_of_forall₂ hoperands hop
    exact hop.virtual?_eq_none

end Operands

/-- Code whose instructions read at most two ids from general registers and three from float
registers can be allocated whatever the pool and the source, and no id is left in it. -/
theorem allocate_within_scratch
    (hcatalog : Catalog.builtin context.environment.xlen = .ok context.catalog)
    (hintervals : LiveInterval.ofCode state.clobbers code = .ok intervals)
    (hgpr : ∀ i ∈ code, (idsRead .gpr i.sources).toFinset.card ≤ 2)
    (hfpr : ∀ i ∈ code, (idsRead .fpr i.sources).toFinset.card ≤ 3) :
    ∃ out state', allocate pool code context state = .ok out state' ∧
      ∀ o ∈ out, ∀ op ∈ o.operands, op.virtual? = none := by
  have hroom : Allocation.WithinScratch code := by
    intro i hi file
    cases file with
    | gpr => exact hgpr i hi
    | fpr => exact hfpr i hi
  obtain ⟨out, state', hrun, _⟩ : (allocate pool code).Succeeds context state _ :=
    allocate_draws (Catalog.builtin_stocked hcatalog) hintervals hroom
  refine ⟨out, state', hrun, ?_⟩
  obtain ⟨a, _, _, _, happly⟩ := allocate_ok hrun
  exact Allocation.apply_virtual (Catalog.builtin_complete hcatalog) happly

/-- One instruction reads as many ids as there are scratch registers, one of them twice. -/
def gatheringCode : List Instruction :=
  let made (id : Id) (file : RegisterFile) : Instruction :=
    { id, name := "made", category := .pseudo,
      destination := some { slot := .rd, type := .register file, value := .virtual id } }
  let read (slot : Slot) (id : Id) (file : RegisterFile) : Operand :=
    { slot, type := .register file, value := .virtual id }
  [made "a" .gpr, made "b" .gpr, made "x" .fpr, made "y" .fpr, made "z" .fpr,
   { id := "gather", name := "gather", category := .arithmetic,
     sources := [read .rs1 "a" .gpr, read .rs2 "b" .gpr, read .rs1 "x" .fpr, read .rs2 "y" .fpr,
       read .rs3 "z" .fpr, read .rs1 "a" .gpr] }]

theorem allocate_gatheringCode_within_scratch : ∃ out state',
    allocate { gprs := 0, fprs := 0 } gatheringCode (standardContext .rv64)
      { random := .ofSeed 0 } = .ok out state' ∧ ∀ o ∈ out, ∀ op ∈ o.operands, op.virtual? = none :=
  allocate_within_scratch Catalog.builtin_rv64 rfl (by decide) (by decide)

end PlanLowering
