import Mathlib.Data.List.Nodup
import PlanLowering.Proofs.Flow
import PlanLowering.IdMap
import PlanLowering.Instruction.Assembly

/-!
# Operands and their registers

What replaces the operands of one instruction, and what the reloads in front of it leave in the
scratch registers. No two reloads of one instruction fill the same register.
-/

namespace PlanLowering

def Register.IsScratch (r : Register) : Prop := r ∈ r.file.scratch

theorem RegisterFile.file_of_scratch {file : RegisterFile} {r : Register} (h : r ∈ file.scratch) :
    r.file = file := by
  revert r
  cases file <;> decide

theorem RegisterFile.isScratch_of_mem {file : RegisterFile} {r : Register}
    (h : r ∈ file.scratch) : r.IsScratch := by
  rw [Register.IsScratch, file_of_scratch h]
  exact h

theorem RegisterFile.nodup_scratch (file : RegisterFile) : file.scratch.Nodup := by
  cases file <;> decide

theorem RegisterFile.resultScratch_mem (file : RegisterFile) :
    file.resultScratch ∈ file.scratch := by
  cases file <;> decide

theorem Register.IsScratch.role {r : Register} (h : r.IsScratch) : r.role ≠ .special := by
  have hroles : ∀ file : RegisterFile, ∀ r ∈ file.scratch, r.role ≠ .special := by
    rintro (_ | _) <;> decide
  exact hroles r.file r h

theorem Register.IsScratch.ne_sp {r : Register} (h : r.IsScratch) : r ≠ .sp := by
  rintro rfl
  exact h.role (by decide)

/-- Every occurrence of an id is in the file that belongs to the id. -/
def Instruction.InFiles (files : Id → RegisterFile) (i : Instruction) : Prop :=
  ∀ op ∈ i.operands, ∀ id, op.virtual? = some id → op.type.file? = some (files id)

namespace Reloads

variable {xlen : Xlen} {σ : Type} {a : Allocation} {spill : SpillCode} {p : Processor xlen σ}
variable {reloads reloads' : Reloads} {consumer id : Id} {file : RegisterFile} {slot : Nat}
variable {r : Register} {files : Id → RegisterFile}

def taken (reloads : Reloads) (file : RegisterFile) : List Register :=
  (reloads.held.entries.filter fun entry => entry.2.file = file).map Prod.snd

/-- The held ids lie on the stack, and the reloads fill their registers from there. -/
structure Fills (p : Processor xlen σ) (files : Id → RegisterFile) (a : Allocation)
    (spill : SpillCode) (reloads : Reloads) : Prop where
  taken : ∀ file, reloads.taken file = file.scratch.take (reloads.taken file).length
  made : ∀ o ∈ reloads.code, ∃ r slot id, spill.reload r slot id = .ok o ∧ r.IsScratch
  held : ∀ id r, reloads.held.get? id = some r → r ∈ (files id).scratch ∧
    a.registers.get? id = none ∧ ∃ n, a.slots.get? id = some n ∧
      ∀ m, (reloads.code.foldl p.exec m).registers r = xlen.fill r.file (spill.word m n)

theorem Fills.initial : Fills p files a spill {} := by
  constructor <;> simp [Reloads.taken, show (({} : IdMap Register).entries) = [] from rfl]

theorem foldl_reloads (hspill : spill.Declared xlen) {code : List Instruction}
    (hcode : ∀ o ∈ code, ∃ r slot id, spill.reload r slot id = .ok o ∧ r.IsScratch)
    (m : Machine xlen σ) : (code.foldl p.exec m).memory = m.memory ∧
      ∀ s : Register, ¬ s.IsScratch → (code.foldl p.exec m).registers s = m.registers s := by
  induction code generalizing m with
  | nil => exact ⟨rfl, fun _ _ => rfl⟩
  | cons o rest ih =>
    obtain ⟨r, slot, id, ho, hr⟩ := hcode o List.mem_cons_self
    obtain ⟨_, _, hregisters, hmemory⟩ := SpillCode.exec_reload (m := m) hspill ho
    obtain ⟨ihmemory, ihregisters⟩ :=
      ih (fun o ho => hcode o (List.mem_cons_of_mem _ ho)) (p.exec m o)
    refine ⟨ihmemory.trans hmemory, fun s hs => ?_⟩
    have hne : s ≠ r := by
      rintro rfl
      exact hs hr
    rw [List.foldl_cons, ihregisters s hs, hregisters, Function.update_of_ne hne]

theorem mem_taken : r ∈ reloads.taken file ↔
    r.file = file ∧ ∃ id, reloads.held.get? id = some r := by
  simp only [taken, List.mem_map, List.mem_filter, decide_eq_true_eq]
  constructor
  · rintro ⟨⟨id, s⟩, ⟨hentry, hfile⟩, rfl⟩
    exact ⟨hfile, id, IdMap.mem_entries.1 hentry⟩
  · rintro ⟨hfile, id, hid⟩
    exact ⟨(id, r), ⟨IdMap.mem_entries.2 hid, hfile⟩, rfl⟩

theorem next_not_taken {l : List Register} {k : Nat} (hnodup : l.Nodup) (hnext : l[k]? = some r) :
    r ∉ l.take k := by
  intro hmem
  obtain ⟨hk, rfl⟩ := List.getElem?_eq_some_iff.1 hnext
  obtain ⟨j, hj, hjk⟩ := List.mem_take_iff_getElem.1 hmem
  have hsame := hnodup.getElem_inj_iff.1 hjk
  omega

theorem taken_insert (h : reloads.held.get? id = none) (code : List Instruction) :
    Reloads.taken { held := reloads.held.insert id r, code } file =
      reloads.taken file ++ if r.file = file then [r] else [] := by
  by_cases hfile : r.file = file <;> simp [taken, IdMap.entries_insert h, hfile]

theorem foldl_reload (hspill : spill.Declared xlen) (hfills : reloads.Fills p files a spill)
    {o : Instruction} (ho : spill.reload r slot id = .ok o) (m : Machine xlen σ) :
    ((reloads.code ++ [o]).foldl p.exec m).registers =
      Function.update (reloads.code.foldl p.exec m).registers r
        (xlen.fill r.file (spill.word m slot)) := by
  obtain ⟨hmemory, hkeeps⟩ := foldl_reloads hspill hfills.made m
  obtain ⟨_, _, hregisters, _⟩ :=
    SpillCode.exec_reload (m := reloads.code.foldl p.exec m) hspill ho
  have hsp : ¬ Register.IsScratch .sp := fun hsp => hsp.ne_sp rfl
  rw [List.foldl_append, List.foldl_cons, List.foldl_nil, hregisters, SpillCode.word,
    SpillCode.cell_congr (hkeeps _ hsp), hmemory, SpillCode.word]

/-- One more id is held, in the next scratch register of its file. -/
theorem Fills.insert (hspill : spill.Declared xlen) (hfills : reloads.Fills p files a spill)
    (hnew : reloads.held.get? id = none) (hregister : a.registers.get? id = none)
    (hslot : a.slots.get? id = some slot)
    (hnext : (files id).scratch[(reloads.taken (files id)).length]? = some r)
    {o : Instruction} (ho : spill.reload r slot id = .ok o) :
    Fills p files a spill { held := reloads.held.insert id r, code := reloads.code ++ [o] } := by
  have hmem : r ∈ (files id).scratch := List.mem_of_getElem? hnext
  have hfile := RegisterFile.file_of_scratch hmem
  constructor
  case taken =>
    intro other
    rw [taken_insert hnew]
    by_cases hother : r.file = other
    · obtain rfl : files id = other := hfile.symm.trans hother
      rw [if_pos hother, List.length_append, List.length_singleton, List.take_add_one, hnext,
        ← hfills.taken (files id)]
      rfl
    · rw [if_neg hother, List.append_nil]
      exact hfills.taken other
  case made =>
    intro o' ho'
    rcases List.mem_append.1 ho' with ho' | ho'
    · exact hfills.made o' ho'
    · rw [List.mem_singleton] at ho'
      exact ⟨r, slot, id, ho' ▸ ho, RegisterFile.isScratch_of_mem hmem⟩
  case held =>
    intro key s hs
    by_cases hkey : key = id
    · subst hkey
      simp only [IdMap.get?_insert, if_pos, Option.some.injEq] at hs
      subst hs
      refine ⟨hmem, hregister, slot, hslot, fun m => ?_⟩
      rw [foldl_reload hspill hfills ho, Function.update_self]
    · simp only [IdMap.get?_insert, if_neg hkey] at hs
      obtain ⟨hscratch, hsregister, n, hn, hfilled⟩ := hfills.held key s hs
      refine ⟨hscratch, hsregister, n, hn, fun m => ?_⟩
      have hne : s ≠ r := by
        rintro rfl
        have htaken : s ∈ reloads.taken (files id) := mem_taken.2 ⟨hfile, key, hs⟩
        rw [hfills.taken (files id)] at htaken
        exact next_not_taken (files id).nodup_scratch hnext htaken
      rw [foldl_reload hspill hfills ho, Function.update_of_ne hne, hfilled]

theorem fills_preserved (hspill : spill.Declared xlen) {ops : List Operand}
    (hops : ∀ op ∈ ops, ∀ id, op.virtual? = some id → op.type.file? = some (files id)) :
    Preserved a spill ops fun reloads => reloads.Fills p files a spill := by
  intro op hop consumer file id slot reloads r reloads' hid hfile hregister hslot hfills h
  obtain rfl : file = files id := Option.some.inj (hfile.symm.trans (hops op hop id hid))
  rcases reload_cases h with ⟨_, rfl⟩ | ⟨hnew, hnext, o, ho, rfl⟩
  · exact hfills
  · have hlength : (reloads.held.entries.filter fun entry => entry.2.file = files id).length =
        (reloads.taken (files id)).length := by
      simp [Reloads.taken]
    rw [hlength] at hnext
    exact hfills.insert hspill hnew hregister hslot hnext ho

end Reloads

namespace Allocation

variable {xlen : Xlen} {σ : Type} {a : Allocation} {spill : SpillCode} {p : Processor xlen σ}
variable {i : Instruction} {piece : Piece} {files : Id → RegisterFile}

def Replaces (p : Processor xlen σ) (files : Id → RegisterFile) (a : Allocation)
    (spill : SpillCode) (i : Instruction) (piece : Piece) : Prop :=
  ∃ reloads : Reloads, reloads.Fills p files a spill ∧ a.Rewrites spill reloads i piece

theorem replaces_of_run (hspill : spill.Declared xlen) (hfiles : i.InFiles files)
    (h : a.replaceOperands spill i = .ok piece) : a.Replaces p files spill i piece :=
  replaceOperands_ok (Reloads.fills_preserved hspill fun op hop =>
    hfiles op (List.mem_append_right _ hop)) .initial h

theorem Replaces.placed (h : a.Replaces p files spill i piece) : i.Placed piece.instruction := by
  obtain ⟨_, _, hrewrites⟩ := h
  exact hrewrites.placed

theorem Replaces.reloads (h : a.Replaces p files spill i piece) :
    ∀ o ∈ piece.before, ∃ r slot id, spill.reload r slot id = .ok o ∧ r.IsScratch := by
  obtain ⟨reloads, hfills, hrewrites⟩ := h
  exact fun o ho => hfills.made o (hrewrites.before ▸ ho)

theorem Replaces.makes (h : a.Replaces p files spill i piece) :
    ∀ o ∈ piece.before ++ piece.after, spill.Makes o := by
  obtain ⟨reloads, hfills, hrewrites⟩ := h
  refine hrewrites.makes fun o ho => ?_
  obtain ⟨r, slot, id, ho, _⟩ := hfills.made o ho
  exact .reload ho

inductive Lands (files : Id → RegisterFile) (a : Allocation) (spill : SpillCode) (i : Instruction)
    (piece : Piece) : Prop where
  | fixed (hnone : i.virtualDestination? = none) (htarget : piece.instruction.target? = i.target?)
      (hafter : piece.after = [])
  | register {id : Id} {r : Register} (hdef : i.Defines id) (hr : a.registers.get? id = some r)
      (htarget : piece.instruction.target? = some r) (hafter : piece.after = [])
  | slot {id : Id} {r : Register} {n : Nat} {o : Instruction} (hdef : i.Defines id)
      (hnone : a.registers.get? id = none) (hn : a.slots.get? id = some n)
      (hr : r ∈ (files id).scratch)
      (htarget : piece.instruction.target? = some r) (ho : spill.save r n id = .ok o)
      (hafter : piece.after = [o])

theorem Replaces.lands (hfiles : i.InFiles files) (h : a.Replaces p files spill i piece) :
    a.Lands files spill i piece := by
  obtain ⟨reloads, hfills, hrewrites⟩ := h
  rcases hrewrites.destination with ⟨hdest, hdest', hafter⟩ | ⟨op, op', hdest, hdest', htargeted⟩
  · exact .fixed (by simp [Instruction.virtualDestination?, hdest])
      (by simp [Instruction.target?, hdest, hdest']) hafter
  · have htarget : piece.instruction.target? = op'.register? := by
      simp [Instruction.target?, hdest']
    have hvirtual : i.virtualDestination? = op.virtual? := by
      simp [Instruction.virtualDestination?, hdest]
    generalize hafter : piece.after = after at htargeted
    cases htargeted with
    | fixed hop =>
      refine .fixed (hvirtual.trans hop) ?_ hafter
      rw [htarget]
      simp [Instruction.target?, hdest]
    | register hop hr => exact .register (hvirtual.trans hop) hr htarget hafter
    | @slot id file r n o hop hfile hnone hn hr ho =>
      have hmem : op ∈ i.operands := List.mem_append_left _ (Option.mem_toList.2 hdest)
      obtain rfl : file = files id := Option.some.inj (hfile.symm.trans (hfiles op hmem id hop))
      have hscratch : r ∈ (files id).scratch := by
        rw [hr]
        cases hheld : reloads.held.get? id with
        | none => exact (files id).resultScratch_mem
        | some s => exact (hfills.held id s hheld).1
      exact .slot (hvirtual.trans hop) hnone hn hscratch htarget ho hafter

theorem Lands.registers (h : a.Lands files spill i piece) (hspill : spill.Declared xlen)
    (m : Machine xlen σ) : (piece.after.foldl p.exec m).registers = m.registers := by
  cases h with
  | fixed _ _ hafter => rw [hafter]; rfl
  | register _ _ _ hafter => rw [hafter]; rfl
  | slot _ _ _ _ _ ho hafter =>
    rw [hafter]
    exact (SpillCode.exec_save hspill ho).2.2.1

end Allocation
end PlanLowering
