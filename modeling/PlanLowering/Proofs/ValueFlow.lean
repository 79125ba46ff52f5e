import PlanLowering.Proofs.Interval
import PlanLowering.Proofs.Reloads

/-!
# Allocation keeps the flow of values

In front of each instruction every live id has its value where the allocation keeps it. The
frame is dealt with at the end, since it shifts the stack pointer for the whole body at once.
-/

namespace PlanLowering

variable {xlen : Xlen} {σ : Type} {p : Processor xlen σ} {a : Allocation} {spill : SpillCode}
variable {pool : RegisterPool} {files : Id → RegisterFile} {code : List Instruction}
variable {s : Snapshot xlen σ} {m m' : Machine xlen σ} {k : Nat} {v : xlen.Value}
variable {i : Instruction} {piece : Piece} {r : Register} {id : Id}

theorem RegisterPool.not_scratch {file : RegisterFile} (h : r ∈ pool.registers file) :
    ¬ r.IsScratch ∧ r ≠ .sp := by
  have hmem := mem_allocatable h
  have hfile := file_of_mem h
  simp only [RegisterFile.allocatable, List.mem_filter, decide_eq_true_eq] at hmem
  refine ⟨?_, ?_⟩
  · rw [Register.IsScratch, hfile]
    exact hmem.2.2
  · rintro rfl
    exact hmem.2.1 rfl

namespace Allocation

/-- An allocation of `code` on a processor that runs its spill code. -/
structure Serves (p : Processor xlen σ) (files : Id → RegisterFile) (pool : RegisterPool)
    (spill : SpillCode) (code : List Instruction) (a : Allocation) : Prop where
  declared : spill.Declared xlen
  sound : a.Sound pool
  described : LiveInterval.Describes p.recorded code a.intervals
  filed : ∀ i ∈ code, i.InFiles files
  spares_sp : ∀ i ∈ code, .sp ∉ i.clobbers
  wired : ∀ i ∈ code, ∀ r, i.target? = some r →
    r ≠ .sp ∧ (r ∈ i.clobbers ∨ r ∉ pool.registers r.file)

/-- The place of an id holds a value: a register all of it, and a slot one word. -/
inductive Keeps (files : Id → RegisterFile) (a : Allocation) (spill : SpillCode)
    (m : Machine xlen σ) (id : Id) (v : xlen.Value) : Prop where
  | register {r : Register} (hr : a.registers.get? id = some r) (hvalue : m.value r = v)
  | slot {n : Nat} (hfile : v.file = files id) (hnone : a.registers.get? id = none)
      (hn : a.slots.get? id = some n) (hword : spill.word m n = xlen.low v.bits)

/-- What the value of an id is read as, which was in a slot in the meantime if the id has no
register. -/
def readAs (a : Allocation) (id : Id) (v : xlen.Value) : xlen.Value :=
  match a.registers.get? id with
  | some _ => v
  | none => v.throughSlot

theorem readAs_register (h : a.registers.get? id = some r) : a.readAs id v = v := by
  simp [readAs, h]

theorem readAs_slot (h : a.registers.get? id = none) : a.readAs id v = v.throughSlot := by
  simp [readAs, h]

theorem Sound.register {j : LiveInterval} (h : a.Sound pool) (hj : j ∈ a.intervals)
    (hr : a.registers.get? j.id = some r) :
    r ∈ pool.registers j.file ∧ r.file = j.file ∧ r ∉ j.excluded ∧ ¬ r.IsScratch ∧ r ≠ .sp := by
  obtain ⟨hpool, hexcluded⟩ := RegisterPool.mem_candidates.1 (h.candidate j hj r hr)
  exact ⟨hpool, RegisterPool.file_of_mem hpool, hexcluded, RegisterPool.not_scratch hpool⟩

theorem Replaces.destroyed (h : a.Replaces p files spill i piece) :
    p.destroyed piece.instruction = p.destroyed i := by
  rw [h.placed.same]
  rfl

section Step

variable (h : a.Serves p files pool spill code) (hi : code[k]? = some i)
variable (hpiece : a.Replaces p files spill i piece)
include h hi hpiece

theorem lands : a.Lands files spill i piece :=
  hpiece.lands (h.filed i (List.mem_of_getElem? hi))

theorem target_ne_sp : piece.instruction.target? ≠ some .sp := by
  cases lands h hi hpiece with
  | fixed _ htarget _ =>
    rw [htarget]
    intro hsp
    exact (h.wired i (List.mem_of_getElem? hi) .sp hsp).1 rfl
  | register hdef hr htarget _ =>
    obtain ⟨j, hj, rfl, _⟩ := h.described.defined k i _ hi hdef
    rw [htarget, Ne, Option.some.injEq]
    exact (h.sound.register hj hr).2.2.2.2
  | slot _ _ _ hr htarget _ _ =>
    rw [htarget, Ne, Option.some.injEq]
    exact (RegisterFile.isScratch_of_mem hr).ne_sp

theorem sp_kept : (p.exec m piece.instruction).registers .sp = m.registers .sp := by
  refine Processor.exec_register (target_ne_sp h hi hpiece) ?_
  rw [hpiece.destroyed]
  exact Processor.sp_not_destroyed (h.spares_sp i (List.mem_of_getElem? hi))

theorem not_destroyed {j : LiveInterval} (hj : j ∈ a.intervals) (hstraddles : j.straddles k)
    (hr : a.registers.get? j.id = some r) : r ∉ p.destroyed piece.instruction := by
  obtain ⟨_, hfile, hexcluded, _⟩ := h.sound.register hj hr
  obtain ⟨destroyed, hdestroyed⟩ := h.described.known i (List.mem_of_getElem? hi)
  rw [hpiece.destroyed]
  intro hmem
  have hknown := Processor.destroyed_subset hdestroyed hmem
  exact hexcluded (h.described.shunned j hj k i hi hstraddles destroyed hdestroyed r hknown hfile)

theorem target_ne {j : LiveInterval} (hj : j ∈ a.intervals) (hstraddles : j.straddles k)
    (hdef : ¬ i.Defines j.id) (hr : a.registers.get? j.id = some r) :
    piece.instruction.target? ≠ some r := by
  obtain ⟨hpool, hfile, hexcluded, hscratch, _⟩ := h.sound.register hj hr
  simp only [LiveInterval.straddles, Bool.and_eq_true, decide_eq_true_eq] at hstraddles
  cases lands h hi hpiece with
  | fixed _ htarget _ =>
    rw [htarget]
    intro hwired
    rcases (h.wired i (List.mem_of_getElem? hi) r hwired).2 with hclobber | hfree
    · obtain ⟨destroyed, hdestroyed⟩ := h.described.known i (List.mem_of_getElem? hi)
      refine hexcluded (h.described.shunned j hj k i hi (by simpa [LiveInterval.straddles])
        destroyed hdestroyed r ?_ hfile)
      exact LiveInterval.clobbers_subset hdestroyed hclobber
    · exact hfree (hfile ▸ hpool)
  | register hdef' hr' htarget _ =>
    obtain ⟨j', hj', rfl, hstart, hfinish⟩ := h.described.defined k i _ hi hdef'
    rw [htarget, Ne, Option.some.injEq]
    rintro rfl
    have hne : j' ≠ j := by
      rintro rfl
      exact hdef hdef'
    rcases h.sound.disjoint j' hj' j hj hne _ hr' hr with hlt | hlt <;> omega
  | slot _ _ _ hr' htarget _ _ =>
    rw [htarget, Ne, Option.some.injEq]
    rintro rfl
    exact hscratch (RegisterFile.isScratch_of_mem hr')

/-- A value that lives on is still in its place after the instruction and its saves. -/
theorem Keeps.exec {j : LiveInterval} (hj : j ∈ a.intervals) (hstraddles : j.straddles k)
    (hdef : ¬ i.Defines j.id)
    (hspares : ∀ n < a.slots.size,
      Memory.load (p.exec m piece.instruction).memory (spill.cell m n) = spill.word m n)
    (hkeeps : a.Keeps files spill m j.id v) :
    a.Keeps files spill (piece.after.foldl p.exec (p.exec m piece.instruction)) j.id v := by
  have hlands := lands h hi hpiece
  cases hkeeps with
  | register hr hvalue =>
    refine .register hr (.trans (Machine.value_congr ?_) hvalue)
    rw [hlands.registers h.declared]
    exact Processor.exec_register (target_ne h hi hpiece hj hstraddles hdef hr)
      (not_destroyed h hi hpiece hj hstraddles hr)
  | @slot n hfile hnone hn hword =>
    refine .slot hfile hnone hn (.trans ?_ hword)
    have hown : spill.word (p.exec m piece.instruction) n = spill.word m n := by
      rw [SpillCode.word, SpillCode.cell_congr (sp_kept h hi hpiece)]
      exact hspares n ((h.sound.numbered n).1 ⟨j.id, hn⟩)
    cases hlands with
    | fixed _ _ hafter => rw [hafter]; exact hown
    | register _ _ _ hafter => rw [hafter]; exact hown
    | @slot id r n' o hdef' _ hn' _ _ ho hafter =>
      obtain ⟨_, _, hregisters, hmemory⟩ :=
        SpillCode.exec_save (m := p.exec m piece.instruction) h.declared ho
      have hne : n ≠ n' := by
        rintro rfl
        exact hdef ((h.sound.unshared _ _ _ hn' hn) ▸ hdef')
      rw [hafter, List.foldl_cons, List.foldl_nil,
        SpillCode.word_store h.declared (congrFun hregisters .sp) hmemory, if_neg hne, hown]

theorem keeps_defined (hdef : i.Defines id) :
    ∃ r, piece.instruction.target? = some r ∧
      a.Keeps files spill (piece.after.foldl p.exec (p.exec m piece.instruction)) id
        ((p.exec m piece.instruction).value r) := by
  cases lands h hi hpiece with
  | fixed hnone _ _ => rw [Instruction.Defines, hnone] at hdef; cases hdef
  | @register id' r hdef' hr htarget hafter =>
    obtain rfl : id' = id := Option.some.inj (hdef'.symm.trans hdef)
    exact ⟨r, htarget, .register hr (by rw [hafter]; rfl)⟩
  | @slot id' r n o hdef' hnone hn hr htarget ho hafter =>
    obtain rfl : id' = id := Option.some.inj (hdef'.symm.trans hdef)
    obtain ⟨_, _, hregisters, hmemory⟩ :=
      SpillCode.exec_save (m := p.exec m piece.instruction) h.declared ho
    refine ⟨r, htarget, .slot (RegisterFile.file_of_scratch hr) hnone hn ?_⟩
    rw [hafter, List.foldl_cons, List.foldl_nil,
      SpillCode.word_store h.declared (congrFun hregisters .sp) hmemory, if_pos rfl]
    rfl

end Step
end Allocation

namespace Snapshot

/-- In front of instruction `k` the place of each live id holds the value of the id. -/
def Holds (s : Snapshot xlen σ) (files : Id → RegisterFile) (a : Allocation) (spill : SpillCode)
    (k : Nat) : Prop :=
  ∀ j ∈ a.intervals, j.start < k → k ≤ j.finish →
    ∃ v, s.values j.id = some v ∧ a.Keeps files spill s.machine j.id v

theorem Holds.initial (s : Snapshot xlen σ) : s.Holds files a spill 0 := by
  intro j _ hstart
  omega

variable (h : a.Serves p files pool spill code)
include h

theorem Holds.reloads {reloads : List Instruction}
    (hmade : ∀ o ∈ reloads, ∃ r slot id, spill.reload r slot id = .ok o ∧ r.IsScratch)
    (hs : s.Holds files a spill k) :
    (Snapshot.mk (reloads.foldl p.exec s.machine) s.values).Holds files a spill k := by
  intro j hj hstart hfinish
  obtain ⟨v, hv, hkeeps⟩ := hs j hj hstart hfinish
  obtain ⟨hmemory, hkept⟩ := Reloads.foldl_reloads h.declared hmade s.machine
  refine ⟨v, hv, ?_⟩
  cases hkeeps with
  | register hr hvalue =>
    exact .register hr
      ((Machine.value_congr (hkept _ (h.sound.register hj hr).2.2.2.1)).trans hvalue)
  | slot hfile hnone hn hword =>
    have hsp : ¬ Register.IsScratch .sp := fun hsp => hsp.ne_sp rfl
    refine .slot hfile hnone hn (.trans ?_ hword)
    rw [SpillCode.word, SpillCode.cell_congr (hkept _ hsp), hmemory, SpillCode.word]

theorem Holds.reads (hi : code[k]? = some i) (hpiece : a.Replaces p files spill i piece)
    (hs : s.Holds files a spill k) :
    (Snapshot.mk (piece.before.foldl p.exec s.machine) s.values).Reads a.readAs
      ⟨some i, piece.instruction⟩ := by
  obtain ⟨reloads, hfills, hrewrites⟩ := hpiece
  have hsources := hrewrites.sources
  rintro _ ⟨⟩ _
  have hread : ∀ op ∈ i.sources, ∀ id, op.virtual? = some id → ∃ j ∈ a.intervals, j.id = id ∧
      ∃ v, s.values id = some v ∧ a.Keeps files spill s.machine id v := by
    intro op hop id hid
    obtain ⟨j, hj, rfl, hstart, hfinish⟩ :=
      h.described.read k i hi id (List.mem_filterMap.2 ⟨op, hop, hid⟩)
    exact ⟨j, hj, rfl, hs j hj hstart hfinish⟩
  rw [hrewrites.before]
  change List.Forall₂ _ i.sources piece.instruction.sources
  generalize i.sources = sources at hsources hread ⊢
  generalize piece.instruction.sources = placed at hsources ⊢
  induction hsources with
  | nil => exact .nil
  | @cons op op' _ _ hop _ ih =>
    refine .cons ?_ (ih fun op hop => hread op (List.mem_cons_of_mem _ hop))
    intro id hid
    obtain ⟨j, hj, rfl, v, hv, hkeeps⟩ := hread op List.mem_cons_self id hid
    simp only [Allocation.Sourced, hid] at hop
    obtain ⟨r, rfl, hr | hheld⟩ := hop
    · obtain ⟨_, _, _, hscratch, hsp⟩ := h.sound.register hj hr
      obtain ⟨hr', hvalue⟩ | ⟨_, hnone, _, _⟩ := hkeeps
      · obtain rfl := Option.some.inj (hr'.symm.trans hr)
        refine ⟨_, v, rfl, hsp, hv, ?_⟩
        rw [Allocation.readAs_register hr, ← hvalue]
        exact Machine.value_congr
          ((Reloads.foldl_reloads h.declared hfills.made s.machine).2 _ hscratch)
      · rw [hnone] at hr
        cases hr
    · obtain ⟨hscratch, hnone, n, hn, hfilled⟩ := hfills.held _ r hheld
      obtain ⟨hr, _⟩ | ⟨hfile, _, hn', hword⟩ := hkeeps
      · rw [hnone] at hr
        cases hr
      · obtain rfl := Option.some.inj (hn'.symm.trans hn)
        refine ⟨r, v, rfl, (RegisterFile.isScratch_of_mem hscratch).ne_sp, hv, ?_⟩
        have hsame : r.file = v.file := (RegisterFile.file_of_scratch hscratch).trans hfile.symm
        rw [Allocation.readAs_slot hnone, ← Xlen.fill_low, Machine.value, hfilled, hword, hsame]

theorem Holds.step (hi : code[k]? = some i) (hpiece : a.Replaces p files spill i piece)
    (hs : s.Holds files a spill k)
    (hspares : s.Spares p spill a.slots.size ⟨some i, piece.instruction⟩) :
    (Snapshot.mk (piece.after.foldl p.exec (s.step p ⟨some i, piece.instruction⟩).machine)
      (s.step p ⟨some i, piece.instruction⟩).values).Holds files a spill (k + 1) := by
  intro j hj hstart hfinish
  by_cases hdef : i.Defines j.id
  · obtain ⟨r, htarget, hkeeps⟩ :=
      Allocation.keeps_defined h hi hpiece (m := s.machine) hdef
    have hline : Line.definition? ⟨some i, piece.instruction⟩ = some (j.id, r) := by
      simp only [Instruction.Defines] at hdef
      simp [Line.definition?, hdef, htarget]
    rw [step_define hline]
    exact ⟨_, Function.update_self _ _ _, hkeeps⟩
  · have hopened : j.start ≠ k := by
      rintro rfl
      obtain ⟨i', hi', hdef'⟩ := h.described.opened j hj
      rw [hi, Option.some.injEq] at hi'
      exact hdef (hi' ▸ hdef'.defines)
    have hstraddles : j.straddles k := by
      simp only [LiveInterval.straddles, Bool.and_eq_true, decide_eq_true_eq]
      omega
    have hvalues : (s.step p ⟨some i, piece.instruction⟩).values j.id = s.values j.id := by
      cases hline : Line.definition? ⟨some i, piece.instruction⟩ with
      | none => rw [step_quiet hline]
      | some found =>
        obtain ⟨id, r⟩ := found
        have hid : i.Defines id := by
          simp only [Line.definition?, Option.bind_eq_bind, Option.bind_some,
            Option.bind_eq_some_iff] at hline
          obtain ⟨id', hid', r', _, hpair⟩ := hline
          cases hpair
          exact hid'
        have hne : j.id ≠ id := by
          rintro rfl
          exact hdef hid
        rw [step_define hline]
        exact Function.update_of_ne hne _ _
    obtain ⟨v, hv, hkeeps⟩ := hs j hj (by omega) (by omega)
    exact ⟨v, hvalues.trans hv, hkeeps.exec h hi hpiece hj hstraddles hdef hspares⟩

end Snapshot
end PlanLowering
