import PlanLowering.Proofs.DefinedSources
import PlanLowering.Proofs.ScratchBudget

/-!
# Allocation of ordinary code

Ordinary code is made of catalog instructions and reads nothing before it is defined. Its allocation
succeeds however many values there are: a value on the stack needs a scratch register only around
one instruction, and no template has more register sources than its file has scratch registers.
-/

namespace PlanLowering

/-- Code from the catalog in which every source is defined further up. -/
structure Ordinary (catalog : Catalog) (code : List Instruction) : Prop where
  native : ∀ i ∈ code, i.form = .native
  shaped : ∀ i ∈ code, ∃ t ∈ catalog.templates, i.Shaped t
  defined : DefinedFrom (fun _ => False) code

variable {context : Context} {s : State} {pages : Id → Prop} {code : List Instruction}
variable {i : Instruction} {file : RegisterFile} {pool : RegisterPool}

def readsFrom (file : RegisterFile) (ops : List Operand) : Nat :=
  (ops.filter (·.type.file? = some file)).length

theorem idsRead_card (file : RegisterFile) (ops : List Operand) :
    (idsRead file ops).toFinset.card ≤ readsFrom file ops :=
  (List.toFinset_card_le _).trans (List.length_filterMap_le _ _)

/-- No instruction of the catalog reads more than the scratch registers can hold. -/
theorem Catalog.Stocked.room {xlen : Xlen} {catalog : Catalog} {t : Template}
    (h : catalog.Stocked xlen) (ht : t ∈ catalog.templates) (hi : i.Shaped t)
    (file : RegisterFile) : readsFrom file i.sources ≤ file.scratch.length := by
  have hfits := h.fits t ht
  simp only [Template.fits, Bool.and_eq_true, List.all_eq_true, decide_eq_true_eq] at hfits
  have hcount : readsFrom file i.sources =
      (t.sources.filter (·.2 = .register file)).length := by
    have hfile : ∀ type : OperandType, type.file? = some file ↔ type = .register file := by
      intro type
      cases type <;> simp [OperandType.file?]
    rw [← hi.sources, List.filter_map, List.length_map, readsFrom]
    simp only [hfile, Function.comp_def]
  rw [hcount]
  exact hfits.2 file (by cases file <;> simp)

open Lower

theorem allocate_succeeds (hstock : context.catalog.Stocked context.environment.xlen)
    (hcode : Ordinary context.catalog code) (h : s.Offers pages) :
    (allocate pool code).Succeeds context s fun _ s' => s'.Offers pages := by
  cases hintervals : LiveInterval.ofCode s.clobbers code with
  | error e =>
    obtain ⟨i, hi, target, hcall, _⟩ := LiveInterval.ofCode_error hcode.defined hintervals
    rw [hcode.native i hi] at hcall
    cases hcall
  | ok intervals =>
    have hroom : Allocation.WithinScratch code := by
      intro i hi file
      obtain ⟨t, ht, hshaped⟩ := hcode.shaped i hi
      exact (idsRead_card file i.sources).trans (hstock.room ht hshaped file)
    refine (allocate_draws hstock hintervals hroom).mono ?_
    rintro _ _ ⟨random, rfl⟩
    exact h.random random

end PlanLowering
