import Mathlib.Data.List.TakeWhile
import PlanLowering.Proofs.FunctionCode

/-!
# The return address of a function

A call writes the return address, and no code of a function keeps a copy. A function that calls
before it returns has lost its own.
-/

namespace PlanLowering

/-- What runs from the entry up to the first return, calls being one step each. -/
def Routine.untilReturn (r : Routine) : List Instruction :=
  r.instructions.takeWhile fun i => i.name ≠ "ret"

/-- At the first return the return address is the one that the routine was entered with. -/
def Routine.KeepsReturnAddress (r : Routine) (xlen : Xlen) : Prop :=
  ∀ (σ : Type) (p : Processor xlen σ) (m : Machine xlen σ),
    (r.untilReturn.foldl p.exec m).registers .ra = m.registers .ra

variable {xlen : Xlen} {σ : Type} {p : Processor xlen σ} {m : Machine xlen σ} {context : Context}
variable {spill : SpillCode} {a : Allocation} {name : Id} {rest out code : List Instruction}
variable {o : Instruction}

/-- All that is in a function: conventional code, accesses to slots and moves of the stack pointer. -/
theorem Allocation.Lays.mem (h : a.Lays spill name rest out) (hname : FreshIds.NamesPage name)
    (ho : o ∈ out) :
    o.Conventional ∨ a.Reaches spill o ∨ ∃ bytes id, spill.moveStack bytes id = .ok o := by
  have hlabel : (Instruction.label name name false).Conventional :=
    Instruction.conventional_label (.inr hname)
  rcases h.framed with ⟨_, rfl⟩ | ⟨enter, leave, henter, hleave, rfl⟩
  · rcases List.mem_cons.1 ho with rfl | ho
    · exact .inl hlabel
    · exact (h.members o ho).imp_right .inl
  · simp only [List.mem_cons] at ho
    rcases ho with rfl | rfl | ho
    · exact .inl hlabel
    · exact .inr (.inr ⟨_, _, henter⟩)
    · rcases mem_closed ho with ho | rfl
      · exact (h.members o ho).imp_right .inl
      · exact .inr (.inr ⟨_, _, hleave⟩)

theorem Allocation.Lays.conventional_of_call (h : a.Lays spill name rest out)
    (hname : FreshIds.NamesPage name) (hspill : SpillCode.ofContext context = .ok spill)
    (ho : o ∈ out) {f : Id} (hf : o.form = .call f) : o.Conventional := by
  have hmade : ¬ spill.Makes o := by
    intro hmade
    rw [hmade.form hspill] at hf
    cases hf
  rcases h.mem hname ho with ho | ho | ⟨_, _, ho⟩
  · exact ho
  · exact absurd ho.makes hmade
  · exact absurd (.moveStack ho) hmade

/-- Spill code leaves all registers with a role of their own alone, but for the stack pointer. -/
theorem Allocation.Lays.keeps_ra (h : a.Lays spill name rest out)
    (hname : FreshIds.NamesPage name) (hspill : spill.Declared xlen) (ho : o ∈ out)
    (hcall : ∀ f, o.form ≠ .call f) : (p.exec m o).registers .ra = m.registers .ra := by
  rcases h.mem hname ho with ho | ho | ⟨_, _, ho⟩
  · exact ho.keeps_ra hcall
  · cases ho with
    | reload hr _ ho =>
      rw [(SpillCode.exec_reload hspill ho).2.2.1]
      refine Function.update_of_ne ?_ _ _
      rintro rfl
      exact hr.role rfl
    | save _ ho => rw [(SpillCode.exec_save hspill ho).2.2.1]
  · rw [(SpillCode.exec_moveStack hspill ho).2.2.1]
    exact Function.update_of_ne (by decide) _ _

theorem Instruction.Conventional.calls (h : o.Conventional) {f : Id} (hf : o.form = .call f) :
    (p.exec m o).registers .ra = p.result o m .ra := by
  obtain ⟨hname, hra⟩ := h.call f hf
  have hlabel : o.isLabel = false := by simp [Instruction.isLabel, hf]
  have heffect : xlen.effect? o.name = none := by
    rw [hname]
    cases xlen <;> decide
  rw [Processor.exec_target hlabel hra, Processor.value, heffect]

theorem foldl_exec_keeps {r : Register}
    (h : ∀ i ∈ code, ∀ m, (p.exec m i).registers r = m.registers r) :
    (code.foldl p.exec m).registers r = m.registers r := by
  induction code generalizing m with
  | nil => rfl
  | cons i rest ih =>
    rw [List.foldl_cons, ih fun j hj => h j (List.mem_cons_of_mem i hj)]
    exact h i List.mem_cons_self m

/-- Once a register has a value, it has it at the end, if all code keeps it or writes it anew. -/
theorem foldl_exec_settles {r : Register} {v : BitVec (xlen.width r.file)}
    (h : ∀ i ∈ code, ∀ m, m.registers r = v → (p.exec m i).registers r = v)
    (hreach : m.registers r = v ∨ ∃ i ∈ code, ∀ m, (p.exec m i).registers r = v) :
    (code.foldl p.exec m).registers r = v := by
  induction code generalizing m with
  | nil => simpa using hreach
  | cons i rest ih =>
    have hrest : ∀ j ∈ rest, ∀ m, m.registers r = v → (p.exec m j).registers r = v :=
      fun j hj => h j (List.mem_cons_of_mem i hj)
    rw [List.foldl_cons]
    refine ih hrest ?_
    rcases hreach with hnow | ⟨j, hj, hwrites⟩
    · exact .inl (h i List.mem_cons_self m hnow)
    · rcases List.mem_cons.1 hj with rfl | hj
      · exact .inl (hwrites m)
      · exact .inr ⟨j, hj, hwrites⟩

theorem Allocation.Lays.returns_to_caller_iff {routine : Routine}
    (h : a.Lays spill routine.name rest routine.instructions)
    (hname : FreshIds.NamesPage routine.name) {specs : List TemplateSpec} {width : Xlen}
    (hcatalog : Catalog.ofSpecs specs width = .ok context.catalog)
    (hspill : SpillCode.ofContext context = .ok spill) :
    routine.KeepsReturnAddress context.environment.xlen ↔
      ∀ i ∈ routine.untilReturn, ∀ f, i.form ≠ .call f := by
  have hdeclared := SpillCode.ofContext_declared hcatalog hspill
  have hmem : ∀ i ∈ routine.untilReturn, i ∈ routine.instructions :=
    fun i hi => List.takeWhile_subset _ hi
  constructor
  · intro hkeeps i hi f hf
    let p := Processor.constant context.environment.xlen 1 0
    let m := Machine.zero context.environment.xlen
    have hcalls : ∀ j ∈ routine.untilReturn, ∀ g, j.form = .call g → ∀ m,
        (p.exec m j).registers .ra = 1 := fun j hj g hg _ =>
      (h.conventional_of_call hname hspill (hmem j hj) hg).calls hg
    have hone : (routine.untilReturn.foldl p.exec m).registers .ra = 1 := by
      refine foldl_exec_settles (fun j hj m hm => ?_) (.inr ⟨i, hi, hcalls i hi f hf⟩)
      by_cases hcall : ∃ g, j.form = .call g
      · obtain ⟨g, hg⟩ := hcall
        exact hcalls j hj g hg m
      · push Not at hcall
        rw [h.keeps_ra hname hdeclared (hmem j hj) hcall, hm]
    rw [hkeeps Unit p m] at hone
    have hzero : ∀ xlen : Xlen, (Machine.zero xlen).registers .ra ≠ 1 := by
      intro xlen
      cases xlen <;> decide
    exact hzero _ hone
  · intro hcalls σ p m
    exact foldl_exec_keeps fun i hi _ => h.keeps_ra hname hdeclared (hmem i hi) (hcalls i hi)

theorem Allocation.Lays.untilReturn {routine : Routine}
    (h : a.Lays spill routine.name rest routine.instructions) : ∃ ret after,
      routine.instructions = routine.untilReturn ++ ret :: after ∧ ret.name = "ret" := by
  obtain ⟨mid, last, rfl, hlast⟩ := h.returns
  have hmem : last ∈ routine.instructions := by
    rcases h.framed with ⟨_, hout⟩ | ⟨enter, leave, _, _, hout⟩
    · simp [hout]
    · simp [hout, closed, hlast.name]
  have hsplit := List.takeWhile_append_dropWhile (p := fun i => i.name ≠ "ret")
    (l := routine.instructions)
  cases hdrop : routine.instructions.dropWhile fun i => i.name ≠ "ret" with
  | nil =>
    have hall := List.dropWhile_eq_nil_iff.1 hdrop last hmem
    simp [hlast.name] at hall
  | cons ret after =>
    rw [hdrop] at hsplit
    have hstop := List.dropWhile_get_zero_not (fun i => i.name ≠ "ret") routine.instructions
      (by rw [hdrop]; exact Nat.zero_lt_succ _)
    simp only [hdrop, List.get_eq_getElem, List.getElem_cons_zero] at hstop
    exact ⟨ret, after, hsplit.symm, by simpa using hstop⟩

namespace Program

/-- A function comes back to its caller if and only if it calls nothing on its way to its first
return. -/
theorem keepsReturnAddress_iff {scenarios : List Scenario} {program : Program} {routine : Routine}
    (hcatalog : Catalog.builtin context.environment.xlen = .ok context.catalog)
    (h : lowerScenarios .standard context scenarios = .ok program)
    (hroutine : routine ∈ program.functions) :
    (∃ ret after, routine.instructions = routine.untilReturn ++ ret :: after ∧
      ret.name = "ret") ∧
      (routine.KeepsReturnAddress context.environment.xlen ↔
        ∀ i ∈ routine.untilReturn, ∀ f, i.form ≠ .call f) := by
  obtain ⟨a, spill, rest, _, hspill, hname, hlays⟩ := functions_lay hcatalog h hroutine
  exact ⟨hlays.untilReturn, hlays.returns_to_caller_iff hname hcatalog hspill⟩

/-- One function does nothing, the other calls it. -/
def callOfPage : List Scenario :=
  [{ name := "t", steps := [
    { id := "g", kind := .codePage {}, code := [{ id := "c0", kind := .comment "inner" }] },
    { id := "f", kind := .codePage {}, code := [{ id := "c", kind := .call, inputs := [.ref "g"] }] }] }]

theorem callOfPage_lowers : ∃ catalog program, Catalog.builtin .rv64 = .ok catalog ∧
    lowerScenarios .standard (standardContext catalog) callOfPage = .ok program ∧
    ∃ routine ∈ program.functions, ∃ i ∈ routine.untilReturn, ∃ f, i.form = .call f := by
  obtain ⟨program, h, routine, hroutine, i, hi, hcall⟩ : ∃ program,
      lowerScenarios .standard (standardContext .rv64) callOfPage = .ok program ∧
      ∃ routine ∈ program.functions, ∃ i ∈ routine.untilReturn, i.form = .call "code_mem0" :=
    exists_lowered rfl (by decide +kernel)
  exact ⟨.rv64, program, Catalog.builtin_rv64, h, routine, hroutine, i, hi, _, hcall⟩

theorem callOfPage_keepsReturnAddress_iff : ∃ catalog program, Catalog.builtin .rv64 = .ok catalog ∧
    lowerScenarios .standard (standardContext catalog) callOfPage = .ok program ∧
    ∃ routine ∈ program.functions,
      (∃ ret after, routine.instructions = routine.untilReturn ++ ret :: after ∧
        ret.name = "ret") ∧
        (routine.KeepsReturnAddress .rv64 ↔ ∀ i ∈ routine.untilReturn, ∀ f, i.form ≠ .call f) := by
  obtain ⟨catalog, program, hcatalog, h, routine, hroutine, _⟩ := callOfPage_lowers
  have hbuiltin : Catalog.builtin (standardContext catalog).environment.xlen =
      .ok (standardContext catalog).catalog := hcatalog
  exact ⟨catalog, program, hcatalog, h, routine, hroutine,
    keepsReturnAddress_iff hbuiltin h hroutine⟩

theorem callOfPage_loses_return_address : ¬ ∀ (context : Context) (scenarios : List Scenario)
    (program : Program), Catalog.builtin context.environment.xlen = .ok context.catalog →
      lowerScenarios .standard context scenarios = .ok program →
      ∀ routine ∈ program.functions, routine.KeepsReturnAddress context.environment.xlen := by
  intro hall
  obtain ⟨catalog, program, hcatalog, h, routine, hroutine, i, hi, f, hcall⟩ := callOfPage_lowers
  have hbuiltin : Catalog.builtin (standardContext catalog).environment.xlen =
      .ok (standardContext catalog).catalog := hcatalog
  obtain ⟨a, spill, rest, _, hspill, hname, hlays⟩ := functions_lay hbuiltin h hroutine
  have hkeeps := hall (standardContext catalog) callOfPage program hcatalog h routine hroutine
  exact (hlays.returns_to_caller_iff hname hbuiltin hspill).1 hkeeps i hi f hcall

end Program
end PlanLowering
