import PlanLowering.Instruction.Assembly
import PlanLowering.Proofs.Drawn
import PlanLowering.Proofs.Interval
import PlanLowering.Proofs.Reloads

/-!
# Registers in the place of ids

Allocation gives an operand the register of its id, or a scratch register of a file in which the
instruction has the id. Both are registers that the calling convention leaves free. What it puts
around the instruction reaches the slots of ids and nothing else.
-/

namespace PlanLowering

def Allocation.Lodges (a : Allocation) (ops : List Operand) (id : Id) (r : Register) : Prop :=
  a.registers.get? id = some r ∨
    r.IsScratch ∧ ∃ op ∈ ops, op.virtual? = some id ∧ op.type.file? = some r.file

def Operand.Lodged (a : Allocation) (ops : List Operand) (op op' : Operand) : Prop :=
  match op.virtual? with
  | none => op' = op
  | some id => ∃ r, op' = { op with value := .reg r } ∧ a.Lodges ops id r

inductive SpillCode.Supplies (r : Register) : Slot → OperandValue → Prop where
  | unset {slot} : Supplies r slot .unset
  | base : Supplies r .rs1 (.reg .sp)
  | data : Supplies r .rs2 (.reg r)
  | offset {v} : Supplies r .imm (.imm v)

structure Instruction.Lodged (a : Allocation) (i o : Instruction) : Prop where
  same : o = { i with destination := o.destination, sources := o.sources }
  destination : List.Forall₂ (Operand.Lodged a i.operands) i.destination.toList o.destination.toList
  sources : List.Forall₂ (Operand.Lodged a i.operands) i.sources o.sources

inductive Allocation.Reaches (a : Allocation) (spill : SpillCode) : Instruction → Prop where
  | reload {r n key id o} (hr : r.IsScratch) (hslot : a.slots.get? key = some n)
      (h : spill.reload r n id = .ok o) : Reaches a spill o
  | save {r n key id o} (hslot : a.slots.get? key = some n)
      (h : spill.save r n id = .ok o) : Reaches a spill o

variable {a : Allocation} {spill : SpillCode} {pool : RegisterPool} {ops ops' : List Operand}
variable {op op' : Operand} {id : Id} {r : Register} {i o : Instruction} {piece : Piece}
variable {reloads reloads' : Reloads} {code : List Instruction}

namespace SpillCode

variable {context : Context} {n : Nat} {bytes : Int}
variable (htyped : ∀ t ∈ context.catalog.templates, t.Typed)
variable (hspill : ofContext context = .ok spill)
include htyped hspill

theorem drawn_reload (h : spill.reload r n id = .ok o) :
    o.Drawn context.catalog (context.environment.xlen.spillOpcode r.file true) (.reg r)
      (Supplies r) := by
  simp only [reload, except_bind_ok, except_pure_ok] at h
  obtain ⟨i, hi, i₁, hrd, i₂, hrs1, i₃, himm, rfl⟩ := h
  have hdrawn := Catalog.drawn_instruction (Supplies r) (template_ok hspill hi) fun _ => .unset
  have hdrawn := ((hdrawn.setDestination hrd).setSource hrs1 .base).setImmediate htyped himm .offset
  exact hdrawn.withId _

theorem drawn_save (h : spill.save r n id = .ok o) :
    o.Drawn context.catalog (context.environment.xlen.spillOpcode r.file false) .unset
      (Supplies r) := by
  simp only [save, except_bind_ok, except_pure_ok] at h
  obtain ⟨i, hi, i₁, hrs2, i₂, hrs1, i₃, himm, rfl⟩ := h
  have hdrawn := Catalog.drawn_instruction (Supplies r) (template_ok hspill hi) fun _ => .unset
  have hdrawn := ((hdrawn.setSource hrs2 .data).setSource hrs1 .base).setImmediate htyped himm
    .offset
  exact hdrawn.withId _

theorem drawn_moveStack (h : spill.moveStack bytes id = .ok o) :
    o.Drawn context.catalog "addi" (.reg .sp) (Supplies .sp) := by
  simp only [moveStack, except_bind_ok, except_pure_ok] at h
  obtain ⟨i₁, hrd, i₂, hrs1, i₃, himm, rfl⟩ := h
  have hdrawn := Catalog.drawn_instruction (Supplies .sp) (adjust_ok hspill).1 fun _ => .unset
  have hdrawn := ((hdrawn.setDestination hrd).setSource hrs1 .base).setImmediate htyped himm .offset
  exact hdrawn.withId _

theorem Makes.no_symbol (h : spill.Makes o) : ∀ op ∈ o.sources, ∀ s, op.value ≠ .symbol s := by
  have hsupplies : ∀ r slot s, ¬ Supplies r slot (.symbol s) := by
    rintro r slot s ⟨⟩
  intro op hop s hs
  cases h with
  | @reload r _ _ _ h => exact hsupplies r _ s (hs ▸ (drawn_reload htyped hspill h).sources op hop)
  | @save r _ _ _ h => exact hsupplies r _ s (hs ▸ (drawn_save htyped hspill h).sources op hop)
  | moveStack h => exact hsupplies _ _ s (hs ▸ (drawn_moveStack htyped hspill h).sources op hop)

end SpillCode

namespace Allocation

theorem Reaches.makes (h : a.Reaches spill o) : spill.Makes o := by
  cases h with
  | reload _ _ h => exact .reload h
  | save _ h => exact .save h

/-- What holds of the reloads for some operands while these are replaced. -/
structure Housed (a : Allocation) (spill : SpillCode) (ops : List Operand) (reloads : Reloads) :
    Prop where
  held : ∀ id r, reloads.held.get? id = some r →
    r.IsScratch ∧ ∃ op ∈ ops, op.virtual? = some id ∧ op.type.file? = some r.file
  code : ∀ o ∈ reloads.code, a.Reaches spill o

theorem Housed.initial : Housed a spill ops {} := by
  constructor <;> simp

theorem housed_preserved (a : Allocation) (ops : List Operand) :
    Reloads.Preserved a spill ops (Housed a spill ops) := by
  intro op hop consumer file id slot reloads r reloads' hid hfile _ hslot hhoused h
  rcases Reloads.reload_cases h with ⟨_, rfl⟩ | ⟨_, hnext, o, ho, rfl⟩
  · exact hhoused
  · have hmem : r ∈ file.scratch := List.mem_of_getElem? hnext
    have hscratch := RegisterFile.isScratch_of_mem hmem
    constructor
    · intro key s hs
      by_cases hkey : key = id
      · subst hkey
        simp only [IdMap.get?_insert, if_pos, Option.some.injEq] at hs
        subst hs
        exact ⟨hscratch, op, hop, hid, by rw [hfile, RegisterFile.file_of_scratch hmem]⟩
      · simp only [IdMap.get?_insert, if_neg hkey] at hs
        exact hhoused.held key s hs
    · intro o' ho'
      rcases List.mem_append.1 ho' with ho' | ho'
      · exact hhoused.code o' ho'
      · rw [List.mem_singleton] at ho'
        exact ho' ▸ .reload hscratch hslot ho

theorem Sourced.lodged (h : a.Sourced reloads op op') (hhoused : a.Housed spill ops reloads) :
    Operand.Lodged a ops op op' := by
  unfold Sourced at h
  unfold Operand.Lodged
  cases hop : op.virtual? with
  | none => simpa [hop] using h
  | some id =>
    simp only [hop] at h ⊢
    obtain ⟨r, rfl, hr⟩ := h
    exact ⟨r, rfl, hr.imp_right (hhoused.held id r)⟩

theorem Targeted.lodged {after : List Instruction} (h : a.Targeted spill reloads op op' after)
    (hhoused : a.Housed spill ops reloads) (hop : op ∈ ops) :
    Operand.Lodged a ops op op' ∧ ∀ o ∈ after, a.Reaches spill o := by
  unfold Operand.Lodged
  cases h with
  | fixed hnone => simp [hnone]
  | register hid hr =>
    simp only [hid]
    exact ⟨⟨_, rfl, .inl hr⟩, by simp⟩
  | @slot id file r n o hid hfile _ hn hr ho =>
    simp only [hid]
    refine ⟨⟨r, rfl, .inr ?_⟩, ?_⟩
    · cases hheld : reloads.held.get? id with
      | some s =>
        rw [hheld, Option.getD_some] at hr
        exact hr ▸ hhoused.held id s hheld
      | none =>
        rw [hheld, Option.getD_none] at hr
        have hscratch : r ∈ file.scratch := hr ▸ by cases file <;> decide
        refine ⟨RegisterFile.isScratch_of_mem hscratch, op, hop, hid, ?_⟩
        rw [hfile, RegisterFile.file_of_scratch hscratch]
    · simpa using Reaches.save hn ho

structure Settles (a : Allocation) (spill : SpillCode) (i : Instruction) (piece : Piece) :
    Prop where
  lodged : i.Lodged a piece.instruction
  reaches : ∀ o ∈ piece.before ++ piece.after, a.Reaches spill o
  idle : i.sources = [] → i.destination = none → piece = { instruction := i }

theorem Rewrites.lodged (h : a.Rewrites spill reloads i piece)
    (hhoused : a.Housed spill i.sources reloads) :
    i.Lodged a piece.instruction ∧ ∀ o ∈ piece.before ++ piece.after, a.Reaches spill o := by
  have hall : a.Housed spill i.operands reloads := by
    refine ⟨fun id r hr => ?_, hhoused.code⟩
    obtain ⟨hscratch, op, hop, hid⟩ := hhoused.held id r hr
    exact ⟨hscratch, op, List.mem_append_right _ hop, hid⟩
  have hsources : List.Forall₂ (Operand.Lodged a i.operands) i.sources piece.instruction.sources :=
    h.sources.imp fun _ _ hop => hop.lodged hall
  have htarget : List.Forall₂ (Operand.Lodged a i.operands) i.destination.toList
      piece.instruction.destination.toList ∧ ∀ o ∈ piece.after, a.Reaches spill o := by
    rcases h.destination with ⟨hdest, hdest', hafter⟩ | ⟨op, op', hdest, hdest', htargeted⟩
    · rw [hdest, hdest', hafter]
      exact ⟨.nil, by simp⟩
    · have hop : op ∈ i.operands := List.mem_append_left _ (by simp [hdest])
      obtain ⟨hlodged, hafter⟩ := htargeted.lodged hall hop
      rw [hdest, hdest']
      exact ⟨.cons hlodged .nil, hafter⟩
  refine ⟨⟨h.same, htarget.1, hsources⟩, ?_⟩
  intro o ho
  rcases List.mem_append.1 ho with ho | ho
  · exact hhoused.code o (h.before ▸ ho)
  · exact htarget.2 o ho

theorem replaceOperands_settles (h : a.replaceOperands spill i = .ok piece) :
    a.Settles spill i piece := by
  obtain ⟨reloads, hhoused, hrewrites⟩ := replaceOperands_ok (housed_preserved a _) .initial h
  obtain ⟨hlodged, hreaches⟩ := hrewrites.lodged hhoused
  refine ⟨hlodged, hreaches, fun hsources hdest => ?_⟩
  simp only [replaceOperands, hsources, hdest, replaceSources, pure_bind, except_pure_ok] at h
  rw [← h, ← hsources, ← hdest]

theorem replaceAll_settles {pieces : List Piece} (h : a.replaceAll spill code = .ok pieces) :
    ∃ pairs : List (Instruction × Piece), pairs.map Prod.fst = code ∧
      pairs.map Prod.snd = pieces ∧ ∀ pair ∈ pairs, a.Settles spill pair.1 pair.2 := by
  obtain ⟨pairs, hcode, hpieces, hpairs⟩ := replaceAll_pairs h
  exact ⟨pairs, hcode, hpieces, fun pair hpair => replaceOperands_settles (hpairs pair hpair)⟩

theorem Sound.candidate_of_get? (h : a.Sound pool) (hr : a.registers.get? id = some r) :
    ∃ j ∈ a.intervals, j.id = id ∧ r ∈ pool.candidates j.file j.excluded := by
  obtain ⟨j, hj, rfl⟩ := List.mem_map.1 ((h.placed id).2 (.inl ⟨r, hr⟩))
  exact ⟨j, hj, rfl, h.candidate j hj r hr⟩

theorem Lodges.role (h : a.Lodges ops id r) (hsound : a.Sound pool) : r.role ≠ .special := by
  rcases h with hr | ⟨hscratch, _⟩
  · obtain ⟨j, _, _, hcandidate⟩ := hsound.candidate_of_get? hr
    have hpool := (RegisterPool.mem_candidates.1 hcandidate).1
    have hfree := (List.mem_filter.1 (RegisterPool.mem_allocatable hpool)).2
    rw [decide_eq_true_eq] at hfree
    exact hfree.1
  · exact hscratch.role

end Allocation

end PlanLowering
