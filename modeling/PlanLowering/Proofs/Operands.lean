import Mathlib.Data.List.Nodup
import PlanLowering.Instruction.Assembly
import PlanLowering.Proofs.Catalog
import PlanLowering.Proofs.Wiring

/-!
# Slots of instructions

Which operands of an instruction have been wired since it was taken from the catalog. Every code
path wires the slots it knows about, so an instruction is complete if its template has no others.
The destination counts as a slot here.
-/

namespace PlanLowering

def Operand.isSettled (op : Operand) : Bool := op.isConcrete || op.virtual?.isSome

namespace Operand

variable {op : Operand}

theorem isSettled_of_concrete (h : op.isConcrete) : op.isSettled := by
  simp [isSettled, h]

theorem not_isSettled_of_unset (h : op.value = .unset) : op.isSettled = false := by
  cases htype : op.type <;> simp [isSettled, isConcrete, virtual?, h, htype]

theorem not_isConcrete_of_unset (h : op.value = .unset) : op.isConcrete = false := by
  simp [isConcrete, h]

theorem isSettled_of_register {value : OperandValue} (htype : op.type.isRegister)
    (hvalue : value ≠ .unset) : isSettled { op with value } := by
  cases h : op.type with
  | register file => cases value <;> simp_all [isSettled, isConcrete, virtual?]
  | _ => simp [h, OperandType.isRegister, OperandType.file?] at htype

end Operand

def Slot.registers : List Slot := [.rs1, .rs2, .rs3]

theorem Slot.isRegister_of_admits {slot : Slot} {type : OperandType} (hslot : slot ∈ registers)
    (h : slot.admits type) : type.isRegister := by
  cases type with
  | register file => rfl
  | _ =>
    simp only [registers, List.mem_cons, List.not_mem_nil, or_false] at hslot
    rcases hslot with rfl | rfl | rfl <;> cases h

namespace Instruction

theorem isAllocated_iff {i : Instruction} : i.isAllocated ↔ ∀ op ∈ i.operands, op.isConcrete := by
  cases hdest : i.destination <;> simp [isAllocated, operands, hdest]

def isSettled (i : Instruction) : Bool := i.operands.all Operand.isSettled

theorem isSettled_iff {i : Instruction} : i.isSettled ↔ ∀ op ∈ i.operands, op.isSettled := by
  simp [isSettled]

theorem isSettled_of_allocated {i : Instruction} (h : i.isAllocated) : i.isSettled :=
  isSettled_iff.2 fun op hop => Operand.isSettled_of_concrete (isAllocated_iff.1 h op hop)

end Instruction

namespace Template

def fields (t : Template) : List (Slot × OperandType) :=
  (t.destination.map fun file => (.rd, .register file)).toList ++ t.sources

def slots (t : Template) : List Slot := t.fields.map Prod.fst

theorem Typed.nodup_slots {t : Template} (ht : t.Typed) : t.slots.Nodup := by
  have hrd : Slot.rd ∉ t.sources.map Prod.fst := by
    intro hmem
    obtain ⟨source, hsource, hslot⟩ := List.mem_map.1 hmem
    have hadmits := ht source hsource
    rw [hslot] at hadmits
    simp [Slot.admits] at hadmits
  cases hdest : t.destination with
  | none => simpa [slots, fields, hdest] using t.nodup
  | some file => simpa [slots, fields, hdest] using ⟨by simpa using hrd, t.nodup⟩

end Template

/-- An instruction of a template in which the operands of some slots have become good. -/
structure Instruction.Wired (good : Operand → Bool) (t : Template) (slots : List Slot)
    (i : Instruction) : Prop where
  sources : i.sources.map (fun op => (op.slot, op.type)) = t.sources
  destination : i.destination.map (fun op => (op.slot, op.type)) =
    t.destination.map fun file => (.rd, .register file)
  wired : ∀ op ∈ i.operands, good op ↔ op.slot ∈ slots

namespace Instruction

variable {good : Operand → Bool} {t : Template} {slots : List Slot} {i i' : Instruction}
variable {slot : Slot} {value : OperandValue} {action : String} {op : Operand}

theorem wired_instruction (hunset : ∀ op : Operand, op.value = .unset → good op = false) :
    t.instruction.Wired good t [] where
  sources := by simp [Template.instruction, Function.comp_def]
  destination := by simp [Template.instruction, Function.comp_def]
  wired := by
    intro op hop
    have hvalue : op.value = .unset := by
      simp only [operands, Template.instruction, List.mem_append, Option.mem_toList,
        Option.map_eq_some_iff, List.mem_map] at hop
      rcases hop with ⟨_, _, rfl⟩ | ⟨_, _, rfl⟩ <;> rfl
    simp [hunset op hvalue]

namespace Wired

theorem fields (h : i.Wired good t slots) :
    i.operands.map (fun op => (op.slot, op.type)) = t.fields := by
  rw [operands, List.map_append, h.sources, Template.fields, ← h.destination]
  cases i.destination <;> rfl

theorem good_iff (h : i.Wired good t slots) :
    (∀ op ∈ i.operands, good op) ↔ t.slots ⊆ slots := by
  rw [Template.slots, ← h.fields, List.map_map]
  constructor
  · intro hgood s hs
    obtain ⟨op, hop, rfl⟩ := List.mem_map.1 hs
    exact (h.wired op hop).1 (hgood op hop)
  · intro hsub op hop
    exact (h.wired op hop).2 (hsub (List.mem_map.2 ⟨op, hop, rfl⟩))

theorem nodup (h : i.Wired good t slots) (ht : t.Typed) :
    (i.operands.map Operand.slot).Nodup := by
  have hslots := ht.nodup_slots
  rw [Template.slots, ← h.fields, List.map_map] at hslots
  exact hslots

theorem admits (h : i.Wired good t slots) (ht : t.Typed) (hop : op ∈ i.sources) :
    op.slot.admits op.type := by
  apply ht (op.slot, op.type)
  rw [← h.sources]
  exact List.mem_map.2 ⟨op, hop, rfl⟩

theorem target (h : i.Wired good t slots) (hdest : i.destination = some op) :
    op.slot = .rd ∧ op.type.isRegister := by
  have hfield := h.destination
  rw [hdest, Option.map_some, eq_comm, Option.map_eq_some_iff] at hfield
  obtain ⟨file, _, hfile⟩ := hfield
  rw [Prod.mk.injEq] at hfile
  exact ⟨hfile.1.symm, hfile.2 ▸ rfl⟩

/-- The operand of one slot gets a value that makes it good. -/
theorem replace (h : i.Wired good t slots) (ht : t.Typed)
    (hsources : i'.sources.map (fun op => (op.slot, op.type)) =
      i.sources.map (fun op => (op.slot, op.type)))
    (hdest : i'.destination.map (fun op => (op.slot, op.type)) =
      i.destination.map (fun op => (op.slot, op.type)))
    {front back : List Operand} (hops : i.operands = front ++ op :: back)
    (hops' : i'.operands = front ++ { op with value } :: back)
    (hgood : good { op with value }) : i'.Wired good t (op.slot :: slots) where
  sources := hsources.trans h.sources
  destination := hdest.trans h.destination
  wired := by
    have hnodup := h.nodup ht
    rw [hops, List.map_append, List.map_cons, List.nodup_middle, List.nodup_cons] at hnodup
    have hother : ∀ a ∈ front ++ back, good a ↔ a.slot ∈ op.slot :: slots := by
      intro a ha
      have hne : a.slot ≠ op.slot := by
        rintro heq
        apply hnodup.1
        rw [← List.map_append, ← heq]
        exact List.mem_map_of_mem ha
      have hold : a ∈ i.operands := by
        rw [hops, List.mem_append, List.mem_cons]
        exact (List.mem_append.1 ha).imp_right .inr
      simp [h.wired a hold, hne]
    intro a ha
    rw [hops', List.mem_append, List.mem_cons] at ha
    rcases ha with ha | rfl | ha
    · exact hother a (List.mem_append_left _ ha)
    · simp [hgood]
    · exact hother a (List.mem_append_right _ ha)

theorem setSource (h : i.Wired good t slots) (ht : t.Typed)
    (hset : i.setSource slot value action = .ok i')
    (hgood : ∀ op : Operand, slot.admits op.type → good { op with value }) :
    i'.Wired good t (slot :: slots) := by
  obtain ⟨sources, hfirst, rfl⟩ := setSource_ok.1 hset
  obtain ⟨front, op, back, hsources, _, hslot, rfl⟩ := setFirst_eq_some hfirst
  have hadmits := h.admits ht (show op ∈ i.sources by simp [hsources])
  rw [decide_eq_true_eq] at hslot
  rw [hslot] at hadmits
  have hops : i.operands = (i.destination.toList ++ front) ++ op :: back := by
    simp [operands, hsources]
  rw [← hslot]
  exact h.replace ht (by simp [hsources]) rfl hops (by simp [operands]) (hgood op hadmits)

theorem setImmediate (h : i.Wired good t slots) (ht : t.Typed)
    (hset : i.setImmediate value action = .ok i')
    (hgood : ∀ op : Operand, good { op with value }) : i'.Wired good t (.imm :: slots) := by
  obtain ⟨sources, hfirst, rfl⟩ := setImmediate_ok.1 hset
  obtain ⟨front, op, back, hsources, _, htype, rfl⟩ := setFirst_eq_some hfirst
  have hadmits := h.admits ht (show op ∈ i.sources by simp [hsources])
  rw [decide_eq_true_eq] at htype
  have hslot : op.slot = .imm := by
    rw [htype] at hadmits
    revert hadmits
    cases op.slot <;> simp [Slot.admits]
  have hops : i.operands = (i.destination.toList ++ front) ++ op :: back := by
    simp [operands, hsources]
  rw [← hslot]
  exact h.replace ht (by simp [hsources]) rfl hops (by simp [operands]) (hgood op)

theorem setDestination (h : i.Wired good t slots) (ht : t.Typed)
    (hset : i.setDestination value action = .ok i')
    (hgood : ∀ op : Operand, op.type.isRegister → good { op with value }) :
    i'.Wired good t (.rd :: slots) := by
  obtain ⟨op, hdest, rfl⟩ := setDestination_ok.1 hset
  obtain ⟨hslot, htype⟩ := h.target hdest
  have hops : i.operands = [] ++ op :: i.sources := by simp [operands, hdest]
  rw [← hslot]
  exact h.replace ht rfl (by simp [hdest]) hops (by simp [operands]) (hgood op htype)

theorem absent (h : i.Wired good t slots) (hslot : slot ∉ t.slots) :
    i.Wired good t (slot :: slots) where
  sources := h.sources
  destination := h.destination
  wired := by
    intro op hop
    have hne : op.slot ≠ slot := by
      rintro rfl
      apply hslot
      rw [Template.slots, ← h.fields, List.map_map]
      exact List.mem_map.2 ⟨op, hop, rfl⟩
    simp [h.wired op hop, hne]

theorem source_slot (h : i.Wired good t slots) (hslot : slot ≠ .rd) (hmem : slot ∈ t.slots) :
    ∃ op ∈ i.sources, op.slot = slot := by
  rw [Template.slots, ← h.fields, List.map_map] at hmem
  obtain ⟨op, hop, rfl⟩ := List.mem_map.1 hmem
  rcases List.mem_append.1 hop with hop | hop
  · exact absurd (h.target (Option.mem_toList.1 hop)).1 hslot
  · exact ⟨op, hop, rfl⟩

end Wired
end Instruction
end PlanLowering
