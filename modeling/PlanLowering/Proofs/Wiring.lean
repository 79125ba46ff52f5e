import PlanLowering.Instruction.Wiring
import PlanLowering.Proofs.Outcome

/-!
# Wired operands

Wiring changes the value of one operand. Its slot and type stay, and so do all other operands.
-/

namespace PlanLowering

theorem Operand.file_of_virtual {op : Operand} {id : Id} (h : op.virtual? = some id) :
    ∃ file, op.type.file? = some file := by
  unfold virtual? at h
  split at h
  · next file _ htype _ => exact ⟨file, by rw [htype]; rfl⟩
  · cases h

theorem Operand.value_of_virtual {op : Operand} {id : Id} (h : op.virtual? = some id) :
    op.value = .virtual id := by
  unfold virtual? at h
  split at h
  · next hvalue => rw [hvalue, Option.some.inj h]
  · cases h

theorem Operand.virtual?_eq_none {op : Operand} (h : ∀ id, op.value ≠ .virtual id) :
    op.virtual? = none := by
  cases hid : op.virtual? with
  | none => rfl
  | some id => exact absurd (value_of_virtual hid) (h id)

/-- An instruction that defines an id. -/
def Instruction.Defines (i : Instruction) (id : Id) : Prop := i.virtualDestination? = some id

/-- A definition of the id in a register of the file. -/
def Instruction.DefinesIn (i : Instruction) (id : Id) (f : RegisterFile) : Prop :=
  ∃ op ∈ i.destination, op.virtual? = some id ∧ op.type.file? = some f

namespace Instruction

variable {p q : Operand → Bool} {value : OperandValue} {ops ops' : List Operand}
variable {i i' : Instruction} {slot : Slot} {action : String} {id : Id} {f g : RegisterFile}

theorem DefinesIn.defines (h : i.DefinesIn id f) : i.Defines id := by
  obtain ⟨op, hop, hid, _⟩ := h
  exact Option.bind_eq_some_iff.2 ⟨op, hop, hid⟩

theorem Defines.definesIn (h : i.Defines id) : ∃ f, i.DefinesIn id f := by
  obtain ⟨op, hop, hid⟩ := Option.bind_eq_some_iff.1 h
  obtain ⟨f, hf⟩ := Operand.file_of_virtual hid
  exact ⟨f, op, hop, hid, hf⟩

theorem DefinesIn.unique (h : i.DefinesIn id f) (h' : i.DefinesIn id g) : f = g := by
  obtain ⟨op, hop, _, hf⟩ := h
  obtain ⟨op', hop', _, hg⟩ := h'
  obtain rfl := Option.mem_unique hop hop'
  exact Option.some.inj (hf.symm.trans hg)

theorem setFirst_eq_some (h : setFirst p value ops = some ops') :
    ∃ front op back, ops = front ++ op :: back ∧ (∀ a ∈ front, p a = false) ∧ p op ∧
      ops' = front ++ { op with value } :: back := by
  induction ops generalizing ops' with
  | nil => cases h
  | cons op rest ih =>
    by_cases hop : p op
    · rw [setFirst, if_pos hop, Option.some.injEq] at h
      exact ⟨[], op, rest, rfl, by simp, hop, h.symm⟩
    · rw [setFirst, if_neg hop, Option.map_eq_some_iff] at h
      obtain ⟨more, hmore, rfl⟩ := h
      obtain ⟨front, found, back, rfl, hfront, hfound, rfl⟩ := ih hmore
      exact ⟨op :: front, found, back, rfl, by simpa [hop] using hfront, hfound, rfl⟩

theorem find?_setFirst (hp : ∀ op : Operand, p { op with value } = p op)
    (h : setFirst p value ops = some ops') :
    ∃ op, ops.find? p = some op ∧ ops'.find? p = some { op with value } := by
  obtain ⟨front, op, back, rfl, hfront, hop, rfl⟩ := setFirst_eq_some h
  have hnone : front.find? p = none := by simpa using hfront
  exact ⟨op, by simp [List.find?_append, hnone, hop], by simp [List.find?_append, hnone, hp, hop]⟩

/-- A search that passes over the operand before and after finds what it found. -/
theorem find?_setFirst_of_skip (h : setFirst p value ops = some ops')
    (hskip : ∀ op ∈ ops, p op → q op = false ∧ q { op with value } = false) :
    ops'.find? q = ops.find? q := by
  obtain ⟨front, op, back, rfl, hfront, hop, rfl⟩ := setFirst_eq_some h
  obtain ⟨hold, hnew⟩ := hskip op (by simp) hop
  simp [List.find?_append, hold, hnew]

@[simp] theorem setSource_ok : i.setSource slot value action = .ok i' ↔
    ∃ sources, setFirst (·.slot = slot) value i.sources = some sources ∧
      { i with sources } = i' := by
  simp only [setSource, setSource?]
  cases setFirst (·.slot = slot) value i.sources <;> simp

@[simp] theorem setImmediate_ok : i.setImmediate value action = .ok i' ↔
    ∃ sources, setFirst (·.type = .imm) value i.sources = some sources ∧
      { i with sources } = i' := by
  simp only [setImmediate, setImmediate?]
  cases setFirst (·.type = .imm) value i.sources <;> simp

@[simp] theorem setDestination_ok : i.setDestination value action = .ok i' ↔
    ∃ op, i.destination = some op ∧ { i with destination := some { op with value } } = i' := by
  simp only [setDestination]
  cases i.destination <;> simp

theorem setSource_form (h : i.setSource slot value action = .ok i') : i'.form = i.form := by
  obtain ⟨_, _, rfl⟩ := setSource_ok.1 h
  rfl

theorem setImmediate_form (h : i.setImmediate value action = .ok i') : i'.form = i.form := by
  obtain ⟨_, _, rfl⟩ := setImmediate_ok.1 h
  rfl

theorem setDestination_form (h : i.setDestination value action = .ok i') : i'.form = i.form := by
  obtain ⟨_, _, rfl⟩ := setDestination_ok.1 h
  rfl

end Instruction
end PlanLowering
