import PlanLowering.Lowering
import PlanLowering.Proofs.Operands
import PlanLowering.Proofs.Rv64Catalog

/-!
# Slots of catalog templates

Selection wires the same slots whatever opcode it got. In a complete catalog these are all slots of
every opcode that it draws or names on its own; an opcode that a plan pins may have more.
-/

namespace PlanLowering

/-- The slots that are wired in an instruction which stands in for its category, the last one
first. -/
def Category.wired : Category → List Slot
  | .arithmetic => [.rd, .rs3, .imm, .rs2, .rs1]
  | .load => [.rd, .rs1, .imm]
  | .store => [.rd, .rs2, .rs1, .imm]
  | .cast => [.rd, .rs1]
  | _ => [.rd]

def Category.drawn : List Category := [.arithmetic, .load, .store, .cast]

namespace Catalog

def namedOpcodes : List (String × List Slot) :=
  [("li", [.rd, .imm]), ("mv", [.rd, .rs1]), ("add", [.rd, .rs1, .rs2]),
    ("addi", [.rd, .rs1, .imm]), ("andi", [.rd, .rs1, .imm]),
    ("ld", [.rd, .rs1, .imm]), ("lw", [.rd, .rs1, .imm]),
    ("fld", [.rd, .rs1, .imm]), ("flw", [.rd, .rs1, .imm]),
    ("sd", [.rs1, .rs2, .imm]), ("sw", [.rs1, .rs2, .imm]),
    ("fsd", [.rs1, .rs2, .imm]), ("fsw", [.rs1, .rs2, .imm]),
    ("beq", [.rs1, .rs2, .offset]), ("bne", [.rs1, .rs2, .offset]),
    ("jalr", [.rd, .rs1, .imm]), ("jr", [.rs1]), ("ret", []),
    ("csrr", [.rd, .csr]), ("csrrw", [.rd, .rs1, .csr]), ("csrrs", [.rd, .rs1, .csr]),
    ("csrrc", [.rd, .rs1, .csr]), ("csrrwi", [.rd, .imm, .csr]), ("csrrsi", [.rd, .imm, .csr]),
    ("csrrci", [.rd, .imm, .csr])]

structure Complete (catalog : Catalog) : Prop where
  typed : ∀ t ∈ catalog.templates, t.Typed
  drawn : ∀ t ∈ catalog.templates, t.category ∈ Category.drawn → t.slots ⊆ t.category.wired
  named : ∀ opcode ∈ namedOpcodes, ∀ t ∈ catalog.templates, t.name = opcode.1 →
    t.slots ⊆ opcode.2

def coveredBy (t : Template) : Bool :=
  (t.category ∉ Category.drawn || t.slots.all (· ∈ t.category.wired)) &&
    namedOpcodes.all fun opcode => t.name ≠ opcode.1 || t.slots.all (· ∈ opcode.2)

theorem rv64Templates_covered : rv64Templates.all coveredBy = true := by
  decide +kernel

theorem builtin_complete {xlen : Xlen} {catalog : Catalog} (h : builtin xlen = .ok catalog) :
    catalog.Complete := by
  have hcovered : ∀ t ∈ catalog.templates, coveredBy t := fun t ht =>
    List.all_eq_true.1 rv64Templates_covered t (mem_rv64Templates h t ht)
  constructor
  case typed => exact ofSpecs_typed h
  case drawn =>
    intro t ht hdrawn s hs
    have hcategory := (Bool.and_eq_true_iff.1 (hcovered t ht)).1
    simp only [hdrawn, not_true_eq_false, decide_false, Bool.false_or, List.all_eq_true,
      decide_eq_true_eq] at hcategory
    exact hcategory s hs
  case named =>
    intro opcode hopcode t ht hname s hs
    have hall := List.all_eq_true.1 (Bool.and_eq_true_iff.1 (hcovered t ht)).2 opcode hopcode
    simp only [hname, ne_eq, not_true_eq_false, decide_false, Bool.false_or, List.all_eq_true,
      decide_eq_true_eq] at hall
    exact hall s hs

variable {catalog : Catalog} {name : String} {slots : List Slot} {i : Instruction} {t : Template}

theorem Complete.typed_of_find? (h : catalog.Complete) (hfind : catalog.find? name = some t) :
    t.Typed := h.typed t (mem_of_find? hfind)

/-- An opcode that a pass names has no slots besides those that the pass wires. -/
theorem Complete.instruction (h : catalog.Complete) (hname : (name, slots) ∈ namedOpcodes)
    (hi : catalog.instruction name = .ok i) :
    ∃ t : Template, t.Typed ∧ t.slots ⊆ slots ∧ t.instruction = i := by
  obtain ⟨t, ht, htemplate, rfl⟩ := instruction_template hi
  exact ⟨t, h.typed t ht, h.named _ hname t ht htemplate, rfl⟩

theorem mem_filter_category {filter : TemplateFilter} {category : Category}
    (hfilter : filter.category = some category) (h : t ∈ catalog.filter filter) :
    t ∈ catalog.templates ∧ t.category = category := by
  obtain ⟨hmem, haccepts⟩ := List.mem_filter.1 h
  simp only [TemplateFilter.accepts, Bool.and_eq_true, hfilter, TemplateFilter.allows,
    Option.all_some, decide_eq_true_eq] at haccepts
  exact ⟨hmem, haccepts.1.1.1.1.1.symm⟩

end Catalog

theorem Lower.chooseFrom_ok {candidates : List Template} {filter : TemplateFilter}
    {context : Context} {state state' : State} {i : Instruction}
    (h : Lower.chooseFrom candidates filter context state = .ok i state') :
    ∃ t ∈ candidates, t.instruction = i := by
  simp only [Lower.chooseFrom, Lower.bind_ok, Lower.draw_ok] at h
  obtain ⟨choice, next, ⟨source, hdraw, rfl⟩, h⟩ := h
  cases choice with
  | none => simp at h
  | some t =>
    rw [Lower.pure_ok] at h
    refine ⟨t, ?_, h.1⟩
    unfold Draw.choice at hdraw
    split at hdraw
    · simp at hdraw
    · simp only [Draw.bind_ok, Draw.pure_ok] at hdraw
      obtain ⟨index, _, _, hindex, _⟩ := hdraw
      exact List.mem_of_getElem? hindex

theorem Lower.chooseFrom_ids {candidates : List Template} {filter : TemplateFilter}
    {context : Context} {state state' : State} {i : Instruction}
    (h : Lower.chooseFrom candidates filter context state = .ok i state') :
    state'.ids = state.ids := by
  simp only [Lower.chooseFrom, Lower.bind_ok, Lower.draw_ok] at h
  obtain ⟨choice, _, ⟨source, _, rfl⟩, h⟩ := h
  cases choice with
  | none => simp at h
  | some t =>
    rw [Lower.pure_ok] at h
    rw [← h.2]

end PlanLowering
