import PlanLowering.Catalog.Builtin
import PlanLowering.Proofs.AllocatedCode
import PlanLowering.Proofs.Catalog
import PlanLowering.Proofs.OperandLists

/-!
# Catalogs built from declarations

A list of declarations is a catalog exactly if those that hold for the register width have distinct
names and operand lists of the grammar. The catalog then answers from these declarations: a name
gives what was declared under it, a query all that satisfies its constraints, in their order.
-/

namespace PlanLowering

section Constraints

variable {constraint : TemplateFilter} {i : Instruction} {t : Template}

/-- The instruction satisfies every constraint that is given. -/
structure TemplateFilter.Matches (constraint : TemplateFilter) (i : Instruction) : Prop where
  category : ∀ category ∈ constraint.category, i.category = category
  registerSources : ∀ n ∈ constraint.registerSources,
    (i.sources.filter fun op => op.type.isRegister).length = n
  hasImmediate : ∀ wanted ∈ constraint.hasImmediate,
    ((∃ op ∈ i.sources, op.type = .imm) ↔ wanted = true)
  excluded : i.extension.bits &&& constraint.excluded.bits = 0
  sourceType : ∀ type ∈ constraint.sourceType, ∃ front op back,
    i.sources = front ++ op :: back ∧ (∀ other ∈ front, ¬ other.type.isRegister) ∧
      op.type.isRegister ∧ op.type = type
  destinationType : ∀ type ∈ constraint.destinationType, ∃ op ∈ i.destination, op.type = type

theorem TemplateFilter.allows_iff {α : Type} [DecidableEq α] {wanted : Option α} {value : α} :
    allows wanted value ↔ ∀ a ∈ wanted, value = a := by
  cases wanted <;> simp [allows, eq_comm]

theorem Instruction.find?_register_eq {type : OperandType} :
    (i.sources.find? (·.type.isRegister)).map Operand.type = some type ↔ ∃ front op back,
      i.sources = front ++ op :: back ∧ (∀ other ∈ front, ¬ other.type.isRegister) ∧
        op.type.isRegister ∧ op.type = type := by
  rw [Option.map_eq_some_iff]
  simp only [List.find?_eq_some_iff_append]
  constructor
  · rintro ⟨op, ⟨hop, front, back, hsources, hfront⟩, htype⟩
    exact ⟨front, op, back, hsources, by simpa using hfront, hop, htype⟩
  · rintro ⟨front, op, back, hsources, hfront, hop, htype⟩
    exact ⟨op, ⟨hop, front, back, hsources, by simpa using hfront⟩, htype⟩

theorem Instruction.hasImmediate_iff {wanted : Bool} :
    i.hasImmediate = wanted ↔ ((∃ op ∈ i.sources, op.type = .imm) ↔ wanted = true) := by
  have hany : i.hasImmediate = true ↔ ∃ op ∈ i.sources, op.type = .imm := by
    simp [hasImmediate]
  rw [← hany]
  cases wanted <;> simp

theorem TemplateFilter.accepts_iff :
    constraint.accepts t ↔ constraint.Matches t.instruction := by
  simp only [accepts, Bool.and_eq_true, allows_iff, Instruction.hasImmediate_iff,
    Instruction.registerSources, Extensions.intersects, Option.all_eq_true, decide_eq_true_eq,
    Instruction.find?_register_eq]
  constructor
  · rintro ⟨⟨⟨⟨⟨hcategory, hcount⟩, himm⟩, hexcluded⟩, hsource⟩, hdestination⟩
    refine ⟨hcategory, hcount, himm, by simpa using hexcluded, hsource, fun type htype => ?_⟩
    exact Option.map_eq_some_iff.1 (hdestination type htype)
  · rintro ⟨hcategory, hcount, himm, hexcluded, hsource, hdestination⟩
    refine ⟨⟨⟨⟨⟨hcategory, hcount⟩, himm⟩, by simpa using hexcluded⟩, hsource⟩, fun type htype => ?_⟩
    exact Option.map_eq_some_iff.2 (hdestination type htype)

end Constraints

/-- The declarations that hold for the register width. -/
def TemplateSpec.declared (specs : List TemplateSpec) (xlen : Xlen) : List TemplateSpec :=
  specs.filter fun spec => ¬ (spec.rv64Only ∧ xlen = .rv32)

namespace Catalog

variable {catalog : Catalog} {specs declared : List TemplateSpec} {xlen : Xlen}
variable {templates : List Template}

theorem ofSpecs_ok : ofSpecs specs xlen = .ok catalog ↔
    List.Forall₂ (fun spec t => Template.ofSpec spec = .ok t)
      (TemplateSpec.declared specs xlen) catalog.templates := by
  have hkept : specs.filter (kept xlen) = TemplateSpec.declared specs xlen := by
    refine List.filter_congr fun spec _ => ?_
    cases hwide : spec.rv64Only <;> simp [kept, hwide]
  rw [ofSpecs_reads, hkept]

theorem names_declared
    (h : List.Forall₂ (fun spec t => Template.ofSpec spec = .ok t) declared templates) :
    templates.map Template.name = declared.map TemplateSpec.name := by
  induction h with
  | nil => rfl
  | cons ht _ ih => rw [List.map_cons, List.map_cons, ih, Template.ofSpec_name ht]

/-- The catalog answers from the declarations. -/
structure Answers (catalog : Catalog) (declared : List TemplateSpec) : Prop where
  size : catalog.templates.length = declared.length
  named : ∀ name i, catalog.instruction name = .ok i ↔
    ∃ spec ∈ declared, spec.name = name ∧ spec.Lays i
  unnamed : ∀ name e, catalog.instruction name = .error e ↔
    e = .instructionNotFound name ∧ ∀ spec ∈ declared, spec.name ≠ name
  filtered : ∃ laid, List.Forall₂ TemplateSpec.Lays declared laid ∧ ∀ constraint,
    ((catalog.filter constraint).map Template.instruction).Sublist laid ∧
      ∀ i, i ∈ (catalog.filter constraint).map Template.instruction ↔
        i ∈ laid ∧ constraint.Matches i

theorem instruction_declared
    (h : List.Forall₂ (fun spec t => Template.ofSpec spec = .ok t) declared catalog.templates)
    {name : String} {i : Instruction} : catalog.instruction name = .ok i ↔
      ∃ spec ∈ declared, spec.name = name ∧ spec.Lays i := by
  simp only [instruction_ok, find?_eq_some]
  constructor
  · rintro ⟨t, ⟨ht, hname⟩, rfl⟩
    obtain ⟨spec, hspec, hread⟩ := exists_of_forall₂ h ht
    exact ⟨spec, hspec, (Template.ofSpec_name hread).symm.trans hname, Template.ofSpec_lays hread⟩
  · rintro ⟨spec, hspec, hname, hlays⟩
    obtain ⟨t, ht, hread⟩ := exists_of_forall₂ h.flip hspec
    exact ⟨t, ⟨ht, (Template.ofSpec_name hread).trans hname⟩,
      (Template.ofSpec_lays hread).unique hlays⟩

theorem instruction_error {name : String} {e : LoweringError} :
    catalog.instruction name = .error e ↔
      e = .instructionNotFound name ∧ name ∉ catalog.templates.map Template.name := by
  unfold Catalog.instruction
  cases hfind : catalog.find? name with
  | none =>
    refine Iff.trans ⟨?_, ?_⟩ (and_iff_left (find?_eq_none.1 hfind)).symm
    · rintro ⟨⟩
      rfl
    · rintro rfl
      rfl
  | some t =>
    refine iff_of_false nofun fun h => ?_
    rw [find?_eq_none.2 h.2] at hfind
    cases hfind

theorem answers_of_forall₂
    (h : List.Forall₂ (fun spec t => Template.ofSpec spec = .ok t) declared catalog.templates) :
    catalog.Answers declared where
  size := h.length_eq.symm
  named _ _ := instruction_declared h
  unnamed name e := by
    rw [instruction_error, names_declared h, List.mem_map]
    simp
  filtered := by
    refine ⟨catalog.templates.map Template.instruction, ?_, fun constraint => ⟨?_, fun i => ?_⟩⟩
    · rw [List.forall₂_map_right_iff]
      exact h.imp fun _ _ hread => Template.ofSpec_lays hread
    · exact List.filter_sublist.map _
    · simp only [filter, List.mem_map, List.mem_filter, TemplateFilter.accepts_iff]
      constructor
      · rintro ⟨t, ⟨ht, hmatches⟩, rfl⟩
        exact ⟨⟨t, ht, rfl⟩, hmatches⟩
      · rintro ⟨⟨t, ht, rfl⟩, hmatches⟩
        exact ⟨t, ⟨ht, hmatches⟩, rfl⟩

theorem ofSpecs_iff : (∃ catalog, ofSpecs specs xlen = .ok catalog) ↔
    ((TemplateSpec.declared specs xlen).map TemplateSpec.name).Nodup ∧
      ∀ spec ∈ TemplateSpec.declared specs xlen, spec.Grammatical := by
  simp only [ofSpecs_ok]
  generalize TemplateSpec.declared specs xlen = declared
  constructor
  · rintro ⟨catalog, h⟩
    refine ⟨names_declared h ▸ catalog.nodup, fun spec hspec => ?_⟩
    obtain ⟨t, _, hread⟩ := exists_of_forall₂ h.flip hspec
    exact Template.ofSpec_iff.1 ⟨t, hread⟩
  · rintro ⟨hnames, hgrammar⟩
    obtain ⟨templates, h⟩ : ∃ templates,
        List.Forall₂ (fun spec t => Template.ofSpec spec = .ok t) declared templates := by
      clear hnames
      induction declared with
      | nil => exact ⟨[], .nil⟩
      | cons spec declared ih =>
        obtain ⟨hspec, hmore⟩ := List.forall_mem_cons.1 hgrammar
        obtain ⟨t, hread⟩ := Template.ofSpec_iff.2 hspec
        obtain ⟨templates, h⟩ := ih hmore
        exact ⟨t :: templates, .cons hread h⟩
    exact ⟨ofTemplates templates (names_declared h ▸ hnames), h⟩

/-- A list of declarations is a catalog exactly if those that hold for the register width have
distinct names and operand lists of the grammar, and then it answers from them. -/
theorem ofSpecs_grammar (specs : List TemplateSpec) (xlen : Xlen) :
    ((∃ catalog, ofSpecs specs xlen = .ok catalog) ↔
      ((TemplateSpec.declared specs xlen).map TemplateSpec.name).Nodup ∧
        ∀ spec ∈ TemplateSpec.declared specs xlen, spec.Grammatical) ∧
    ∀ catalog, ofSpecs specs xlen = .ok catalog →
      catalog.Answers (TemplateSpec.declared specs xlen) :=
  ⟨ofSpecs_iff, fun _ h => answers_of_forall₂ (ofSpecs_ok.1 h)⟩

/-- One name twice, of which narrow registers see one, and parts without a name. -/
def twinSpecs : List TemplateSpec :=
  [both .load .base "lw" " rd,, rs1 ,imm", wide .load .base "lw" "rd, rs1, imm",
    both .store .single "fsw" "fs2, rs1, imm", both .system .base "fence" " , "]

theorem twinSpecs_grammar :
    (∃ catalog, ofSpecs twinSpecs .rv32 = .ok catalog ∧
      catalog.Answers (TemplateSpec.declared twinSpecs .rv32)) ∧
    ¬ ∃ catalog, ofSpecs twinSpecs .rv64 = .ok catalog := by
  constructor
  · have hok : (ofSpecs twinSpecs .rv32).toOption.isSome := by decide +kernel
    obtain ⟨catalog, h⟩ := Option.isSome_iff_exists.1 hok
    rw [except_toOption_eq_some] at h
    exact ⟨catalog, h, (ofSpecs_grammar twinSpecs .rv32).2 catalog h⟩
  · rw [(ofSpecs_grammar twinSpecs .rv64).1]
    exact fun h => absurd h.1 (by decide)

end Catalog

end PlanLowering
