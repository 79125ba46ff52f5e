import PlanLowering.Except
import PlanLowering.Instruction.Basic
import PlanLowering.Text.Blank

/-! # Instruction templates

A template is declared by a list of field names as they stand in an assembly manual. Each name
stands for the destination or for one source slot.
-/

namespace PlanLowering

inductive TemplateField where
  | target (file : RegisterFile)
  | source (slot : Slot) (type : OperandType)
  deriving DecidableEq, Repr

namespace TemplateField

/-- Float sources share the slots of integer ones, so that both are wired alike. -/
def table : List (String × TemplateField) :=
  [("rd", .target .gpr), ("fd", .target .fpr),
    ("rs1", .source .rs1 (.register .gpr)), ("rs2", .source .rs2 (.register .gpr)),
    ("rs3", .source .rs3 (.register .gpr)),
    ("fs1", .source .rs1 (.register .fpr)), ("fs2", .source .rs2 (.register .fpr)),
    ("fs3", .source .rs3 (.register .fpr)),
    ("imm", .source .imm .imm), ("zimm", .source .imm .imm), ("shamt", .source .imm .imm),
    ("offset", .source .offset .symbol), ("csr", .source .csr .csr)]

def ofName? (name : String) : Option TemplateField := table.lookup name

end TemplateField

/-- Why a list of templates is no catalog. -/
inductive CatalogFlaw where
  | unreadable
  | unknownField (template field : String)
  | secondDestination (template : String)
  | repeatedSlot (template : String) (slot : Slot)
  | duplicateTemplate (template : String)
  deriving DecidableEq, Repr

structure TemplateSpec where
  name : String
  /-- Field names separated by commas. -/
  operands : String := ""
  category : Category
  extension : Extensions := .base
  rv64Only : Bool := false
  deriving DecidableEq, Repr

namespace TemplateSpec

/-- Field names of the operand list; blank parts count for nothing. -/
def fieldNames (spec : TemplateSpec) : List String :=
  (((Text.pieces ',' spec.operands.toList).map Text.trim).filter (· ≠ [])).map String.ofList

end TemplateSpec

structure Template where
  name : String
  category : Category
  extension : Extensions
  destination : Option RegisterFile
  sources : List (Slot × OperandType)
  nodup : (sources.map Prod.fst).Nodup
  deriving DecidableEq

namespace Template

def bare (name : String) (category : Category) (extension : Extensions) : Template :=
  { name, category, extension, destination := none, sources := [], nodup := List.nodup_nil }

def add (t : Template) (field : String) : Except CatalogFlaw Template :=
  match TemplateField.ofName? field with
  | none => throw (.unknownField t.name field)
  | some (.target file) =>
    if t.destination.isSome then throw (.secondDestination t.name)
    else return { t with destination := some file }
  | some (.source slot type) =>
    if h : slot ∈ t.sources.map Prod.fst then throw (.repeatedSlot t.name slot)
    else
      return { t with
        sources := t.sources ++ [(slot, type)]
        nodup := by
          rw [List.map_append, List.nodup_append]
          refine ⟨t.nodup, by simp, ?_⟩
          rintro a ha b hb rfl
          simp only [List.map_cons, List.map_nil, List.mem_singleton] at hb
          exact h (hb ▸ ha) }

def ofSpec (spec : TemplateSpec) : Except CatalogFlaw Template :=
  spec.fieldNames.foldlM add (bare spec.name spec.category spec.extension)

theorem name_add {t t' : Template} {field : String} (h : t.add field = .ok t') :
    t'.name = t.name := by
  unfold add at h
  split at h
  · simp at h
  · split at h
    · simp at h
    · rw [except_pure_ok] at h
      exact h ▸ rfl
  · split at h
    · simp at h
    · rw [except_pure_ok] at h
      exact h ▸ rfl

theorem ofSpec_name {spec : TemplateSpec} {t : Template} (h : ofSpec spec = .ok t) :
    t.name = spec.name :=
  except_foldlM_ok (P := fun t => t.name = spec.name) h rfl
    fun _ _ _ _ hname hadd => (name_add hadd).trans hname

/-- A fresh instruction with every slot open. -/
def instruction (t : Template) : Instruction where
  name := t.name
  category := t.category
  extension := t.extension
  destination := t.destination.map fun file => { slot := .rd, type := .register file }
  sources := t.sources.map fun source => { slot := source.1, type := source.2 }

end Template
end PlanLowering
