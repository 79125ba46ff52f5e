import PlanLowering.IdMap
import PlanLowering.Json.Reader
import PlanLowering.Json.Record
import PlanLowering.LoweringError

/-! # The instruction catalog

Templates stand in the order of their declaration, and an index says of every name where its
template stands. Templates are looked up through the index and queried in their order.
-/

namespace PlanLowering

def Catalog.kept (xlen : Xlen) (spec : TemplateSpec) : Bool := !(spec.rv64Only && xlen = .rv32)

structure TemplateTable where
  templates : List Template := []
  byName : IdMap Nat := {}

namespace TemplateTable

/-- One more declaration, unless it is none for the register width. Its name goes into the index
before its template goes behind the others. -/
def declare (xlen : Xlen) (table : TemplateTable) (spec : TemplateSpec) :
    Except CatalogFlaw TemplateTable :=
  if Catalog.kept xlen spec then do
    let t ← Template.ofSpec spec
    let byName := table.byName.insert spec.name table.templates.length
    if table.byName.contains spec.name then throw (.duplicateTemplate spec.name)
    return { templates := table.templates ++ [t], byName }
  else return table

/-- The index leads from the name of each template to its place, and nowhere else. -/
def Indexed (table : TemplateTable) : Prop :=
  table.byName.entries = (table.templates.map Template.name).zipIdx

variable {table table' : TemplateTable} {xlen : Xlen} {spec : TemplateSpec}

theorem declare_ok : table.declare xlen spec = .ok table' ↔
    Catalog.kept xlen spec = false ∧ table = table' ∨
      Catalog.kept xlen spec ∧ ∃ t, Template.ofSpec spec = .ok t ∧
        table.byName.contains spec.name = false ∧
        { templates := table.templates ++ [t],
          byName := table.byName.insert spec.name table.templates.length } = table' := by
  unfold declare
  cases Catalog.kept xlen spec <;> cases table.byName.contains spec.name <;> simp

theorem Indexed.empty : Indexed {} := rfl

/-- A declaration keeps the index and the templates in step. -/
theorem Indexed.declare (h : table.Indexed) (hrun : table.declare xlen spec = .ok table') :
    table'.Indexed := by
  rcases declare_ok.1 hrun with ⟨_, rfl⟩ | ⟨_, t, ht, hnew, rfl⟩
  · exact h
  · have hnone : table.byName.get? spec.name = none := by simpa [IdMap.contains] using hnew
    rw [Indexed, IdMap.entries_insert hnone, h]
    simp [List.zipIdx_append, Template.ofSpec_name ht]

/-- So do any declarations, in whatever order they are kept and skipped. -/
theorem Indexed.declares {specs : List TemplateSpec} (h : table.Indexed)
    (hrun : specs.foldlM (TemplateTable.declare xlen) table = .ok table') : table'.Indexed :=
  except_foldlM_ok hrun h fun _ _ _ _ hindexed hstep => hindexed.declare hstep

theorem Indexed.nodup (h : table.Indexed) : (table.templates.map Template.name).Nodup := by
  have hkeys := table.byName.nodup
  rwa [h, List.zipIdx_map_fst] at hkeys

theorem Indexed.eq (h : table.Indexed) (h' : table'.Indexed)
    (htemplates : table.templates = table'.templates) : table = table' := by
  obtain ⟨templates, ⟨entries, _⟩⟩ := table
  obtain ⟨templates', ⟨entries', _⟩⟩ := table'
  obtain rfl : templates = templates' := htemplates
  obtain rfl : entries = entries' := Eq.trans h (Eq.symm h')
  rfl

end TemplateTable

structure Catalog extends TemplateTable where
  indexed : toTemplateTable.Indexed

namespace Catalog

def empty : Catalog := ⟨{}, .empty⟩

theorem nodup (catalog : Catalog) : (catalog.templates.map Template.name).Nodup :=
  catalog.indexed.nodup

/-- The template called `name`. -/
def find? (catalog : Catalog) (name : String) : Option Template :=
  (catalog.byName.get? name).bind fun k => catalog.templates[k]?

/-- A fresh instruction of the template called `name`. -/
def instruction (catalog : Catalog) (name : String) : Except LoweringError Instruction :=
  match catalog.find? name with
  | some t => return t.instruction
  | none => throw (.instructionNotFound name)

/-- The templates that satisfy every constraint, in catalog order. -/
def filter (catalog : Catalog) (constraint : TemplateFilter) : List Template :=
  catalog.templates.filter constraint.accepts

def ofSpecs (specs : List TemplateSpec) (xlen : Xlen) : Except CatalogFlaw Catalog :=
  match h : specs.foldlM (TemplateTable.declare xlen) {} with
  | .ok table => .ok ⟨table, TemplateTable.Indexed.empty.declares h⟩
  | .error flaw => .error flaw

end Catalog

namespace TemplateSpec

def ofJson? (json : Json) : Option TemplateSpec := do
  match ← json.record? ["name", "operands", "category", "extension", "rv64_only"] with
  | [name, operands, category, extension, rv64Only] =>
    return {
      name := ← Json.required Json.str? name
      operands := ← Json.withDefault "" Json.str? operands
      category := ← Json.required (Json.choice? Category.choices) category
      extension := ← Json.withDefault .base (fun j => j.str?.bind Extensions.ofText?) extension
      rv64Only := ← Json.withDefault false Json.bool? rv64Only }
  | _ => none

end TemplateSpec

namespace Catalog

def ofJson (json : Json) (xlen : Xlen) : Except CatalogFlaw Catalog :=
  match json.list? TemplateSpec.ofJson? with
  | some specs => ofSpecs specs xlen
  | none => throw .unreadable

def read (text : String) (xlen : Xlen) : Except CatalogFlaw Catalog :=
  match Json.parse? text with
  | some json => ofJson json xlen
  | none => throw .unreadable

end Catalog
end PlanLowering
