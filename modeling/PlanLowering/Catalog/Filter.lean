import PlanLowering.Catalog.Template

/-! # Constraints on templates -/

namespace PlanLowering

/-- Each constraint that is given must hold. -/
structure TemplateFilter where
  category : Option Category := none
  registerSources : Option Nat := none
  hasImmediate : Option Bool := none
  excluded : Extensions := .none
  sourceType : Option OperandType := none
  destinationType : Option OperandType := none
  deriving DecidableEq, Repr

namespace TemplateFilter

def cast (source target : OperandType) : TemplateFilter :=
  { category := some .cast, sourceType := some source, destinationType := some target }

def allows {α : Type} [DecidableEq α] (constraint : Option α) (value : α) : Bool :=
  constraint.all (· = value)

def accepts (filter : TemplateFilter) (t : Template) : Bool :=
  let i := t.instruction
  allows filter.category i.category &&
  allows filter.registerSources i.registerSources &&
  allows filter.hasImmediate i.hasImmediate &&
  !i.extension.intersects filter.excluded &&
  filter.sourceType.all (fun type =>
    ((i.sources.find? (·.type.isRegister)).map Operand.type) = some type) &&
  filter.destinationType.all (fun type => i.destination.map Operand.type = some type)

def parts (filter : TemplateFilter) : List String :=
  (filter.category.map fun c => "category=" ++ c.title).toList ++
  (filter.registerSources.map fun n => s!"source_reg_count={n}").toList ++
  (filter.hasImmediate.map fun b => s!"has_immediate={b}").toList ++
  (if filter.excluded = .none then [] else [s!"exclude=Extensions({filter.excluded.text})"]) ++
  (filter.sourceType.map fun t => "source_type=" ++ t.name).toList ++
  (filter.destinationType.map fun t => "destination_type=" ++ t.name).toList

def text (filter : TemplateFilter) : String :=
  "\x7b" ++ ", ".intercalate filter.parts ++ "\x7d"

end TemplateFilter
end PlanLowering
