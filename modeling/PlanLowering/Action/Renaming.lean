import PlanLowering.Action.Describe
import PlanLowering.LoweringError

/-! # Renaming actions

An action refers to values and pages by the ids in its register fields. A renaming replaces
those and the action's own id, and nothing else.
-/

namespace PlanLowering

namespace Access

def ids (a : Access) : List Id := (a.memory.map Address.id).toList ++ a.base.toList

def mapIds (f : Id → Id) (a : Access) : Access :=
  { a with
    memory := a.memory.map fun
      | .page id => .page (f id)
      | .symbol id => .symbol (f id)
      | .value id => .value (f id)
    base := a.base.map f }

end Access

namespace PteTarget

def ids (t : PteTarget) : List Id := t.memory :: t.src.toList

def mapIds (f : Id → Id) (t : PteTarget) : PteTarget :=
  { t with memory := f t.memory, src := t.src.map f }

end PteTarget

namespace Op

def fieldNames : Op → List String
  | .arithmetic _ => ["src1", "src2"]
  | .moveToT2 _ => ["src"]
  | .moveFromT2 _ => ["src"]
  | .load _ => ["memory", "rs1"]
  | .store .. => ["value", "memory", "rs1"]
  | .call .. => ["target", "rs1"]
  | .csrWrite _ => ["src"]
  | .compare .. => ["lhs", "rhs"]
  | .readPte _ => ["memory"]
  | .writePte _ => ["memory", "src"]
  | .modifyPte .. => ["memory"]
  | _ => []

/-- The ids held at present, field by field. -/
def ids : Op → List Id
  | .arithmetic a => a.src1.toList ++ a.src2.toList
  | .moveToT2 src => [src]
  | .moveFromT2 src => [src]
  | .load access => access.ids
  | .store access value => value.toList ++ access.ids
  | .call target base => target :: base.toList
  | .csrWrite w => w.src.toList
  | .compare _ lhs rhs _ => [lhs, rhs]
  | .readPte target => target.ids
  | .writePte target => target.ids
  | .modifyPte page _ _ => [page]
  | _ => []

def mapIds (f : Id → Id) : Op → Op
  | .arithmetic a => .arithmetic { a with src1 := a.src1.map f, src2 := a.src2.map f }
  | .moveToT2 src => .moveToT2 (f src)
  | .moveFromT2 src => .moveFromT2 (f src)
  | .load access => .load (access.mapIds f)
  | .store access value => .store (access.mapIds f) (value.map f)
  | .call target base => .call (f target) (base.map f)
  | .csrWrite w => .csrWrite { w with src := w.src.map f }
  | .compare relation lhs rhs pass => .compare relation (f lhs) (f rhs) pass
  | .readPte target => .readPte (target.mapIds f)
  | .writePte target => .writePte (target.mapIds f)
  | .modifyPte page level recursive => .modifyPte (f page) level recursive
  | op => op

theorem ids_mapIds (f : Id → Id) (op : Op) : (op.mapIds f).ids = op.ids.map f := by
  have access (a : Access) : (a.mapIds f).ids = a.ids.map f := by
    cases hm : a.memory with
    | none => cases hb : a.base <;> simp [Access.ids, Access.mapIds, hm, hb]
    | some m =>
      cases m <;> cases hb : a.base <;> simp [Access.ids, Access.mapIds, Address.id, hm, hb]
  have target (t : PteTarget) : (t.mapIds f).ids = t.ids.map f := by
    cases hs : t.src <;> simp [PteTarget.ids, PteTarget.mapIds, hs]
  cases op with
  | arithmetic a => cases h₁ : a.src1 <;> cases h₂ : a.src2 <;> simp [mapIds, ids, h₁, h₂]
  | store a value => cases value <;> simp [mapIds, ids, access]
  | call t base => cases base <;> simp [mapIds, ids]
  | csrWrite w => cases h : w.src <;> simp [mapIds, ids, h]
  | _ => simp [mapIds, ids, access, target]

end Op

/-- The new name of an id; ids that are not in the map name things defined elsewhere. -/
def renamed (map : IdMap Id) (id : Id) : Id := (map.get? id).getD id

theorem renamed_of_get? {map : IdMap Id} {id new : Id} (h : map.get? id = some new) :
    renamed map id = new := by
  rw [renamed, h, Option.getD_some]

theorem renamed_of_unknown {map : IdMap Id} {id : Id} (h : map.get? id = none) :
    renamed map id = id := by
  rw [renamed, h, Option.getD_none]

namespace Action

def fieldNames : Action → List String
  | .simple _ _ op => op.fieldNames
  | .block .. => []

def ids : Action → List Id
  | .simple _ _ op => op.ids
  | .block .. => []

/-- The action's own id must be in the map. Nested code is left alone. -/
def rename (map : IdMap Id) (a : Action) : Except LoweringError Action :=
  match map.get? a.id with
  | none => throw (.undefinedId a.id a.describe)
  | some id => match a with
    | .simple _ expanded op => return .simple id expanded (op.mapIds (renamed map))
    | .block _ expanded owner code => return .block id expanded owner code

end Action
end PlanLowering
