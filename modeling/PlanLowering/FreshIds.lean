import PlanLowering.IdMap

/-! # Fresh ids

Counters behind the names of values, pages and labels. Each family has a spelling of its own.
-/

namespace PlanLowering

structure FreshIds where
  values : Nat := 0
  /-- Data and code pages share this counter. -/
  pages : Nat := 0
  labels : Nat := 0
  stems : IdMap Nat := {}

namespace FreshIds

def value (ids : FreshIds) : Id × FreshIds :=
  (s!"r{ids.values}", { ids with values := ids.values + 1 })

def dataPage (ids : FreshIds) : Id × FreshIds :=
  (s!"mem{ids.pages}", { ids with pages := ids.pages + 1 })

def codePage (ids : FreshIds) : Id × FreshIds :=
  (s!"code_mem{ids.pages}", { ids with pages := ids.pages + 1 })

def label (ids : FreshIds) : Id × FreshIds :=
  (s!"L{ids.labels}", { ids with labels := ids.labels + 1 })

def named (stem : String) (ids : FreshIds) : Id × FreshIds :=
  let count := (ids.stems.get? stem).getD 0
  (s!"{stem}_{count}", { ids with stems := ids.stems.insert stem (count + 1) })

end FreshIds
end PlanLowering
