import PlanLowering.LoweringError

/-! # The page registry

Data and code pages are kept apart, each in the order of their registration. Both kinds share one
space of ids, and an index says of every id where its page stands. The pages are read through the
index; `PageRegistry.entries` shows them as one map.
-/

namespace PlanLowering

inductive PageKind where
  | data | code
  deriving DecidableEq, Repr

structure Page where
  name : Id
  spec : PageSpec
  deriving DecidableEq, Repr

/-- A position among the pages of one kind. -/
structure PagePlace where
  kind : PageKind
  position : Nat
  deriving DecidableEq, Repr

structure PageStore where
  data : List Page := []
  code : List Page := []
  index : IdMap PagePlace := {}

namespace PageStore

def pages (store : PageStore) : PageKind → List Page
  | .data => store.data
  | .code => store.code

/-- Records the place of an id that has none. -/
def claim (id : Id) (place : PagePlace) : EStateM LoweringError PageStore Unit := do
  if (← get).index.contains id then throw (.duplicateId id .pages)
  modify fun store => { store with index := store.index.insert id place }

def push (store : PageStore) (page : Page) : PageKind → PageStore
  | .data => { store with data := store.data ++ [page] }
  | .code => { store with code := store.code ++ [page] }

/-- The place is recorded before the page is put there. -/
def register (kind : PageKind) (id : Id) (spec : PageSpec) :
    EStateM LoweringError PageStore Unit := do
  let store ← get
  claim id ⟨kind, (store.pages kind).length⟩
  modify (·.push ⟨id, spec⟩ kind)

def page (store : PageStore) (kind : PageKind) (id : Id) : Except LoweringError Page :=
  match store.index.get? id with
  | some place =>
    if place.kind = kind then
      match (store.pages kind)[place.position]? with
      | some page => return page
      | none => throw (.pageNotFound id)
    else throw (.pageNotFound id)
  | none => throw (.pageNotFound id)

/-- The id names a page of either kind. -/
def isLabel (store : PageStore) (id : Id) : Bool := store.index.contains id

/-- All pages as one map, read through the index. -/
def entries (store : PageStore) : IdMap (PageKind × PageSpec) :=
  store.index.filterMap fun place =>
    (store.pages place.kind)[place.position]?.map fun page => (place.kind, page.spec)

def placed (store : PageStore) (kind : PageKind) : List (Id × Nat) :=
  (store.index.entries.filter (·.2.kind = kind)).map fun entry => (entry.1, entry.2.position)

/-- The index leads to each page under its name, and nowhere else. -/
def Coherent (store : PageStore) : Prop :=
  ∀ kind, store.placed kind = ((store.pages kind).map Page.name).zipIdx

def add (store : PageStore) (kind : PageKind) (id : Id) (spec : PageSpec) : PageStore :=
  { store with index := store.index.insert id ⟨kind, (store.pages kind).length⟩ }.push
    ⟨id, spec⟩ kind

variable {store : PageStore} {kind : PageKind} {id : Id} {spec : PageSpec}

theorem claim_known {place : PagePlace} (h : store.isLabel id) :
    claim id place store = .error (.duplicateId id .pages) store := by
  show (ite (store.index.contains id) _ _ : EStateM LoweringError PageStore Unit) store = _
  rw [if_pos (show store.index.contains id from h)]
  rfl

theorem claim_new {place : PagePlace} (h : ¬ store.isLabel id) :
    claim id place store = .ok () { store with index := store.index.insert id place } := by
  show (ite (store.index.contains id) _ _ : EStateM LoweringError PageStore Unit) store = _
  rw [if_neg (show ¬ store.index.contains id from h)]
  rfl

theorem register_known (h : store.isLabel id) :
    register kind id spec store = .error (.duplicateId id .pages) store := by
  show EStateM.bind (claim id ⟨kind, (store.pages kind).length⟩) _ store = _
  rw [EStateM.bind, claim_known h]

theorem register_new (h : ¬ store.isLabel id) :
    register kind id spec store = .ok () (store.add kind id spec) := by
  show EStateM.bind (claim id ⟨kind, (store.pages kind).length⟩) _ store = _
  rw [EStateM.bind, claim_new h]
  rfl

@[simp] theorem index_add : (store.add kind id spec).index =
    store.index.insert id ⟨kind, (store.pages kind).length⟩ := by
  cases kind <;> rfl

theorem pages_add (other : PageKind) : (store.add kind id spec).pages other =
    if kind = other then store.pages other ++ [⟨id, spec⟩] else store.pages other := by
  cases kind <;> cases other <;> rfl

theorem get?_index (h : ¬ store.isLabel id) : store.index.get? id = none := by
  simpa [isLabel, IdMap.contains] using h

theorem Coherent.empty : Coherent {} := by
  intro kind
  cases kind <;> rfl

theorem Coherent.add (h : store.Coherent) (hnew : ¬ store.isLabel id) (kind : PageKind)
    (spec : PageSpec) : (store.add kind id spec).Coherent := by
  intro other
  rw [placed, index_add, IdMap.entries_insert (get?_index hnew), pages_add, List.filter_append,
    List.map_append, ← placed, h other]
  by_cases hkind : kind = other
  · subst hkind
    simp [List.zipIdx_append]
  · simp [hkind]

/-- A registration keeps the index and the pages in step, be it done or refused. -/
theorem Coherent.register (h : store.Coherent) (kind : PageKind) (id : Id) (spec : PageSpec) :
    match PageStore.register kind id spec store with
    | .ok _ next => next.Coherent
    | .error _ next => next.Coherent := by
  by_cases hknown : store.isLabel id
  · rw [register_known hknown]
    exact h
  · rw [register_new hknown]
    exact h.add hknown kind spec

end PageStore

structure PageRegistry extends PageStore where
  coherent : toPageStore.Coherent

namespace PageRegistry

def empty : PageRegistry := ⟨{}, PageStore.Coherent.empty⟩

instance : EmptyCollection PageRegistry := ⟨empty⟩

def register (registry : PageRegistry) (kind : PageKind) (id : Id) (spec : PageSpec) :
    EStateM.Result LoweringError PageRegistry Unit :=
  have h := registry.coherent.register kind id spec
  match hrun : PageStore.register kind id spec registry.toPageStore with
  | .ok _ store => .ok () ⟨store, by rw [hrun] at h; exact h⟩
  | .error e store => .error e ⟨store, by rw [hrun] at h; exact h⟩

/-- The registry with one page more, unless its id is taken. -/
def add (registry : PageRegistry) (kind : PageKind) (id : Id) (spec : PageSpec) : PageRegistry :=
  match registry.register kind id spec with
  | .ok _ next => next
  | .error _ next => next

variable {registry : PageRegistry} {kind : PageKind} {id : Id} {spec : PageSpec}

theorem register_known (h : registry.isLabel id) :
    registry.register kind id spec = .error (.duplicateId id .pages) registry := by
  unfold register
  split
  · next hrun =>
    rw [PageStore.register_known h] at hrun
    cases hrun
  · next hrun =>
    rw [PageStore.register_known h] at hrun
    cases hrun
    rfl

theorem register_new (h : ¬ registry.isLabel id) :
    registry.register kind id spec = .ok () (registry.add kind id spec) := by
  unfold add
  cases hrun : registry.register kind id spec with
  | ok _ next => rfl
  | error e next =>
    unfold register at hrun
    split at hrun
    · cases hrun
    · next hstore =>
      rw [PageStore.register_new h] at hstore
      cases hstore

theorem toPageStore_add (h : ¬ registry.isLabel id) :
    (registry.add kind id spec).toPageStore = registry.toPageStore.add kind id spec := by
  have hrun : registry.register kind id spec = .ok () (registry.add kind id spec) :=
    register_new h
  generalize registry.add kind id spec = next at hrun ⊢
  unfold register at hrun
  split at hrun
  · next hstore =>
    rw [PageStore.register_new h] at hstore
    cases hrun
    cases hstore
    rfl
  · cases hrun

end PageRegistry
end PlanLowering
