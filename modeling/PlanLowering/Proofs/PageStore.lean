import Mathlib.Data.List.Nodup
import PlanLowering.Page.Registry

/-!
# The page registry as a store

Behind any calls the store holds exactly the reservations that succeeded, in their order, and each
of them was the first one under its id. Data and code pages share the ids, so an id leads to a page
of one kind. The places in the index and the pages are kept in step by each call.
-/

namespace PlanLowering

namespace PageStore

variable {store : PageStore} {kind : PageKind} {id key : Id} {spec : PageSpec} {page : Page}

namespace Coherent

theorem exists_page (h : store.Coherent) {place : PagePlace}
    (hplace : store.index.get? id = some place) :
    ∃ page, (store.pages place.kind)[place.position]? = some page ∧ page.name = id := by
  have hplaced : (id, place.position) ∈ store.placed place.kind :=
    List.mem_map.2 ⟨(id, place), by simpa using IdMap.mem_entries.2 hplace, rfl⟩
  rw [h, List.mem_zipIdx_iff_getElem?, List.getElem?_map] at hplaced
  exact Option.map_eq_some_iff.1 hplaced

theorem isLabel_iff (h : store.Coherent) :
    store.isLabel id ↔ ∃ found, store.entries.get? id = some found := by
  rw [isLabel, IdMap.contains_iff]
  simp only [entries, IdMap.get?_filterMap, Option.bind_eq_some_iff, Option.map_eq_some_iff]
  constructor
  · rintro ⟨place, hplace⟩
    obtain ⟨page, hpage, _⟩ := h.exists_page hplace
    exact ⟨_, place, hplace, page, hpage, rfl⟩
  · rintro ⟨_, place, hplace, _⟩
    exact ⟨place, hplace⟩

theorem page_ok (h : store.Coherent) : store.page kind id = .ok page ↔
    store.entries.get? id = some (kind, page.spec) ∧ page.name = id := by
  rw [entries, IdMap.get?_filterMap, PageStore.page]
  cases hplace : store.index.get? id with
  | none => simp
  | some place =>
    obtain ⟨found, hfound, rfl⟩ := h.exists_page hplace
    obtain ⟨other, position⟩ := place
    dsimp only at hfound ⊢
    by_cases hkind : other = kind
    · subst hkind
      obtain ⟨name, spec⟩ := page
      obtain ⟨name', spec'⟩ := found
      simp [hfound, pure, Except.pure, and_comm, eq_comm]
    · simp [hkind, hfound]

theorem entries_add (h : store.Coherent) (hnew : ¬ store.isLabel id) :
    (store.add kind id spec).entries.entries = store.entries.entries ++ [(id, kind, spec)] := by
  have hold : ∀ entry ∈ store.index.entries,
      ((store.add kind id spec).pages entry.2.kind)[entry.2.position]? =
        (store.pages entry.2.kind)[entry.2.position]? := by
    rintro ⟨key, place⟩ hentry
    obtain ⟨page, hpage, _⟩ := h.exists_page (IdMap.mem_entries.1 hentry)
    rw [pages_add]
    split
    · exact List.getElem?_append_left (List.getElem?_eq_some_iff.1 hpage).1
    · rfl
  simp only [entries, IdMap.filterMap, index_add, IdMap.entries_insert (get?_index hnew),
    List.filterMap_append]
  congr 1
  · exact List.filterMap_congr fun entry hentry => by rw [hold entry hentry]
  · simp [pages_add]

theorem pages_eq (h : store.Coherent) (kind : PageKind) :
    store.pages kind = store.entries.entries.filterMap fun (id, found, spec) =>
      if found = kind then some ⟨id, spec⟩ else none := by
  have hplaced : store.entries.entries.filterMap (fun (id, found, spec) =>
      if found = kind then some (⟨id, spec⟩ : Page) else none) =
      (store.placed kind).filterMap fun entry =>
        (store.pages kind)[entry.2]?.map fun page => ⟨entry.1, page.spec⟩ := by
    simp only [entries, IdMap.filterMap, placed, List.filterMap_filterMap, List.filterMap_map,
      List.filterMap_filter]
    refine List.filterMap_congr fun entry _ => ?_
    obtain ⟨id, other, position⟩ := entry
    by_cases hkind : other = kind
    · subst hkind
      cases hpage : (store.pages other)[position]? <;> simp [hpage]
    · cases (store.pages other)[position]? <;> simp [hkind]
  have hread : ∀ entry ∈ (store.pages kind).zipIdx,
      (store.pages kind)[entry.2]?.map (fun page => (⟨entry.1.name, page.spec⟩ : Page)) =
        some entry.1 := by
    rintro ⟨page, position⟩ hentry
    rw [List.mem_zipIdx_iff_getElem?] at hentry
    simp [hentry]
  rw [hplaced, h, List.zipIdx_map, List.filterMap_map]
  exact ((List.filterMap_congr hread).trans (by simp)).symm

end Coherent
end PageStore

namespace PageRegistry

variable {registry : PageRegistry} {kind : PageKind} {id key : Id} {spec : PageSpec}

theorem isLabel_iff : registry.isLabel id ↔ ∃ found, registry.entries.get? id = some found :=
  registry.coherent.isLabel_iff

theorem get?_entries (h : ¬ registry.isLabel id) : registry.entries.get? id = none := by
  rw [isLabel_iff, ← Option.ne_none_iff_exists', not_not] at h
  exact h

theorem entries_add (h : ¬ registry.isLabel id) :
    (registry.add kind id spec).entries.entries =
      registry.entries.entries ++ [(id, kind, spec)] := by
  rw [toPageStore_add h]
  exact registry.coherent.entries_add h

theorem get?_add (h : ¬ registry.isLabel id) : (registry.add kind id spec).entries.get? key =
    if key = id then some (kind, spec) else registry.entries.get? key := by
  rw [← IdMap.get?_insert, IdMap.get?, IdMap.get?, entries_add h,
    IdMap.entries_insert (get?_entries h)]

theorem isLabel_add : (registry.add kind id spec).isLabel key ↔ key = id ∨ registry.isLabel key := by
  by_cases hid : registry.isLabel id
  · rw [add, register_known hid]
    exact ⟨.inr, fun h => h.elim (fun hkey => hkey ▸ hid) fun h => h⟩
  · rw [isLabel_iff, get?_add hid, isLabel_iff]
    by_cases hkey : key = id <;> simp [hkey]

end PageRegistry

/-- A call that reserves pages under an id. -/
structure Reservation where
  kind : PageKind
  id : Id
  spec : PageSpec
  deriving DecidableEq, Repr

namespace Reservation

def page (r : Reservation) : Page := ⟨r.id, r.spec⟩

def entry (r : Reservation) : Id × PageKind × PageSpec := (r.id, r.kind, r.spec)

def make (r : Reservation) : EStateM LoweringError PageStore Unit :=
  PageStore.register r.kind r.id r.spec

/-- One more call of a run. The reservations that succeeded are kept in order; behind a call that
fails the run goes on with the store that the call left. -/
def next (sofar : PageStore × List Reservation) (r : Reservation) :
    PageStore × List Reservation :=
  match r.make sofar.1 with
  | .ok _ store => (store, sofar.2 ++ [r])
  | .error _ store => (store, sofar.2)

end Reservation

namespace PageStore

variable {store : PageStore} {kept : List Reservation}

/-- The store holds the reservations: each under an id of its own, found under its kind and id
and under no other, and listed in order. -/
structure Holds (store : PageStore) (kept : List Reservation) : Prop where
  single : (kept.map Reservation.id).Nodup
  label : ∀ id, store.isLabel id ↔ ∃! kind, ∃ page, store.page kind id = .ok page
  page : ∀ kind id page, store.page kind id = .ok page ↔
    ∃ r ∈ kept, r.kind = kind ∧ r.id = id ∧ r.page = page
  listed : ∀ kind, store.pages kind = (kept.filter (·.kind = kind)).map Reservation.page

theorem Coherent.label_iff_existsUnique (h : store.Coherent) (id : Id) :
    store.isLabel id ↔ ∃! kind, ∃ page, store.page kind id = .ok page := by
  rw [h.isLabel_iff]
  constructor
  · rintro ⟨⟨kind, spec⟩, hfound⟩
    refine ⟨kind, ⟨⟨id, spec⟩, h.page_ok.2 ⟨hfound, rfl⟩⟩, ?_⟩
    rintro other ⟨page, hpage⟩
    have hother := (h.page_ok.1 hpage).1
    rw [hfound] at hother
    exact (congrArg Prod.fst (Option.some.inj hother)).symm
  · rintro ⟨kind, ⟨page, hpage⟩, _⟩
    exact ⟨_, (h.page_ok.1 hpage).1⟩

theorem Coherent.holds (hstore : store.Coherent)
    (h : store.entries.entries = kept.map Reservation.entry) : store.Holds kept where
  single := by
    have hnodup := store.entries.nodup
    rw [h, List.map_map] at hnodup
    exact hnodup
  label := hstore.label_iff_existsUnique
  page := by
    intro kind id page
    rw [hstore.page_ok, ← IdMap.mem_entries, h, List.mem_map]
    constructor
    · rintro ⟨⟨r, hr, hentry⟩, hname⟩
      obtain ⟨rfl, rfl, hspec⟩ : r.id = id ∧ r.kind = kind ∧ r.spec = page.spec := by
        simpa [Reservation.entry] using hentry
      exact ⟨r, hr, rfl, rfl, by rw [Reservation.page, hspec, ← hname]⟩
    · rintro ⟨r, hr, rfl, rfl, rfl⟩
      exact ⟨⟨r, hr, rfl⟩, rfl⟩
  listed := by
    intro kind
    rw [hstore.pages_eq, h, List.filterMap_map, ← List.filterMap_eq_map, List.filterMap_filter]
    refine List.filterMap_congr fun r _ => ?_
    by_cases hkind : r.kind = kind <;> simp [Reservation.entry, Reservation.page, hkind]

end PageStore

namespace Reservation

variable {store : PageStore} {r : Reservation} {kept requests : List Reservation}

structure Steps (store : PageStore) (kept : List Reservation) : Prop where
  coherent : store.Coherent
  entries : store.entries.entries = kept.map entry

theorem Steps.empty : Steps {} [] := ⟨.empty, rfl⟩

theorem Steps.isLabel_iff (h : Steps store kept) (id : Id) :
    store.isLabel id ↔ id ∈ kept.map Reservation.id := by
  have hkeys : store.entries.entries.map Prod.fst = kept.map Reservation.id := by
    rw [h.entries, List.map_map]
    rfl
  rw [h.coherent.isLabel_iff, ← hkeys, ← Option.ne_none_iff_exists', Ne, IdMap.get?_eq_none,
    not_not]

theorem Steps.next (h : Steps store kept) (r : Reservation) :
    ∃ store' kept', Reservation.next (store, kept) r = (store', kept') ∧ Steps store' kept' ∧
      ∀ id, id ∈ kept'.map Reservation.id ↔ id ∈ kept.map Reservation.id ∨ id = r.id := by
  by_cases hknown : store.isLabel r.id
  · refine ⟨store, kept, ?_, h, fun id => ?_⟩
    · rw [Reservation.next, make, PageStore.register_known hknown]
    · refine ⟨.inl, fun hid => hid.elim (fun h => h) ?_⟩
      rintro rfl
      exact (h.isLabel_iff r.id).1 hknown
  · refine ⟨_, kept ++ [r], ?_, ⟨h.coherent.add hknown r.kind r.spec, ?_⟩, fun id => ?_⟩
    · rw [Reservation.next, make, PageStore.register_new hknown]
    · rw [h.coherent.entries_add hknown, h.entries, List.map_append]
      rfl
    · simp

theorem Steps.calls (h : Steps store kept) (requests : List Reservation) :
    ∃ store' kept', requests.foldl Reservation.next (store, kept) = (store', kept') ∧
      Steps store' kept' ∧ ∀ id, id ∈ kept'.map Reservation.id ↔
        id ∈ kept.map Reservation.id ∨ id ∈ requests.map Reservation.id := by
  induction requests generalizing store kept with
  | nil => exact ⟨store, kept, rfl, h, by simp⟩
  | cons r rest ih =>
    obtain ⟨store', kept', hnext, h', hids⟩ := h.next r
    obtain ⟨last, all, hrest, hlast, hall⟩ := ih h'
    refine ⟨last, all, by rw [List.foldl_cons, hnext, hrest], hlast, fun id => ?_⟩
    rw [hall, hids, List.map_cons, List.mem_cons, or_assoc]

/-- After any calls the store holds the reservations that succeeded, which are under the ids that
were asked for. A further call fails exactly where its id was asked for before, for a page of either
kind, and then leaves the store as it was. -/
theorem registry_holds_reservations (requests : List Reservation) :
    ∃ store kept, requests.foldl next ({}, []) = (store, kept) ∧ store.Holds kept ∧
      (∀ id, id ∈ kept.map Reservation.id ↔ id ∈ requests.map Reservation.id) ∧
      ∀ r : Reservation,
        (r.id ∈ requests.map Reservation.id →
          r.make store = .error (.duplicateId r.id .pages) store) ∧
        (r.id ∉ requests.map Reservation.id → ∃ larger, r.make store = .ok () larger) := by
  obtain ⟨store, kept, hcalls, h, hids⟩ := Steps.empty.calls requests
  simp only [List.map_nil, List.not_mem_nil, false_or] at hids
  refine ⟨store, kept, hcalls, h.coherent.holds h.entries, hids, fun r => ⟨?_, ?_⟩⟩
  · intro hknown
    exact PageStore.register_known ((h.isLabel_iff r.id).2 ((hids r.id).2 hknown))
  · intro hnew
    refine ⟨_, PageStore.register_new fun hlabel => hnew ?_⟩
    exact (hids r.id).1 ((h.isLabel_iff r.id).1 hlabel)

end Reservation
end PlanLowering
