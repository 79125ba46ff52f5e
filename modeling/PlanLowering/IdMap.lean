/-! # Maps keyed by id

Entries stay in the order in which their keys were first inserted, and no key occurs twice.
-/

namespace PlanLowering

/-- Name of a step, value, page or label. -/
abbrev Id := String

structure IdMap (α : Type) where
  entries : List (Id × α)
  nodup : (entries.map Prod.fst).Nodup

namespace IdMap

variable {α : Type}

def empty : IdMap α := ⟨[], List.nodup_nil⟩

instance : EmptyCollection (IdMap α) := ⟨empty⟩

/-- Replaces the entry of a known key in place and appends a new one. -/
def put (key : Id) (value : α) : List (Id × α) → List (Id × α)
  | [] => [(key, value)]
  | entry :: rest =>
    if entry.1 = key then (key, value) :: rest else entry :: put key value rest

theorem mem_keys_put {key k : Id} {value : α} {entries : List (Id × α)} :
    k ∈ (put key value entries).map Prod.fst ↔ k = key ∨ k ∈ entries.map Prod.fst := by
  induction entries with
  | nil => simp [put]
  | cons entry rest ih => by_cases h : entry.1 = key <;> grind [put]

theorem nodup_put (key : Id) (value : α) {entries : List (Id × α)}
    (h : (entries.map Prod.fst).Nodup) : ((put key value entries).map Prod.fst).Nodup := by
  induction entries with
  | nil => simp [put]
  | cons entry rest ih =>
    have hr := (List.nodup_cons.1 h)
    by_cases he : entry.1 = key
    · rw [put, if_pos he]
      exact List.nodup_cons.2 ⟨by simpa [he] using hr.1, hr.2⟩
    · rw [put, if_neg he]
      refine List.nodup_cons.2 ⟨fun hm => ?_, ih hr.2⟩
      rcases mem_keys_put.1 hm with hk | hk
      · exact he hk
      · exact hr.1 hk

def get? (m : IdMap α) (key : Id) : Option α := m.entries.lookup key

def contains (m : IdMap α) (key : Id) : Bool := (m.get? key).isSome

def size (m : IdMap α) : Nat := m.entries.length

def insert (m : IdMap α) (key : Id) (value : α) : IdMap α :=
  ⟨put key value m.entries, nodup_put key value m.nodup⟩

def erase (m : IdMap α) (key : Id) : IdMap α where
  entries := m.entries.filter fun entry => entry.1 ≠ key
  nodup := m.nodup.sublist (List.filter_sublist.map Prod.fst)

theorem lookup_put (key k : Id) (value : α) (entries : List (Id × α)) :
    (put key value entries).lookup k = if k = key then some value else entries.lookup k := by
  induction entries with
  | nil => by_cases h : k = key <;> grind [put]
  | cons entry rest ih =>
    by_cases he : entry.1 = key <;> by_cases hk : k = key <;> grind [put]

@[simp] theorem get?_insert (m : IdMap α) (key k : Id) (value : α) :
    (m.insert key value).get? k = if k = key then some value else m.get? k :=
  lookup_put key k value m.entries

@[simp] theorem get?_empty (k : Id) : ({} : IdMap α).get? k = none := rfl

variable {m : IdMap α} {key k : Id} {value v : α}

@[simp] theorem entries_empty : ({} : IdMap α).entries = [] := rfl

theorem mem_entries : (k, v) ∈ m.entries ↔ m.get? k = some v := by
  have hnodup := m.nodup
  rw [get?]
  generalize m.entries = entries at hnodup
  induction entries with
  | nil => simp
  | cons entry rest ih =>
    obtain ⟨a, b⟩ := entry
    obtain ⟨hnew, hrest⟩ := List.nodup_cons.1 hnodup
    by_cases hk : k = a
    · subst hk
      have hv : (k, v) ∉ rest := fun hm => hnew (List.mem_map.2 ⟨_, hm, rfl⟩)
      simp [hv, eq_comm]
    · have hb : (k == a) = false := by simpa using hk
      simp [List.lookup_cons, hb, hk, ih hrest]

theorem get?_eq_none : m.get? k = none ↔ k ∉ m.entries.map Prod.fst := by
  constructor
  · intro h hk
    obtain ⟨entry, hentry, rfl⟩ := List.mem_map.1 hk
    rw [mem_entries.1 hentry] at h
    cases h
  · intro h
    cases hv : m.get? k with
    | none => rfl
    | some v => exact absurd (List.mem_map_of_mem (mem_entries.2 hv)) h

@[simp] theorem get?_erase (m : IdMap α) (key k : Id) :
    (m.erase key).get? k = if k = key then none else m.get? k := by
  by_cases hk : k = key
  · subst hk
    simp [get?_eq_none, erase]
  · rw [if_neg hk]
    apply Option.ext
    intro v
    simp [← mem_entries, erase, hk]

theorem contains_iff : m.contains k ↔ ∃ v, m.get? k = some v := by
  simp [contains, Option.isSome_iff_exists]

theorem entries_insert (h : m.get? key = none) :
    (m.insert key value).entries = m.entries ++ [(key, value)] := by
  rw [get?_eq_none] at h
  simp only [insert]
  generalize m.entries = entries at h
  induction entries with
  | nil => rfl
  | cons entry rest ih =>
    simp only [List.map_cons, List.mem_cons, not_or] at h
    rw [put, if_neg (Ne.symm h.1), ih h.2]
    rfl

theorem size_insert (h : m.get? key = none) : (m.insert key value).size = m.size + 1 := by
  simp [size, entries_insert h]

section FilterMap

variable {β : Type}

theorem keys_filterMap_sublist (f : α → Option β) (entries : List (Id × α)) :
    ((entries.filterMap fun entry => (f entry.2).map (entry.1, ·)).map Prod.fst).Sublist
      (entries.map Prod.fst) := by
  induction entries with
  | nil => exact .slnil
  | cons entry rest ih =>
    cases hf : f entry.2 with
    | none => simpa [hf] using ih.cons entry.1
    | some value => simpa [hf] using ih.cons_cons entry.1

/-- Drops the entries whose value leads to none. -/
def filterMap (f : α → Option β) (m : IdMap α) : IdMap β where
  entries := m.entries.filterMap fun entry => (f entry.2).map (entry.1, ·)
  nodup := m.nodup.sublist (keys_filterMap_sublist f m.entries)

@[simp] theorem get?_filterMap (f : α → Option β) (m : IdMap α) (k : Id) :
    (m.filterMap f).get? k = (m.get? k).bind f := by
  apply Option.ext
  intro value
  rw [← mem_entries, filterMap, Option.bind_eq_some_iff]
  simp only [List.mem_filterMap, Option.map_eq_some_iff, Prod.mk.injEq, ← mem_entries]
  constructor
  · rintro ⟨⟨k', v⟩, hv, value', hvalue, rfl, rfl⟩
    exact ⟨v, hv, hvalue⟩
  · rintro ⟨v, hv, hvalue⟩
    exact ⟨(k, v), hv, value, hvalue, rfl, rfl⟩

end FilterMap

end IdMap
end PlanLowering
