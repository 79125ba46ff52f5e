import Mathlib.Data.List.Duplicate
import PlanLowering.Proofs.FunctionIds
import PlanLowering.Proofs.IdSupply

/-!
# Canonical batches in closed form

Numbering, renaming and lifting walk the same tree. Numbering is a fold over the actions in
post-order, so the new ids are what the supply hands out along this order, and a test fails only at
an id that it has met before. Renaming and lifting then never fail.
-/

namespace PlanLowering

theorem Lower.bind_error {α β : Type} {context : Context} {s s' : State} {m : Lower α}
    {f : α → Lower β} {e : LoweringError} :
    (m >>= f) context s = .error e s' ↔ m context s = .error e s' ∨
      ∃ a next, m context s = .ok a next ∧ f a context next = .error e s' := by
  simp only [bind, ReaderT.bind, EStateM.bind]
  cases m context s with
  | error e' next => simp
  | ok a next => simp [and_assoc]

theorem get?_renamed {map : IdMap Id} {id : Id} (h : map.contains id) :
    map.get? id = some (renamed map id) := by
  obtain ⟨new, hnew⟩ := IdMap.contains_iff.1 h
  rw [hnew, renamed_of_get? hnew]

namespace Action

mutual

def postorder : Action → List Action
  | .simple id expanded op => [.simple id expanded op]
  | .block id expanded owner code => postorderAll code ++ [.block id expanded owner code]

def postorderAll : List Action → List Action
  | [] => []
  | a :: rest => a.postorder ++ postorderAll rest

end

def page? : Action → Option (PageKind × PageSpec)
  | .simple _ _ (.memory spec) => some (.data, spec)
  | .block _ _ (.codePage spec) _ => some (.code, spec)
  | _ => none

/-- The family that the action's new id is from. -/
def request (a : Action) : IdRequest :=
  match a.page? with
  | some (kind, _) => .page kind
  | none => .value

mutual

def mapIds (f : Id → Id) : Action → Action
  | .simple id expanded op => .simple (f id) expanded (op.mapIds f)
  | .block id expanded owner code => .block (f id) expanded owner (mapIdsAll f code)

def mapIdsAll (f : Id → Id) : List Action → List Action
  | [] => []
  | a :: rest => a.mapIds f :: mapIdsAll f rest

end

mutual

/-- What is left of the action where it stood, under new ids. Pages leave nothing behind. -/
def kept (f : Id → Id) : Action → List Action
  | .simple _ _ (.memory _) => []
  | .simple id expanded op => [.simple (f id) expanded (op.mapIds f)]
  | .block _ _ (.codePage _) _ => []
  | .block id expanded owner code => [.block (f id) expanded owner (keptAll f code)]

def keptAll (f : Id → Id) : List Action → List Action
  | [] => []
  | a :: rest => a.kept f ++ keptAll f rest

end

/-- A code page under new ids, without the pages nested in it. -/
def function? (f : Id → Id) : Action → Option Action
  | .block id expanded (.codePage spec) code =>
    some (.block (f id) expanded (.codePage spec) (keptAll f code))
  | _ => none

variable {f g : Id → Id} {a : Action} {actions : List Action}

@[simp] theorem postorderAll_append (xs ys : List Action) :
    postorderAll (xs ++ ys) = postorderAll xs ++ postorderAll ys := by
  induction xs with
  | nil => rfl
  | cons a rest ih => simp [postorderAll, ih]

theorem mem_postorderAll {b : Action} : b ∈ postorderAll actions ↔ ∃ a ∈ actions, b ∈ a.postorder := by
  induction actions with
  | nil => simp [postorderAll]
  | cons a rest ih => simp [postorderAll, ih]

theorem mem_postorder_self (a : Action) : a ∈ a.postorder := by
  cases a <;> simp [postorder]

@[simp] theorem id_mapIds (f : Id → Id) (a : Action) : (a.mapIds f).id = f a.id := by
  cases a <;> rfl

@[simp] theorem page?_mapIds (f : Id → Id) (a : Action) : (a.mapIds f).page? = a.page? := by
  cases a with
  | simple id expanded op => cases op <;> rfl
  | block id expanded owner code => cases owner <;> rfl

@[simp] theorem request_mapIds (f : Id → Id) (a : Action) : (a.mapIds f).request = a.request := by
  simp [request]

mutual

theorem postorder_mapIds (f : Id → Id) (a : Action) :
    (a.mapIds f).postorder = a.postorder.map (mapIds f) := by
  match a with
  | .simple id expanded op => rfl
  | .block id expanded owner code =>
    simp [mapIds, postorder, postorderAll_mapIds f code]

theorem postorderAll_mapIds (f : Id → Id) (actions : List Action) :
    postorderAll (mapIdsAll f actions) = (postorderAll actions).map (mapIds f) := by
  match actions with
  | [] => rfl
  | a :: rest =>
    simp [mapIdsAll, postorderAll, postorder_mapIds f a, postorderAll_mapIds f rest]

end

mutual

/-- Lifting renamed actions leaves what is kept, and the code pages in post-order. -/
theorem lift_mapIds (f : Id → Id) (a : Action) :
    (a.mapIds f).lift = (a.kept f, a.postorder.filterMap (function? f)) := by
  match a with
  | .simple id expanded op =>
    cases op <;> simp [mapIds, Op.mapIds, lift, kept, postorder, function?]
  | .block id expanded (.codePage spec) code =>
    simp [mapIds, lift, kept, postorder, function?, liftAll_mapIds f code]
  | .block id expanded (.assertException cause fault resume) code =>
    simp [mapIds, lift, kept, postorder, function?, liftAll_mapIds f code]

theorem liftAll_mapIds (f : Id → Id) (actions : List Action) :
    liftAll (mapIdsAll f actions) =
      (keptAll f actions, (postorderAll actions).filterMap (function? f)) := by
  match actions with
  | [] => rfl
  | a :: rest =>
    simp [mapIdsAll, liftAll, keptAll, postorderAll, lift_mapIds f a, liftAll_mapIds f rest]

end

section Rename

variable {map : IdMap Id}

theorem rename_simple {id : Id} {expanded : Bool} {op : Op} (h : map.contains id) :
    (Action.simple id expanded op).rename map =
      .ok (.simple (renamed map id) expanded (op.mapIds (renamed map))) := by
  simp only [rename, Action.id, get?_renamed h]
  rfl

theorem rename_block {id : Id} {expanded : Bool} {owner : Block} {code : List Action}
    (h : map.contains id) : (Action.block id expanded owner code).rename map =
      .ok (.block (renamed map id) expanded owner code) := by
  simp only [rename, Action.id, get?_renamed h]
  rfl

mutual

theorem renameDeep_run (a : Action) (h : ∀ b ∈ a.postorder, map.contains b.id) :
    a.renameDeep map = .ok (a.mapIds (renamed map)) := by
  match a with
  | .simple id expanded op =>
    have hown : map.contains id := h _ (mem_postorder_self _)
    rw [renameDeep, rename_simple hown, mapIds]
  | .block id expanded owner code =>
    have hown : map.contains id := h _ (mem_postorder_self _)
    have hcode := renameAll_run code fun c hc => h c (by simp [postorder, hc])
    rw [renameDeep, rename_block hown, hcode, mapIds]
    rfl

theorem renameAll_run (actions : List Action) (h : ∀ b ∈ postorderAll actions, map.contains b.id) :
    renameAll map actions = .ok (mapIdsAll (renamed map) actions) := by
  match actions with
  | [] => rfl
  | a :: rest =>
    simp only [postorderAll, List.forall_mem_append] at h
    rw [renameAll, renameDeep_run a h.1, renameAll_run rest h.2]
    rfl

end

end Rename

mutual

theorem number_eq_foldlM (scope : IdScope) (map : IdMap Id) (a : Action) :
    a.number scope map = a.postorder.foldlM (numberOwn scope) map := by
  match a with
  | .simple id expanded op => simp [number, postorder]
  | .block id expanded owner code =>
    simp [number, postorder, numberAll_eq_foldlM scope map code, List.foldlM_append]

theorem numberAll_eq_foldlM (scope : IdScope) (map : IdMap Id) (actions : List Action) :
    numberAll scope map actions = (postorderAll actions).foldlM (numberOwn scope) map := by
  match actions with
  | [] => simp [numberAll, postorderAll]
  | a :: rest =>
    simp [numberAll, postorderAll, number_eq_foldlM scope map a, List.foldlM_append,
      funext fun map => numberAll_eq_foldlM scope map rest]

end

end Action

namespace State

variable {s : State} {a : Action} {actions : List Action}

def PagesGiven (s : State) : Prop := ∀ id, s.pages.isLabel id → s.ids.Given id

theorem pagesGiven_start (options : Options) : (start options).PagesGiven := by
  intro id h
  obtain ⟨_, h⟩ := PageRegistry.isLabel_iff.1 h
  cases h

def claimPage (s : State) (id : Id) (a : Action) : PageRegistry :=
  match a.page? with
  | some (kind, spec) => s.pages.add kind id spec
  | none => s.pages

def claim (s : State) (a : Action) : State :=
  { s with
    ids := (a.request.next s.ids).2
    pages := s.claimPage (a.request.next s.ids).1 a }

theorem PagesGiven.claim (h : s.PagesGiven) (a : Action) : (s.claim a).PagesGiven := by
  intro id hid
  unfold State.claim claimPage at hid
  cases hpage : a.page? with
  | none => exact (h id (by simpa [hpage] using hid)).next a.request
  | some page =>
    rw [hpage] at hid
    rcases PageRegistry.isLabel_add.1 hid with rfl | hold
    · exact FreshIds.next_given
    · exact (h id hold).next a.request

theorem PagesGiven.claims (h : s.PagesGiven) (actions : List Action) :
    (actions.foldl State.claim s).PagesGiven := by
  induction actions generalizing s with
  | nil => exact h
  | cons a rest ih => exact ih (h.claim a)

theorem ids_claims (s : State) (actions : List Action) :
    (actions.foldl State.claim s).ids = s.ids.after (actions.map Action.request) := by
  induction actions generalizing s with
  | nil => rfl
  | cons a rest ih => simp [FreshIds.after, ih, claim]

theorem PagesGiven.next_unknown (h : s.PagesGiven) (r : IdRequest) :
    ¬ s.pages.isLabel (r.next s.ids).1 :=
  fun hlabel => FreshIds.next_not_given (h _ hlabel)

theorem entries_claim (h : s.PagesGiven) (a : Action) : (s.claim a).pages.entries.entries =
    s.pages.entries.entries ++ (a.page?.map ((a.request.next s.ids).1, ·)).toList := by
  unfold claim claimPage
  cases hpage : a.page? with
  | none => simp
  | some page => exact PageRegistry.entries_add (h.next_unknown a.request)

theorem entries_claims (h : s.PagesGiven) (actions : List Action) :
    (actions.foldl State.claim s).pages.entries.entries = s.pages.entries.entries ++
      (actions.zip (s.ids.handOut (actions.map Action.request))).filterMap fun (a, id) =>
        a.page?.map (id, ·) := by
  induction actions generalizing s with
  | nil => simp
  | cons a rest ih =>
    rw [List.foldl_cons, ih (h.claim a), entries_claim h a, List.append_assoc]
    congr 1
    cases hpage : a.page?.map ((a.request.next s.ids).1, ·) <;>
      simp [FreshIds.handOut, hpage, claim]

end State

namespace Action

variable {context : Context} {s s' : State} {scope : IdScope} {map : IdMap Id} {e : LoweringError}

/-- A new id is the next one of its family, and registering its page never fails. -/
theorem freshId_run (h : s.PagesGiven) (a : Action) :
    a.freshId context s = .ok (a.request.next s.ids).1 (s.claim a) := by
  have hpage : ∀ (kind : PageKind) (spec : PageSpec), (do
      let id ← Lower.fresh (IdRequest.page kind).next
      Lower.reserve kind id spec
      return id : Lower Id) context s = .ok ((IdRequest.page kind).next s.ids).1
        { s with
          ids := ((IdRequest.page kind).next s.ids).2
          pages := s.pages.add kind ((IdRequest.page kind).next s.ids).1 spec } := by
    intro kind spec
    simp only [Lower.bind_ok, Lower.fresh_ok, Lower.reserve_ok, Lower.pure_ok]
    exact ⟨_, _, ⟨rfl, rfl⟩, (), _, ⟨h.next_unknown _, rfl⟩, rfl, rfl⟩
  match a with
  | .simple id expanded op =>
    cases op with
    | memory spec => exact hpage .data spec
    | _ => rfl
  | .block id expanded (.codePage spec) code => exact hpage .code spec
  | .block id expanded (.assertException ..) code => rfl

theorem numberOwn_run (h : s.PagesGiven) {a : Action} (hnew : map.get? a.id = none) :
    a.numberOwn scope map context s =
      .ok (map.insert a.id (a.request.next s.ids).1) (s.claim a) := by
  have hcontains : map.contains a.id = false := by simp [IdMap.contains, hnew]
  simp only [numberOwn, hcontains]
  exact Lower.bind_ok.2 ⟨_, _, freshId_run h a, rfl⟩

theorem numberOwn_known {a : Action} (hknown : map.contains a.id) :
    a.numberOwn scope map context s = .error (.duplicateId a.id scope) s := by
  simp only [numberOwn, hknown]
  rfl

/-- Actions of distinct ids that are not in the map are put behind its entries. -/
theorem foldlM_numberOwn_run {actions : List Action} (h : s.PagesGiven)
    (hnodup : (map.entries.map Prod.fst ++ actions.map Action.id).Nodup) :
    ∃ map', actions.foldlM (numberOwn scope) map context s =
        .ok map' (actions.foldl State.claim s) ∧
      map'.entries = map.entries ++
        (actions.map Action.id).zip (s.ids.handOut (actions.map request)) := by
  induction actions generalizing map s with
  | nil => exact ⟨map, rfl, by simp⟩
  | cons a rest ih =>
    have hnew : map.get? a.id = none := by
      rw [IdMap.get?_eq_none]
      intro hmem
      exact (List.nodup_append.1 hnodup).2.2 a.id hmem a.id List.mem_cons_self rfl
    have hentries : (map.insert a.id (a.request.next s.ids).1).entries =
        map.entries ++ [(a.id, (a.request.next s.ids).1)] := IdMap.entries_insert hnew
    have hrest : ((map.insert a.id (a.request.next s.ids).1).entries.map Prod.fst ++
        rest.map Action.id).Nodup := by simpa [hentries] using hnodup
    obtain ⟨map', hrun, hmap'⟩ := ih (h.claim a) hrest
    refine ⟨map', ?_, ?_⟩
    · rw [List.foldlM_cons, Lower.bind_ok]
      exact ⟨_, _, numberOwn_run h hnew, hrun⟩
    · rw [hmap', hentries]
      simp [FreshIds.handOut, State.claim]

theorem foldlM_numberOwn_nodup {actions : List Action} {map' : IdMap Id}
    (h : actions.foldlM (numberOwn scope) map context s = .ok map' s') :
    (map.entries.map Prod.fst ++ actions.map Action.id).Nodup := by
  induction actions generalizing map s with
  | nil => simpa using map.nodup
  | cons a rest ih =>
    rw [List.foldlM_cons, Lower.bind_ok] at h
    obtain ⟨_, _, hown, hrest⟩ := h
    obtain ⟨new, hnew, _, rfl⟩ := numberOwn_ok hown
    simpa [IdMap.entries_insert hnew] using ih hrest

theorem foldlM_numberOwn_error {actions : List Action} (h : s.PagesGiven)
    (herror : actions.foldlM (numberOwn scope) map context s = .error e s') :
    ∃ id, List.Duplicate id (map.entries.map Prod.fst ++ actions.map Action.id) ∧
      e = .duplicateId id scope := by
  induction actions generalizing map s with
  | nil => cases herror
  | cons a rest ih =>
    rw [List.foldlM_cons, Lower.bind_error] at herror
    cases hget : map.get? a.id with
    | none =>
      rcases herror with herror | ⟨map', next, hrun, herror⟩
      · rw [numberOwn_run h hget] at herror
        cases herror
      · rw [numberOwn_run h hget] at hrun
        cases hrun
        obtain ⟨id, hid, rfl⟩ := ih (h.claim a) herror
        exact ⟨id, by simpa [IdMap.entries_insert hget] using hid, rfl⟩
    | some new =>
      have hknown : map.contains a.id := IdMap.contains_iff.2 ⟨new, hget⟩
      have hkey : a.id ∈ map.entries.map Prod.fst := List.mem_map_of_mem (IdMap.mem_entries.2 hget)
      rcases herror with herror | ⟨map', next, hrun, _⟩
      · rw [numberOwn_known hknown] at herror
        cases herror
        refine ⟨a.id, ?_, rfl⟩
        rw [List.duplicate_iff_two_le_count, List.count_append, List.map_cons, List.count_cons_self]
        have := List.count_pos_iff.2 hkey
        omega
      · rw [numberOwn_known hknown] at hrun
        cases hrun

end Action
end PlanLowering
