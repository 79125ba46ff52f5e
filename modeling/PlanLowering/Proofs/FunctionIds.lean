import Mathlib.Data.List.Nodup
import PlanLowering.Proofs.PageStore
import PlanLowering.Proofs.StateFrame

/-!
# Functions have names of their own

Each code page is renamed to an id that the page registry had not seen. The functions lifted out
of a batch keep these ids, so no two of them share one.
-/

namespace PlanLowering

def FreshIds.NamesPage (id : Id) : Prop := ∃ k : Nat, id = s!"code_mem{k}"

open Lower (Moves Frame)

section Frame

variable {R : State → State → Prop} [Frame R]

theorem Action.freshId_moves (a : Action) : Moves R a.freshId := by
  unfold Action.freshId
  split
  · exact .bind .freshDataPage fun _ => .bind (.reserve _ _ _) fun _ => .pure _
  · exact .bind .freshCodePage fun _ => .bind (.reserve _ _ _) fun _ => .pure _
  · exact .freshValue

theorem Action.numberOwn_moves (scope : IdScope) (map : IdMap Id) (a : Action) :
    Moves R (a.numberOwn scope map) := by
  unfold Action.numberOwn
  split
  · exact .throw_bind _ _
  · exact .bind (freshId_moves a) fun _ => .pure _

mutual

theorem Action.number_moves (scope : IdScope) (map : IdMap Id) (a : Action) :
    Moves R (a.number scope map) := by
  match a with
  | .simple id expanded op => rw [Action.number]; exact numberOwn_moves _ _ _
  | .block id expanded owner code =>
    rw [Action.number]
    exact .bind (numberAll_moves scope map code) fun _ => numberOwn_moves _ _ _

theorem Action.numberAll_moves (scope : IdScope) (map : IdMap Id) (actions : List Action) :
    Moves R (Action.numberAll scope map actions) := by
  match actions with
  | [] => rw [Action.numberAll]; exact .pure _
  | a :: rest =>
    rw [Action.numberAll]
    exact .bind (number_moves scope map a) fun _ => numberAll_moves scope _ rest

end

theorem CanonicalBatch.ofTests_moves (tests : List TestCase) :
    Moves R (CanonicalBatch.ofTests tests) := by
  induction tests with
  | nil => exact .pure _
  | cons test rest ih =>
    exact .bind (.bind (Action.numberAll_moves _ _ _) fun _ => .bind (.ofExcept _) fun _ =>
      .pure _) fun _ => .bind ih fun _ => .pure _

end Frame

namespace Action

mutual

def codePages : Action → List Id
  | .simple .. => []
  | .block id _ (.codePage _) code => codePagesAll code ++ [id]
  | .block _ _ (.assertException ..) code => codePagesAll code

def codePagesAll : List Action → List Id
  | [] => []
  | a :: rest => a.codePages ++ codePagesAll rest

end

mutual

theorem lift_ids (a : Action) : a.lift.2.map Action.id = a.codePages := by
  match a with
  | .simple id expanded op => cases op <;> simp [lift, codePages]
  | .block id expanded (.codePage spec) code =>
    simp [lift, codePages, liftAll_ids code, Action.id]
  | .block id expanded (.assertException ..) code => simp [lift, codePages, liftAll_ids code]

theorem liftAll_ids (actions : List Action) :
    (liftAll actions).2.map Action.id = codePagesAll actions := by
  match actions with
  | [] => rfl
  | a :: rest => simp [liftAll, codePagesAll, lift_ids a, liftAll_ids rest]

end

variable {map map' : IdMap Id} {scope : IdScope} {context : Context} {state state' : State}

mutual

theorem renameDeep_codePages {a a' : Action} (h : a.renameDeep map = .ok a') :
    a'.codePages = a.codePages.map (renamed map) := by
  match a with
  | .simple id expanded op =>
    simp only [renameDeep, rename] at h
    split at h
    · simp at h
    · rw [except_pure_ok] at h
      subst h
      rfl
  | .block id expanded owner code =>
    simp only [renameDeep, except_bind_ok, except_pure_ok] at h
    obtain ⟨named, hnamed, code', hcode, rfl⟩ := h
    have hnested := renameAll_codePages hcode
    have hid : named.id = renamed map id := by
      unfold rename at hnamed
      split at hnamed
      · simp at hnamed
      · next new hnew =>
        rw [except_pure_ok] at hnamed
        subst hnamed
        exact (renamed_of_get? hnew).symm
    cases owner with
    | codePage spec => simp [codePages, hnested, hid]
    | assertException cause fault resume => simp [codePages, hnested]

theorem renameAll_codePages {actions actions' : List Action}
    (h : renameAll map actions = .ok actions') :
    codePagesAll actions' = (codePagesAll actions).map (renamed map) := by
  match actions with
  | [] =>
    simp only [renameAll, except_pure_ok] at h
    subst h
    rfl
  | a :: rest =>
    simp only [renameAll, except_bind_ok, except_pure_ok] at h
    obtain ⟨a', ha, more, hmore, rfl⟩ := h
    simp [codePagesAll, renameDeep_codePages ha, renameAll_codePages hmore]

end

/-- The ids are distinct pages that were registered between the two states. -/
structure Claims (s t : State) (ids : List Id) : Prop where
  spelled : ∀ id ∈ ids, FreshIds.NamesPage id
  nodup : ids.Nodup
  unknown : ∀ id ∈ ids, s.pages.isLabel id = false
  held : ∀ id ∈ ids, t.pages.isLabel id
  grows : ∀ id, s.pages.isLabel id → t.pages.isLabel id

theorem Claims.nil {s t : State} (h : ∀ id, s.pages.isLabel id → t.pages.isLabel id) :
    Claims s t [] := ⟨by simp, List.nodup_nil, by simp, by simp, h⟩

theorem Claims.append {s t u : State} {xs ys : List Id} (hx : Claims s t xs) (hy : Claims t u ys) :
    Claims s u (xs ++ ys) where
  spelled := List.forall_mem_append.2 ⟨hx.spelled, hy.spelled⟩
  nodup := by
    refine List.nodup_append.2 ⟨hx.nodup, hy.nodup, ?_⟩
    rintro id hid _ hid' rfl
    exact absurd (hx.held id hid) (by simp [hy.unknown id hid'])
  unknown := by
    intro id hid
    rcases List.mem_append.1 hid with hid | hid
    · exact hx.unknown id hid
    · by_contra hknown
      have := hx.grows id (by simpa using hknown)
      rw [hy.unknown id hid] at this
      cases this
  held := by
    intro id hid
    rcases List.mem_append.1 hid with hid | hid
    · exact hy.grows id (hx.held id hid)
    · exact hy.held id hid
  grows := fun id hid => hy.grows id (hx.grows id hid)

def PagesKept (s t : State) : Prop := ∀ id, s.pages.isLabel id → t.pages.isLabel id

instance : Frame PagesKept where
  refl _ _ h := h
  trans _ _ _ hst htu id h := htu id (hst id h)
  random _ _ _ h := h
  ids _ _ _ _ h := h
  pages _ _ _ _ _ _ h := PageRegistry.isLabel_add.2 (.inr h)

def Extends (map map' : IdMap Id) : Prop := ∀ k v, map.get? k = some v → map'.get? k = some v

theorem Extends.renamed (h : Extends map map') {ids : List Id}
    (hids : ∀ id ∈ ids, map.contains id) : ids.map (renamed map') = ids.map (renamed map) := by
  apply List.map_congr_left
  intro id hid
  obtain ⟨v, hv⟩ := IdMap.contains_iff.1 (hids id hid)
  rw [renamed_of_get? hv, renamed_of_get? (h id v hv)]

theorem Extends.contains (h : Extends map map') {id : Id} (hid : map.contains id) :
    map'.contains id := by
  obtain ⟨v, hv⟩ := IdMap.contains_iff.1 hid
  exact IdMap.contains_iff.2 ⟨v, h id v hv⟩

theorem numberOwn_ok {a : Action} (h : a.numberOwn scope map context state = .ok map' state') :
    ∃ id, map.get? a.id = none ∧ a.freshId context state = .ok id state' ∧
      map.insert a.id id = map' := by
  unfold numberOwn at h
  split at h
  · obtain ⟨_, _, hthrow, _⟩ := Lower.bind_ok.1 h
    rw [Lower.throw_ok] at hthrow
    exact hthrow.elim
  · next hnew =>
    simp only [Lower.bind_ok, Lower.pure_ok] at h
    obtain ⟨id, next, hid, rfl, rfl⟩ := h
    refine ⟨id, ?_, hid, rfl⟩
    simpa [IdMap.contains] using hnew

theorem numberOwn_extends {a : Action}
    (h : a.numberOwn scope map context state = .ok map' state') : Extends map map' := by
  obtain ⟨id, hnew, _, rfl⟩ := numberOwn_ok h
  intro k v hk
  have hne : k ≠ a.id := by
    rintro rfl
    rw [hnew] at hk
    cases hk
  simpa [hne] using hk

structure Numbers (map map' : IdMap Id) (s t : State) (ids : List Id) : Prop where
  extends_ : Extends map map'
  known : ∀ id ∈ ids, map'.contains id
  claims : Claims s t (ids.map (renamed map'))

theorem Numbers.append {map'' : IdMap Id} {s t u : State} {xs ys : List Id}
    (hx : Numbers map map' s t xs) (hy : Numbers map' map'' t u ys) :
    Numbers map map'' s u (xs ++ ys) where
  extends_ k v hk := hy.extends_ k v (hx.extends_ k v hk)
  known := by
    intro id hid
    rcases List.mem_append.1 hid with hid | hid
    · exact hy.extends_.contains (hx.known id hid)
    · exact hy.known id hid
  claims := by
    rw [List.map_append, hy.extends_.renamed hx.known]
    exact hx.claims.append hy.claims

theorem numberOwn_quiet {a : Action} (h : a.numberOwn scope map context state = .ok map' state') :
    Numbers map map' state state' [] where
  extends_ := numberOwn_extends h
  known := by simp
  claims := .nil (numberOwn_moves scope map a (R := PagesKept) context state map' state' h)

theorem numberOwn_codePage {id : Id} {expanded : Bool} {spec : PageSpec} {code : List Action}
    (h : (Action.block id expanded (.codePage spec) code).numberOwn scope map context state =
      .ok map' state') : Numbers map map' state state' [id] := by
  have hextends := numberOwn_extends h
  have hkept := numberOwn_moves scope map _ (R := PagesKept) context state map' state' h
  obtain ⟨page, _, hfresh, rfl⟩ := numberOwn_ok h
  simp only [freshId, Lower.bind_ok, Lower.freshCodePage, Lower.fresh_ok, Lower.reserve_ok,
    Lower.pure_ok] at hfresh
  obtain ⟨_, _, ⟨rfl, rfl⟩, _, _, ⟨hunknown, rfl⟩, rfl, rfl⟩ := hfresh
  have hrenamed : renamed (map.insert id state.ids.codePage.1) id = state.ids.codePage.1 :=
    renamed_of_get? (by simp)
  refine ⟨hextends, by simp [IdMap.contains, Action.id], ?_⟩
  rw [List.map_singleton, Action.id, hrenamed]
  refine ⟨?_, by simp, by simpa using hunknown, by simp [PageRegistry.isLabel_add], hkept⟩
  rw [List.forall_mem_singleton]
  exact ⟨_, rfl⟩

mutual

theorem number_numbers {map map' : IdMap Id} {state state' : State} {a : Action}
    (h : a.number scope map context state = .ok map' state') :
    Numbers map map' state state' a.codePages := by
  match a with
  | .simple id expanded op =>
    rw [number] at h
    exact numberOwn_quiet h
  | .block id expanded (.codePage spec) code =>
    rw [number, Lower.bind_ok] at h
    obtain ⟨nested, next, hcode, hown⟩ := h
    exact (numberAll_numbers hcode).append (numberOwn_codePage hown)
  | .block id expanded (.assertException cause fault resume) code =>
    rw [number, Lower.bind_ok] at h
    obtain ⟨nested, next, hcode, hown⟩ := h
    rw [codePages, ← List.append_nil (codePagesAll code)]
    exact (numberAll_numbers hcode).append (numberOwn_quiet hown)

theorem numberAll_numbers {map map' : IdMap Id} {state state' : State} {actions : List Action}
    (h : numberAll scope map actions context state = .ok map' state') :
    Numbers map map' state state' (codePagesAll actions) := by
  match actions with
  | [] =>
    rw [numberAll, Lower.pure_ok] at h
    obtain ⟨rfl, rfl⟩ := h
    exact ⟨fun _ _ hk => hk, by simp [codePagesAll], .nil fun _ hid => hid⟩
  | a :: rest =>
    rw [numberAll, Lower.bind_ok] at h
    obtain ⟨nested, next, ha, hrest⟩ := h
    exact (number_numbers ha).append (numberAll_numbers hrest)

end

end Action

namespace CanonicalBatch

variable {context : Context} {state state' : State}

theorem ofTest_claims {test test' : TestCase} {functions : List Action}
    (h : ofTest test context state = .ok (test', functions) state') :
    Action.Claims state state' (functions.map Action.id) := by
  simp only [ofTest, Lower.bind_ok, Lower.ofExcept_ok, Lower.pure_ok, Prod.mk.injEq] at h
  obtain ⟨map, next, hnumber, actions, _, ⟨hrename, rfl⟩, ⟨_, rfl⟩, rfl⟩ := h
  rw [Action.liftAll_ids, Action.renameAll_codePages hrename]
  exact (Action.numberAll_numbers hnumber).claims

theorem ofTests_claims {tests : List TestCase} {batch : CanonicalBatch}
    (h : ofTests tests context state = .ok batch state') :
    Action.Claims state state' (batch.functions.map Action.id) := by
  induction tests generalizing state batch with
  | nil =>
    rw [ofTests, Lower.pure_ok] at h
    obtain ⟨rfl, rfl⟩ := h
    exact .nil fun _ hid => hid
  | cons test rest ih =>
    simp only [ofTests, Lower.bind_ok, Lower.pure_ok, Prod.exists] at h
    obtain ⟨test', functions, next, htest, more, _, hrest, rfl, rfl⟩ := h
    rw [List.map_append]
    exact (ofTest_claims htest).append (ih hrest)

theorem functions_nodup {tests : List TestCase} {batch : CanonicalBatch}
    (h : ofTests tests context state = .ok batch state') :
    (batch.functions.map Action.id).Nodup := (ofTests_claims h).nodup

end CanonicalBatch
end PlanLowering
