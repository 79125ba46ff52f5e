import Mathlib.Data.List.Forall2
import PlanLowering.Proofs.CanonicalForm
import PlanLowering.Proofs.FunctionCode
import PlanLowering.Proofs.Rv64Catalog

/-!
# References and the new names

References that name no action of their test are left alone, and the new names are plain strings. A
reference is captured when a plan happens to spell it like a name that is given to some action of the
batch, and never otherwise.
-/

namespace PlanLowering.CanonicalBatch

variable {tests : List TestCase} {test other : TestCase} {supply : FreshIds} {f g : Id → Id}
variable {i j : Nat} {x y : Id} {named : List (TestCase × (Id → Id))} {batch : CanonicalBatch}
variable {context : Context} {final : State}

/-- Where a reference reads as the new name of an action, it named this action in the same test
before. -/
def Hygienic (tests : List TestCase) (batch : CanonicalBatch) : Prop :=
  ∀ b ∈ batch.actions, ∃ (i : Nat) (test : TestCase) (f : Id → Id) (a : Action),
    (namedTests {} tests)[i]? = some (test, f) ∧ a ∈ test.order ∧ b.id = f a.id ∧
      List.Forall₂ (fun before after => ∀ (j : Nat) (other : TestCase) (g : Id → Id),
        (namedTests {} tests)[j]? = some (other, g) → ∀ c ∈ other.order, after = g c.id →
          j = i ∧ before = c.id) a.ids b.ids

theorem map_fst_namedTests (supply : FreshIds) (tests : List TestCase) :
    (namedTests supply tests).map Prod.fst = tests := by
  induction tests generalizing supply with
  | nil => rfl
  | cons test rest ih => simp [namedTests, ih]

theorem mem_of_namedTests (h : (test, f) ∈ namedTests supply tests) : test ∈ tests := by
  rw [← map_fst_namedTests supply tests]
  exact List.mem_map_of_mem h

theorem namedTests_of_mem (h : test ∈ tests) (supply : FreshIds) :
    ∃ (i : Nat) (f : Id → Id), (namedTests supply tests)[i]? = some (test, f) := by
  rw [← map_fst_namedTests supply tests] at h
  obtain ⟨⟨_, f⟩, hentry, rfl⟩ := List.mem_map.1 h
  obtain ⟨i, hi⟩ := List.mem_iff_getElem?.1 hentry
  exact ⟨i, f, hi⟩

theorem namedTests_of_not_mem (h : (test, f) ∈ namedTests supply tests) (hx : x ∉ test.ids) :
    f x = x := by
  induction tests generalizing supply with
  | nil => simp [namedTests] at h
  | cons head rest ih =>
    rcases List.mem_cons.1 h with h | h
    · cases h
      exact TestCase.naming_of_not_mem hx
    · exact ih h

/-- A new name tells the test and the action that it was given to. -/
theorem eq_of_new_names (hnodup : (named.flatMap fun (test, f) => test.ids.map f).Nodup)
    (hi : named[i]? = some (test, f)) (hj : named[j]? = some (other, g)) (hx : x ∈ test.ids)
    (hy : y ∈ other.ids) (h : f x = g y) : i = j ∧ x = y := by
  induction named generalizing i j with
  | nil => simp at hi
  | cons entry rest ih =>
    obtain ⟨hhead, hrest, hapart⟩ := List.nodup_append.1 (List.flatMap_cons ▸ hnodup)
    have hlater : ∀ {k : Nat} {u : TestCase} {h : Id → Id} {z : Id}, rest[k]? = some (u, h) →
        z ∈ u.ids → h z ∈ rest.flatMap fun (test, f) => test.ids.map f := fun hk hz =>
      List.mem_flatMap.2 ⟨_, List.mem_of_getElem? hk, List.mem_map_of_mem hz⟩
    cases i with
    | zero =>
      simp only [List.getElem?_cons_zero, Option.some.injEq] at hi
      subst hi
      cases j with
      | zero =>
        simp only [List.getElem?_cons_zero, Option.some.injEq, Prod.mk.injEq] at hj
        obtain ⟨rfl, rfl⟩ := hj
        exact ⟨rfl, List.inj_on_of_nodup_map hhead hx hy h⟩
      | succ j => exact absurd h (hapart _ (List.mem_map_of_mem hx) _ (hlater hj hy))
    | succ i =>
      cases j with
      | zero =>
        simp only [List.getElem?_cons_zero, Option.some.injEq] at hj
        subst hj
        exact absurd h.symm (hapart _ (List.mem_map_of_mem hy) _ (hlater hi hx))
      | succ j =>
        obtain ⟨rfl, rfl⟩ := ih hrest hi hj
        exact ⟨rfl, rfl⟩

section Hygiene

variable (hnodup : ∀ test ∈ tests, test.ids.Nodup)
include hnodup

theorem new_names_nodup :
    ((namedTests supply tests).flatMap fun (test, f) => test.ids.map f).Nodup := by
  rw [ids_namedTests hnodup]
  exact FreshIds.handOut_nodup _ _

/-- The new names of the actions are the ids that were handed out. -/
theorem mem_handOut_iff : x ∈ supply.handOut (tests.flatMap TestCase.requests) ↔
    ∃ (j : Nat) (other : TestCase) (g : Id → Id), (namedTests supply tests)[j]? = some (other, g) ∧
      ∃ c ∈ other.order, x = g c.id := by
  rw [← ids_namedTests hnodup]
  simp only [List.mem_flatMap, Prod.exists, TestCase.ids, List.map_map, List.mem_map]
  constructor
  · rintro ⟨other, g, hentry, c, hc, rfl⟩
    obtain ⟨j, hj⟩ := List.mem_iff_getElem?.1 hentry
    exact ⟨j, other, g, hj, c, hc, rfl⟩
  · rintro ⟨j, other, g, hj, c, hc, rfl⟩
    exact ⟨other, g, List.mem_of_getElem? hj, c, hc, rfl⟩

/-- Where no reference is captured, none to the outside is spelled like a new name. -/
theorem Hygienic.not_handed_out (h : Hygienic tests (ofNamed (namedTests {} tests))) :
    ∀ test ∈ tests, ∀ a ∈ test.order, ∀ x ∈ a.ids, x ∉ test.ids →
      x ∉ FreshIds.handOut {} (tests.flatMap TestCase.requests) := by
  intro test htest a ha x hx hforeign hnew
  obtain ⟨i, f, hi⟩ := namedTests_of_mem htest {}
  obtain ⟨j, other, g, hj, c, hc, hxc⟩ := (mem_handOut_iff hnodup).1 hnew
  have hid : a.id ∈ test.ids := List.mem_map_of_mem ha
  -- The action refers to something, so it is no memory and is still in the batch.
  obtain ⟨b, hb, hlabel⟩ : ∃ b ∈ (ofNamed (namedTests {} tests)).actions,
      b.label = Action.relabel f a.label := by
    refine List.mem_map.1 ((actions_perm _).mem_iff.2 (List.mem_flatMap.2 ⟨_, List.mem_of_getElem? hi,
      List.mem_map_of_mem (List.mem_filter.2 ⟨ha, ?_⟩)⟩))
    simp [Action.not_isMemory_of_mem_ids hx]
  obtain ⟨hbid, hbids⟩ := Prod.mk.inj hlabel
  obtain ⟨i', test', f', a', hi', ha', hid', hrefs⟩ := h b hb
  obtain ⟨rfl, hsame⟩ := eq_of_new_names (new_names_nodup hnodup) hi hi' hid
    (List.mem_map_of_mem ha') (hbid.symm.trans hid')
  cases hi.symm.trans hi'
  obtain rfl := List.inj_on_of_nodup_map (hnodup test htest) ha ha' hsame
  rw [hbids, Action.label, List.forall₂_map_right_iff, List.forall₂_same] at hrefs
  have hkept : f x = x := namedTests_of_not_mem (List.mem_of_getElem? hi) hforeign
  obtain ⟨rfl, rfl⟩ := hrefs x hx j other g hj c hc (hkept.trans hxc)
  cases hi.symm.trans hj
  exact hforeign (List.mem_map_of_mem hc)

theorem hygienic_of_not_handed_out (h : ∀ test ∈ tests, ∀ a ∈ test.order, ∀ x ∈ a.ids,
    x ∉ test.ids → x ∉ FreshIds.handOut {} (tests.flatMap TestCase.requests)) :
    Hygienic tests (ofNamed (namedTests {} tests)) := by
  intro b hb
  obtain ⟨⟨test, f⟩, hentry, hb⟩ := List.mem_flatMap.1
    ((actions_perm _).mem_iff.1 (List.mem_map_of_mem hb))
  obtain ⟨a, ha, hlabel⟩ := List.mem_map.1 hb
  obtain ⟨hbid, hbids⟩ := Prod.mk.inj hlabel
  replace ha : a ∈ test.order := (List.mem_filter.1 ha).1
  obtain ⟨i, hi⟩ := List.mem_iff_getElem?.1 hentry
  refine ⟨i, test, f, a, hi, ha, hbid.symm, ?_⟩
  rw [← hbids, Action.label, List.forall₂_map_right_iff, List.forall₂_same]
  intro x hx j other g hj c hc hxc
  by_cases hown : x ∈ test.ids
  · obtain ⟨rfl, rfl⟩ := eq_of_new_names (new_names_nodup hnodup) hi hj hown
      (List.mem_map_of_mem hc) hxc
    exact ⟨rfl, rfl⟩
  · have hkept : f x = x := namedTests_of_not_mem hentry hown
    refine absurd ((mem_handOut_iff hnodup).2 ⟨j, other, g, hj, c, hc, ?_⟩)
      (h test (mem_of_namedTests hentry) a ha x hx hown)
    exact hkept.symm.trans hxc

end Hygiene

/-- No reference is captured exactly if none that names something outside of its test is spelled like
an id that the batch hands out. -/
theorem hygienic_iff (h : ofTests tests context (.start context.options) = .ok batch final) :
    Hygienic tests batch ↔ ∀ test ∈ tests, ∀ a ∈ test.order, ∀ x ∈ a.ids, x ∉ test.ids →
      x ∉ FreshIds.handOut {} (tests.flatMap TestCase.requests) := by
  have hnodup := ofTests_nodup h
  rw [ofTests_run (State.pagesGiven_start _) hnodup] at h
  cases h
  exact ⟨Hygienic.not_handed_out hnodup, hygienic_of_not_handed_out hnodup⟩

/-- Two tests of the same ids, with a reference to a step and one to a symbol. -/
def twins : List Scenario :=
  ["t", "u"].map fun name => { name, steps := [
    { id := "x", kind := .arithmetic none },
    { id := "y", kind := .arithmetic none, inputs := [.ref "x", .ref "table"] }] }

theorem twins_hygienic : ∃ tests batch final, Program.buildTests .standard twins = .ok tests ∧
    ofTests tests (standardContext .rv64) (.start {}) = .ok batch final ∧ Hygienic tests batch := by
  obtain ⟨tests, htests, hnodup, hforeign⟩ : ∃ tests, Program.buildTests .standard twins = .ok tests ∧
      (∀ test ∈ tests, test.ids.Nodup) ∧
      ∀ test ∈ tests, ∀ a ∈ test.order, ∀ x ∈ a.ids, x ∉ test.ids →
        x ∉ FreshIds.handOut {} (tests.flatMap TestCase.requests) :=
    ⟨_, rfl, by decide +kernel, by decide +kernel⟩
  have hrun : ofTests tests (standardContext .rv64) (.start {}) = .ok _ _ :=
    ofTests_run (State.pagesGiven_start {}) hnodup
  exact ⟨tests, _, _, htests, hrun, (hygienic_iff hrun).2 hforeign⟩

/-- The second step refers to a symbol that is spelled like the new name of the first. -/
def capture : List Scenario :=
  [{ name := "t", steps := [
    { id := "x", kind := .arithmetic none },
    { id := "y", kind := .arithmetic none, inputs := [.ref "r0"] }] }]

theorem capture_not_hygienic : ¬ ∀ (context : Context) (scenarios : List Scenario)
    (tests : List TestCase) (batch : CanonicalBatch) (final : State),
      Program.buildTests .standard scenarios = .ok tests →
      ofTests tests context (.start context.options) = .ok batch final → Hygienic tests batch := by
  intro hall
  obtain ⟨tests, htests, hnodup, htaken⟩ : ∃ tests,
      Program.buildTests .standard capture = .ok tests ∧ (∀ test ∈ tests, test.ids.Nodup) ∧
      ¬ ∀ test ∈ tests, ∀ a ∈ test.order, ∀ x ∈ a.ids, x ∉ test.ids →
        x ∉ FreshIds.handOut {} (tests.flatMap TestCase.requests) :=
    ⟨_, rfl, by decide +kernel, by decide +kernel⟩
  have hrun : ofTests tests (standardContext .rv64) (.start {}) = .ok _ _ :=
    ofTests_run (State.pagesGiven_start {}) hnodup
  exact htaken ((hall (standardContext .rv64) capture tests _ _ htests hrun).not_handed_out hnodup)

end PlanLowering.CanonicalBatch
