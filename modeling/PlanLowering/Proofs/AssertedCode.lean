import PlanLowering.Program.Lower
import PlanLowering.Proofs.BuiltActions
import PlanLowering.Proofs.Expandable
import PlanLowering.Proofs.Hygiene

/-!
# Code that is asserted to trap

A step that asserts an exception is accepted with any nested step. Nested memory is lifted out before
the assertion is expanded, so the expansion of an accepted plan depends on what else is nested there.
Besides, it depends on nothing but entries of the last level a byte can count, which point to the
first level where sums of bytes wrap around, and stop the run where they do not.
-/

namespace PlanLowering

namespace Step

mutual

/-- Every exception is asserted of code in which a step is no memory, and no entry has to point past
the last level. -/
def Expandable (overflow : Overflow) : Step → Prop
  | { id := _, kind, inputs := _, code } =>
    (∀ cause, kind = .assertException cause → ∃ step ∈ code, step.kind.isMemory = false) ∧
      (kind = .modifyPte 255 false → overflow = .wraps) ∧ ExpandableAll overflow code

def ExpandableAll (overflow : Overflow) : List Step → Prop
  | [] => True
  | step :: rest => step.Expandable overflow ∧ ExpandableAll overflow rest

end

end Step

namespace Action

/-- Code that is asserted to trap has an action that stays in it, and what becomes an entry has a
level to point to. -/
def Lasts (overflow : Overflow) : Action → Prop
  | .block _ _ (.assertException ..) code => ∃ c ∈ code, c.page? = none
  | .simple _ _ op => op.Counts overflow
  | _ => True

variable {f : Id → Id} {a : Action} {actions : List Action} {pages pages' : Id → Prop}
variable {overflow : Overflow}

theorem kept_eq_nil : a.kept f = [] ↔ a.page?.isSome := by
  cases a with
  | simple id expanded op => cases op <;> simp [kept, page?]
  | block id expanded owner code => cases owner <;> simp [kept, page?]

theorem keptAll_ne_nil : keptAll f actions ≠ [] ↔ ∃ a ∈ actions, a.page? = none := by
  induction actions with
  | nil => simp [keptAll]
  | cons a rest ih =>
    rw [keptAll, Ne, List.append_eq_nil_iff, not_and_or, ← Ne, ← Ne, ih, Ne, kept_eq_nil]
    simp

/-- Lifting pages out of asserted code leaves it empty or not. -/
theorem moved_expandable (h : a.isExpanded = false) :
    (a.moved f).Expandable overflow ↔ a.Lasts overflow := by
  match a with
  | .simple id false op => cases op <;> exact Iff.rfl
  | .block id false (.codePage spec) code => exact Iff.rfl
  | .block id false (.assertException cause fault resume) code => exact keptAll_ne_nil

theorem moved_anchored (h : a.Anchored pages) (hf : ∀ id, pages id → pages' (f id)) :
    (a.moved f).Anchored pages' := by
  have haccess : ∀ access : Access, access.Anchored pages → (access.mapIds f).Anchored pages' := by
    intro access haccess
    unfold Access.Anchored at haccess ⊢
    cases hmemory : access.memory with
    | none => simp [Access.mapIds, hmemory]
    | some address =>
      cases address with
      | page id => simpa [Access.mapIds, hmemory] using hf id (by simpa [hmemory] using haccess)
      | symbol name => simp [Access.mapIds, hmemory]
      | value id => simpa [Access.mapIds, hmemory] using haccess
  cases a with
  | block id expanded owner code => trivial
  | simple id expanded op =>
    cases expanded with
    | true => trivial
    | false =>
      cases op with
      | load access | store access value => exact haccess access h
      | _ => trivial

mutual

theorem not_expanded_of_fresh {a : Action} (h : a.isFresh) :
    ∀ b ∈ a.postorder, b.isExpanded = false := by
  match a with
  | .simple id expanded op =>
    simp only [isFresh, Bool.and_eq_true, Bool.not_eq_true'] at h
    exact List.forall_mem_singleton.2 h.1
  | .block id expanded owner code =>
    simp only [isFresh, Bool.and_eq_true, Bool.not_eq_true'] at h
    rw [postorder, List.forall_mem_append]
    exact ⟨not_expanded_of_areFresh h.2, List.forall_mem_singleton.2 h.1⟩

theorem not_expanded_of_areFresh {actions : List Action} (h : areFresh actions) :
    ∀ b ∈ postorderAll actions, b.isExpanded = false := by
  match actions with
  | [] => simp [postorderAll]
  | a :: rest =>
    simp only [areFresh, Bool.and_eq_true] at h
    rw [postorderAll, List.forall_mem_append]
    exact ⟨not_expanded_of_fresh h.1, not_expanded_of_areFresh h.2⟩

end

end Action

section Build

variable {scope : StepScope} {id : Id} {inputs : List StepInput} {code : List Action}
variable {kind : StepKind} {a : Action}

theorem Access.ofStoreInputs_memory {memory value memory' value' : Option Id}
    (h : ofStoreInputs scope memory value inputs = .ok (memory', value'))
    (hmemory : ∀ id ∈ memory, scope.isMemory id) : ∀ id ∈ memory', scope.isMemory id := by
  induction inputs generalizing memory value with
  | nil =>
    cases h
    exact hmemory
  | cons input rest ih =>
    cases input with
    | imm v => cases h
    | ref id =>
      rw [ofStoreInputs] at h
      split at h
      next hpage => exact ih h (by simpa using hpage.1)
      next =>
        split at h
        next => exact ih h hmemory
        next => cases h

theorem Access.ofLoadInputs_anchored {address : Option Address} (offset : Int64)
    (size : Option UInt8) (op : Option String) (h : ofLoadInputs scope inputs = .ok address) :
    (ofStep address offset size op).Anchored (scope.isMemory ·) := by
  unfold ofLoadInputs at h
  split at h
  · cases h
    trivial
  · next id =>
    cases h
    by_cases hmemory : scope.isMemory id <;> simp [Anchored, ofStep, Access.to, ofRef, hmemory]
  · cases h
  · cases h

/-- A step without nested ones refers to memory by its page and to values by their ids. -/
theorem StepKind.action_anchored (hcode : kind.acceptsCode = false)
    (h : kind.action scope id inputs code = .ok a) :
    ∃ op, a = .new id op ∧ op.Anchored (scope.isMemory ·) ∧ a.page?.isSome = kind.isMemory := by
  obtain ⟨op, rfl, hgives⟩ := action_gives hcode h
  refine ⟨op, rfl, ?_⟩
  cases hgives with
  | @load offset size op _ haddress =>
    exact ⟨Access.ofLoadInputs_anchored offset size op haddress, rfl⟩
  | @store _ _ _ page _ _ hinputs =>
    refine ⟨?_, rfl⟩
    cases page with
    | none => trivial
    | some page => exact Access.ofStoreInputs_memory hinputs (by simp) page rfl
  | _ => exact ⟨trivial, rfl⟩

theorem StepKind.action_counts {overflow : Overflow} {op : Op}
    (hcode : kind.acceptsCode = false) (h : kind.action scope id inputs code = .ok (.new id op)) :
    op.Counts overflow ↔ (kind = .modifyPte 255 false → overflow = .wraps) := by
  obtain ⟨op', hop, hgives⟩ := action_gives hcode h
  obtain rfl : op = op' := by simpa [Action.new] using hop
  cases hgives with
  | @modifyPte level recursive =>
    simp only [Op.Counts, StepKind.modifyPte.injEq]
    grind
  | _ => simp [Op.Counts]

theorem StepKind.action_lasts {overflow : Overflow} (hcode : kind.acceptsCode)
    (h : kind.action scope id inputs code = .ok a) :
    ∃ owner, a = .block id false owner code ∧ a.page?.isSome = kind.isMemory ∧
      (a.Lasts overflow ↔
        ∀ cause, kind = .assertException cause → ∃ c ∈ code, c.page? = none) := by
  obtain ⟨owner, rfl, hheads⟩ := action_heads hcode h
  cases hheads <;> exact ⟨_, rfl, rfl, by simp [Action.Lasts]⟩

end Build

namespace StepBuilders

variable {scope : StepScope} {overflow : Overflow}

mutual

/-- What is built is in reach of the pages in scope, and is expandable where its steps are. -/
theorem build_lasts {step : Step} {a : Action} (h : standard.build scope step = .ok a) :
    a.page?.isSome = step.kind.isMemory ∧ (∀ b ∈ a.postorder, b.Anchored (scope.isMemory ·)) ∧
      ((∀ b ∈ a.postorder, b.Lasts overflow) ↔ step.Expandable overflow) := by
  match step with
  | { id, kind, inputs, code } =>
    obtain ⟨actions, hactions, haction, hnested⟩ := build_ok h
    obtain ⟨hmemory, hanchored, hlasts⟩ := buildAll_lasts hactions
    cases haccepts : kind.acceptsCode with
    | true =>
      obtain ⟨owner, rfl, hpage, hown⟩ := StepKind.action_lasts haccepts haction
      have hlevel : kind = .modifyPte 255 false → overflow = .wraps := by
        rintro rfl
        cases haccepts
      simp only [Action.postorder, List.forall_mem_append, List.forall_mem_singleton,
        Step.Expandable]
      refine ⟨hpage, ⟨hanchored, trivial⟩, ?_⟩
      have hstays : (∃ c ∈ actions, c.page? = none) ↔ ∃ step ∈ code, step.kind.isMemory = false := by
        have hmem : false ∈ actions.map (·.page?.isSome) ↔ false ∈ code.map (·.kind.isMemory) := by
          rw [hmemory]
        simpa using hmem
      rw [hlasts, hown, hstays, and_iff_right hlevel, and_comm]
    | false =>
      obtain rfl := hnested haccepts
      obtain ⟨op, rfl, hop, hpage⟩ := StepKind.action_anchored haccepts haction
      refine ⟨hpage, List.forall_mem_singleton.2 hop, ?_⟩
      have hasserts : ∀ cause, kind = .assertException cause →
          ∃ step ∈ ([] : List Step), step.kind.isMemory = false := by
        rintro cause rfl
        cases haccepts
      have hown : (Action.new id op).Lasts overflow ↔
          (kind = .modifyPte 255 false → overflow = .wraps) :=
        StepKind.action_counts haccepts haction
      have hcode : Step.ExpandableAll overflow [] := trivial
      simp only [Step.Expandable, and_iff_right hasserts, and_iff_left hcode, ← hown]
      exact List.forall_mem_singleton

theorem buildAll_lasts {steps : List Step} {actions : List Action}
    (h : standard.buildAll scope steps = .ok actions) :
    actions.map (·.page?.isSome) = steps.map (·.kind.isMemory) ∧
      (∀ b ∈ Action.postorderAll actions, b.Anchored (scope.isMemory ·)) ∧
      ((∀ b ∈ Action.postorderAll actions, b.Lasts overflow) ↔
        Step.ExpandableAll overflow steps) := by
  match steps with
  | [] =>
    cases h
    simp [Action.postorderAll, Step.ExpandableAll]
  | step :: rest =>
    obtain ⟨a, more, ha, hmore, rfl⟩ := buildAll_cons_ok h
    obtain ⟨hpage, hanchored, hlasts⟩ := build_lasts ha
    obtain ⟨hpages, hmoreAnchored, hmoreLasts⟩ := buildAll_lasts hmore
    simp only [List.map_cons, Action.postorderAll, List.forall_mem_append,
      Step.ExpandableAll]
    exact ⟨by rw [hpage, hpages], ⟨hanchored, hmoreAnchored⟩, and_congr hlasts hmoreLasts⟩

end

mutual

theorem build_memory {step : Step} {a : Action} (h : standard.build scope step = .ok a) :
    ∀ id ∈ (StepScope.ofStep step).memory, ∃ b ∈ a.postorder, b.id = id ∧ b.page?.isSome := by
  have hpage := (@build_lasts _ .wraps _ _ h).1
  match step with
  | { id, kind, inputs, code } =>
    obtain ⟨actions, hactions, haction, hnested⟩ := build_ok h
    have hown : a.id = id → ∀ x ∈ (StepScope.own id kind).memory,
        ∃ b ∈ a.postorder, b.id = x ∧ b.page?.isSome := by
      intro hid x hx
      refine ⟨a, Action.mem_postorder_self a, ?_⟩
      rw [hpage, hid]
      cases kind <;> simp_all [StepScope.own, StepKind.isMemory]
    rw [StepScope.ofStep, StepScope.append, List.forall_mem_append]
    cases haccepts : kind.acceptsCode with
    | true =>
      obtain ⟨owner, rfl⟩ := StepKind.action_block haccepts haction
      refine ⟨hown rfl, fun x hx => ?_⟩
      obtain ⟨b, hb, hx⟩ := buildAll_memory hactions x hx
      exact ⟨b, List.mem_append_left _ hb, hx⟩
    | false =>
      obtain rfl := hnested haccepts
      obtain ⟨op, rfl, _⟩ := StepKind.action_simple haccepts haction
      exact ⟨hown rfl, by simp [StepScope.ofSteps]⟩

theorem buildAll_memory {steps : List Step} {actions : List Action}
    (h : standard.buildAll scope steps = .ok actions) :
    ∀ id ∈ (StepScope.ofSteps steps).memory,
      ∃ b ∈ Action.postorderAll actions, b.id = id ∧ b.page?.isSome := by
  match steps with
  | [] => simp [StepScope.ofSteps]
  | step :: rest =>
    obtain ⟨a, more, ha, hmore, rfl⟩ := buildAll_cons_ok h
    simp only [StepScope.ofSteps, StepScope.append, List.forall_mem_append, Action.postorderAll]
    refine ⟨fun id hid => ?_, fun id hid => ?_⟩
    · obtain ⟨b, hb, hid⟩ := build_memory ha id hid
      exact ⟨b, List.mem_append_left _ hb, hid⟩
    · obtain ⟨b, hb, hid⟩ := buildAll_memory hmore id hid
      exact ⟨b, List.mem_append_right _ hb, hid⟩

end

end StepBuilders
namespace CanonicalBatch

/-- What is expanded together: each function for itself, and the code of each test. -/
def routines (batch : CanonicalBatch) : List (List Action) :=
  batch.functions.map ([·]) ++ batch.tests.map TestCase.actions

variable {scenarios : List Scenario} {tests : List TestCase} {context : Context} {final : State}
variable {batch : CanonicalBatch}

theorem mem_actions_iff {b : Action} :
    b ∈ batch.actions ↔ ∃ actions ∈ batch.routines, b ∈ Action.postorderAll actions := by
  have hfunctions : b ∈ Action.postorderAll batch.functions ↔
      ∃ a ∈ batch.functions, b ∈ Action.postorderAll [a] := by
    simp only [Action.mem_postorderAll, List.mem_singleton, exists_eq_left]
  simp only [actions, routines, List.mem_append, List.mem_map, List.mem_flatMap, or_and_right,
    exists_or, exists_exists_and_eq_and, TestCase.order, hfunctions]
  exact or_comm

theorem forall_mem_actions_iff {p : Action → Prop} {named : List (TestCase × (Id → Id))} :
    (∀ b ∈ (ofNamed named).actions, p b) ↔
      ∀ test f, (test, f) ∈ named → ∀ a ∈ test.order, a.isMemory = false → p (a.moved f) := by
  simp only [(moved_perm named).mem_iff, List.mem_flatMap, List.mem_map, List.mem_filter,
    Bool.not_eq_eq_eq_not, Bool.not_true, Prod.exists]
  grind

theorem isLabel_of_canonical {test : TestCase} {f : Id → Id} {a : Action}
    (h : Canonical tests batch final) (htest : (test, f) ∈ namedTests {} tests)
    (ha : a ∈ test.order) (hpage : a.page?.isSome) : final.pages.isLabel (f a.id) := by
  obtain ⟨page, hpage⟩ := Option.isSome_iff_exists.1 hpage
  have hentry : (f a.id, page) ∈ final.pages.entries.entries := by
    rw [h.pages_registered]
    exact List.mem_flatMap.2 ⟨_, htest, List.mem_filterMap.2 ⟨a, ha, by rw [hpage]; rfl⟩⟩
  exact PageRegistry.isLabel_iff.2 ⟨page, IdMap.mem_entries.1 hentry⟩

end CanonicalBatch

structure TestCase.Accepted (test : TestCase) (scenario : Scenario) : Prop where
  unexpanded : ∀ a ∈ test.order, a.isExpanded = false
  anchored : ∀ a ∈ test.order, a.Anchored ((StepScope.ofSteps scenario.steps).isMemory ·)
  reserved : ∀ id, (StepScope.ofSteps scenario.steps).isMemory id →
    ∃ a ∈ test.order, a.id = id ∧ a.page?.isSome
  lasts : ∀ overflow, (∀ a ∈ test.order, a.Lasts overflow) ↔
    Step.ExpandableAll overflow scenario.steps

theorem StepBuilders.buildTest_accepted {scenario : Scenario} {test : TestCase}
    (h : standard.buildTest scenario = .ok test) : test.Accepted scenario := by
  simp only [buildTest, except_bind_ok, except_pure_ok] at h
  obtain ⟨actions, hactions, rfl⟩ := h
  exact ⟨Action.not_expanded_of_areFresh (buildAll_pins hactions).1,
    (@buildAll_lasts _ .wraps _ _ hactions).2.1,
    fun id hid => buildAll_memory hactions id (of_decide_eq_true hid),
    fun _ => (buildAll_lasts hactions).2.2⟩

theorem Program.buildTests_accepted {scenarios : List Scenario} {tests : List TestCase}
    (h : Program.buildTests .standard scenarios = .ok tests) :
    List.Forall₂ TestCase.Accepted tests scenarios := by
  induction scenarios generalizing tests with
  | nil =>
    cases h
    exact .nil
  | cons scenario rest ih =>
    simp only [Program.buildTests, except_bind_ok, except_pure_ok] at h
    obtain ⟨test, htest, more, hmore, rfl⟩ := h
    exact .cons (StepBuilders.buildTest_accepted htest) (ih hmore)

theorem TestCase.accepted_of_mem {tests : List TestCase} {scenarios : List Scenario}
    (h : List.Forall₂ Accepted tests scenarios) :
    ∀ test ∈ tests, ∃ scenario, test.Accepted scenario := by
  induction h with
  | nil => simp
  | cons htest _ ih => exact List.forall_mem_cons.2 ⟨⟨_, htest⟩, ih⟩

namespace CanonicalBatch

open Lower

variable {scenarios : List Scenario} {tests : List TestCase} {context : Context} {s final : State}
variable {batch : CanonicalBatch} {pages : Id → Prop}

theorem mapM_expandAll_succeeds {lists : List (List Action)} (h : s.Offers pages)
    (hlists : ∀ actions ∈ lists, ∀ b ∈ Action.pendingAll actions, b.Ready context.overflow pages) :
    (lists.mapM expandAll).Succeeds context s fun _ s' => s'.Offers pages := by
  induction lists generalizing s with
  | nil => simpa using h
  | cons actions rest ih =>
    obtain ⟨hactions, hrest⟩ := List.forall_mem_cons.1 hlists
    simp only [List.mapM_cons, succeeds_bind, succeeds_pure]
    exact (Action.expandAll_succeeds h hactions).mono fun _ _ h' => ih h' hrest

theorem unexpanded_of_accepted (haccepted : ∀ test ∈ tests, ∃ scenario, test.Accepted scenario) :
    ∀ b ∈ (ofNamed (namedTests {} tests)).actions, b.isExpanded = false := by
  rw [forall_mem_actions_iff]
  intro test f htest a ha _
  obtain ⟨scenario, h⟩ := haccepted test (mem_of_namedTests htest)
  have ha := h.unexpanded a ha
  cases a <;> exact ha

theorem anchored_of_accepted (haccepted : ∀ test ∈ tests, ∃ scenario, test.Accepted scenario)
    (hcanonical : Canonical tests batch final) :
    ∀ b ∈ (ofNamed (namedTests {} tests)).actions, b.Anchored (final.pages.isLabel ·) := by
  rw [forall_mem_actions_iff]
  intro test f htest a ha _
  obtain ⟨scenario, h⟩ := haccepted test (mem_of_namedTests htest)
  refine Action.moved_anchored (h.anchored a ha) fun id hid => ?_
  obtain ⟨b, hb, rfl, hpage⟩ := h.reserved id hid
  exact isLabel_of_canonical hcanonical htest hb hpage

theorem expandable_iff_of_accepted (haccepted : List.Forall₂ TestCase.Accepted tests scenarios) :
    (∀ b ∈ (ofNamed (namedTests {} tests)).actions, b.Expandable overflow) ↔
      ∀ scenario ∈ scenarios, Step.ExpandableAll overflow scenario.steps := by
  have htests := TestCase.accepted_of_mem haccepted
  have hmemory : ∀ a : Action, a.isMemory → a.Lasts overflow := by
    intro a ha
    match a with
    | .simple _ _ op => cases op <;> trivial
    | .block _ _ (.codePage _) _ => trivial
    | .block _ _ (.assertException ..) _ => cases ha
  -- A test has its own names, whatever they are; only its actions decide.
  have hbatch : (∀ b ∈ (ofNamed (namedTests {} tests)).actions, b.Expandable overflow) ↔
      ∀ test ∈ tests, ∀ a ∈ test.order, a.Lasts overflow := by
    rw [forall_mem_actions_iff]
    constructor
    · intro h test htest a ha
      obtain ⟨i, f, hi⟩ := namedTests_of_mem htest {}
      obtain ⟨scenario, hscenario⟩ := htests test htest
      cases hkind : a.isMemory with
      | true => exact hmemory a hkind
      | false =>
        exact (Action.moved_expandable (hscenario.unexpanded a ha)).1
          (h test f (List.mem_of_getElem? hi) a ha hkind)
    · intro h test f htest a ha _
      obtain ⟨scenario, hscenario⟩ := htests test (mem_of_namedTests htest)
      exact (Action.moved_expandable (hscenario.unexpanded a ha)).2 (h test (mem_of_namedTests htest) a ha)
  rw [hbatch]
  clear hbatch htests
  induction haccepted with
  | nil => simp
  | cons htest _ ih => simp only [List.forall_mem_cons, htest.lasts overflow, ih]

/-- An accepted plan can be expanded, function by function and test by test, as often as one likes,
unless an exception is asserted of code that only reserves memory, or an entry of the last level is
to point to the next one where sums of bytes do not wrap around. -/
theorem expands_iff (htests : Program.buildTests .standard scenarios = .ok tests)
    (hbatch : ofTests tests context (.start context.options) = .ok batch final) :
    (∀ lists ⊆ batch.routines, ∃ out s, lists.mapM expandAll context final = .ok out s) ↔
      ∀ scenario ∈ scenarios, Step.ExpandableAll context.overflow scenario.steps := by
  have haccepted := Program.buildTests_accepted htests
  have htest := TestCase.accepted_of_mem haccepted
  have hgiven := State.pagesGiven_start context.options
  have hnodup := ofTests_nodup hbatch
  have hcanonical := canonical_of_nodup hnodup context.options
  rw [ofTests_run hgiven hnodup] at hbatch
  cases hbatch
  have hpending : ∀ actions ∈ (ofNamed (namedTests {} tests)).routines,
      Action.pendingAll actions = Action.postorderAll actions := fun actions hactions =>
    Action.pendingAll_of_new fun b hb =>
      unexpanded_of_accepted htest b (mem_actions_iff.2 ⟨actions, hactions, hb⟩)
  rw [← expandable_iff_of_accepted haccepted]
  constructor
  · intro h b hb
    obtain ⟨actions, hactions, hb⟩ := mem_actions_iff.1 hb
    obtain ⟨out, s, hrun⟩ := h [actions] (List.cons_subset.2 ⟨hactions, by simp⟩)
    simp only [List.mapM_cons, Lower.bind_ok] at hrun
    obtain ⟨_, _, hexpand, _⟩ := hrun
    exact Action.expandable_of_expandAll hexpand b (hpending actions hactions ▸ hb)
  · intro h lists hlists
    have hoffers := State.Offers.of_pagesGiven (hgiven.claims (tests.flatMap TestCase.order))
      fun _ => id
    have hrun : (lists.mapM expandAll).Succeeds context _ _ :=
      mapM_expandAll_succeeds hoffers fun actions hactions b hb => by
        rw [hpending actions (hlists hactions)] at hb
        have hmem := mem_actions_iff.2 ⟨actions, hlists hactions, hb⟩
        exact ⟨anchored_of_accepted htest hcanonical b hmem, h b hmem⟩
    obtain ⟨out, s, hrun, _⟩ := hrun
    exact ⟨out, s, hrun⟩

/-- A load from a new page is asserted to trap, inside a function that a test calls. In front of it an
entry of the last level is set, and sums of bytes wrap around. -/
def guardedLoad : List Scenario :=
  [{ name := "t", steps := [
    { id := "f", kind := .codePage { size := 4096 }, code := [
      { id := "e", kind := .assertException .loadPageFault, code := [
        { id := "m", kind := .memory { size := 4096 } },
        { id := "p", kind := .modifyPte 255 false, inputs := [.ref "m"] },
        { id := "l", kind := .load 4096 none none, inputs := [.ref "m"] }] }] },
    { id := "c", kind := .call, inputs := [.ref "f"] }] }]

theorem guardedLoad_expands : ∃ tests batch final,
    Program.buildTests .standard guardedLoad = .ok tests ∧
    ofTests tests (standardContext .rv64) (.start {}) = .ok batch final ∧
    ∃ out s, batch.routines.mapM expandAll (standardContext .rv64) final = .ok out s := by
  obtain ⟨tests, htests, hnodup⟩ : ∃ tests, Program.buildTests .standard guardedLoad = .ok tests ∧
      ∀ test ∈ tests, test.ids.Nodup := ⟨_, rfl, by decide +kernel⟩
  have hrun : ofTests tests (standardContext .rv64) (.start {}) = .ok _ _ :=
    ofTests_run (State.pagesGiven_start {}) hnodup
  have hplans : ∀ scenario ∈ guardedLoad, Step.ExpandableAll .wraps scenario.steps := by
    simp [guardedLoad, Step.ExpandableAll, Step.Expandable, StepKind.isMemory]
  exact ⟨tests, _, _, htests, hrun, (expands_iff htests hrun).2 hplans _ (List.Subset.refl _)⟩

def guardedMemory : List Scenario :=
  [{ name := "t", steps := [
    { id := "e", kind := .assertException .loadPageFault, code := [
      { id := "m", kind := .memory { size := 4096 } }] }] }]

theorem guardedMemory_not_expanded : ¬ ∀ (context : Context) (scenarios : List Scenario)
    (tests : List TestCase) (batch : CanonicalBatch) (final : State),
      Program.buildTests .standard scenarios = .ok tests →
      ofTests tests context (.start context.options) = .ok batch final →
      ∀ actions ∈ batch.routines, ∃ out s, expandAll actions context final = .ok out s := by
  intro hall
  have hempty : ∃ tests, Program.buildTests .standard guardedMemory = .ok tests ∧
      (∀ test ∈ tests, test.ids.Nodup) ∧ (ofNamed (namedTests {} tests)).routines =
        [[.block "r0" false (.assertException .loadPageFault none none) []]] :=
    ⟨_, rfl, by decide +kernel, rfl⟩
  obtain ⟨tests, htests, hnodup, hroutines⟩ := hempty
  have hrun : ofTests tests (standardContext .rv64) (.start {}) = .ok _ _ :=
    ofTests_run (State.pagesGiven_start {}) hnodup
  obtain ⟨out, s, hexpand⟩ := hall _ guardedMemory tests _ _ htests hrun _
    (hroutines ▸ List.mem_singleton_self _)
  exact Action.expandable_of_expandAll hexpand _ (List.mem_singleton_self _) rfl

end CanonicalBatch
end PlanLowering
