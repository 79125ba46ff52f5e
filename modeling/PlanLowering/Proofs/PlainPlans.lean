import PlanLowering.Proofs.AssertedCode
import PlanLowering.Proofs.LoweredTests

/-!
# Plans of plain steps

Arithmetic, loads and stores that pin no opcode, and memory of some size. Where every step refers to
memory, or to a value that is made further up, a batch of accepted plans is lowered, whatever the
random source draws.
-/

namespace PlanLowering

open FreshIds (Below)

namespace StepKind

/-- The step pins no opcode, or it reserves memory of some size. -/
def Plain : StepKind → Prop
  | .arithmetic op => op = none
  | .load _ _ op => op = none
  | .store _ _ op => op = none
  | .memory spec => spec.size ≠ 0
  | _ => False

def Makes : StepKind → Prop
  | .arithmetic _ => True
  | .load .. => True
  | _ => False

end StepKind

/-- Plain steps under ids of their own, that refer to memory and to values made further up. -/
structure Scenario.Plain (scenario : Scenario) : Prop where
  kinds : ∀ step ∈ scenario.steps, step.kind.Plain
  ids : (scenario.steps.map Step.id).Nodup
  refs : ∀ front step rest, scenario.steps = front ++ step :: rest → ∀ id, .ref id ∈ step.inputs →
    (∃ memory ∈ scenario.steps, memory.id = id ∧ memory.kind.isMemory) ∨
      ∃ maker ∈ front, maker.id = id ∧ maker.kind.Makes

inductive Step.Becomes (step : Step) : Action → Prop where
  | memory {spec} (hkind : step.kind.isMemory) : Becomes step (.new step.id (.memory spec))
  | plain {op} (hkind : step.kind.isMemory = false) (hop : op.Plain) (hown : op.isSynthetic = false)
      (hmakes : step.kind.Makes → op.Makes) (hreads : ∀ x ∈ op.reads, .ref x ∈ step.inputs) :
      Becomes step (.new step.id op)

section Build

variable {scope : StepScope} {step : Step} {steps : List Step} {a : Action} {actions : List Action}

theorem Arithmetic.ofInputs_plain {inputs : List StepInput} {a : Arithmetic}
    (h : ofInputs none inputs = .ok a) : a.Plain := by
  unfold ofInputs at h
  split at h <;> cases h <;> exact ⟨rfl, by simp⟩

theorem Access.ofStep_plain {address : Option Address} {offset : Int64} {size : Option UInt8}
    (h : checkSize size = .ok ()) : (ofStep address offset size none).Plain := by
  refine ⟨rfl, ?_, fun id hmemory => ?_⟩
  · cases size with
    | none => simp [ofStep, Catalog.accessSizes]
    | some size =>
      rw [checkSize] at h
      split at h
      next hsize =>
        simp only [List.mem_cons, List.not_mem_nil, or_false] at hsize
        rcases hsize with rfl | rfl | rfl | rfl <;> simp [ofStep, Catalog.accessSizes]
      next => cases h
  · have haddress : address = some (.value id) := hmemory
    subst haddress
    simp [ofStep, Access.to]

theorem Op.Plain.reads_subset_ids {op : Op} (h : op.Plain) : op.reads ⊆ op.ids := by
  cases op with
  | arithmetic a => exact List.Subset.refl _
  | li v => exact List.Subset.refl _
  | load access => exact List.subset_append_right _ _
  | store access value =>
    exact fun x hx => (List.mem_append.1 hx).elim (List.mem_append_left _)
      fun hx => List.mem_append_right _ (List.mem_append_right _ hx)
  | _ => exact h.elim

theorem StepKind.action_plain {code : List Action} (hplain : step.kind.Plain)
    (h : step.kind.action scope step.id step.inputs code = .ok a) : step.Becomes a := by
  obtain ⟨id, kind, inputs, nested⟩ := step
  have hcode : kind.acceptsCode = false := by cases kind <;> first | rfl | exact hplain.elim
  obtain ⟨op, rfl, hids⟩ := action_simple hcode h
  have hreads : op.Plain → ∀ x ∈ op.reads, .ref x ∈ inputs := by
    intro hop x hx
    obtain ⟨input, hinput, hid⟩ := List.mem_filterMap.1 (hids x (hop.reads_subset_ids hx))
    cases input with
    | imm v => cases hid
    | ref y =>
      cases hid
      exact hinput
  obtain ⟨op', hsame, hgives⟩ := action_gives hcode h
  cases hsame
  cases hgives with
  | arithmetic ha =>
    cases hplain
    have hop : (Op.arithmetic _).Plain := .inl (Arithmetic.ofInputs_plain ha)
    exact .plain rfl hop rfl (fun _ => trivial) (hreads hop)
  | @load offset size _ address _ hsize =>
    cases hplain
    have hop : (Op.load (.ofStep address offset size none)).Plain := Access.ofStep_plain hsize
    exact .plain rfl hop rfl (fun _ => trivial) (hreads hop)
  | @store offset size _ page value hsize =>
    cases hplain
    have hop : (Op.store (.ofStep (page.map .page) offset size none) value).Plain :=
      Access.ofStep_plain hsize
    exact .plain rfl hop rfl False.elim (hreads hop)
  | memory => exact .memory rfl
  | _ => exact hplain.elim

theorem StepBuilders.build_becomes (hplain : step.kind.Plain)
    (h : standard.build scope step = .ok a) : step.Becomes a := by
  obtain ⟨id, kind, inputs, code⟩ := step
  obtain ⟨actions, _, haction, _⟩ := build_ok h
  exact StepKind.action_plain hplain haction

theorem StepBuilders.buildAll_becomes (hplain : ∀ step ∈ steps, step.kind.Plain)
    (h : standard.buildAll scope steps = .ok actions) :
    List.Forall₂ Step.Becomes steps actions := by
  induction steps generalizing actions with
  | nil =>
    cases h
    exact .nil
  | cons step rest ih =>
    obtain ⟨hstep, hrest⟩ := List.forall_mem_cons.1 hplain
    obtain ⟨a, more, ha, hmore, rfl⟩ := buildAll_cons_ok h
    exact .cons (build_becomes hstep ha) (ih hrest hmore)

end Build

section Order

variable {step p q : Step} {front rest steps : List Step} {actions : List Action} {a b : Action}
variable {f : Id → Id} {ids : List Id} {n : Nat} {scenario : Scenario}

structure Step.Precedes (p q : Step) : Prop where
  apart : q.id ≠ p.id
  unread : .ref q.id ∈ p.inputs → q.kind.isMemory
  made : .ref p.id ∈ q.inputs → p.kind.isMemory ∨ p.kind.Makes

structure Step.Within (ids : List Id) (step : Step) : Prop where
  id : step.id ∈ ids
  refs : ∀ x, .ref x ∈ step.inputs → x ∈ ids

namespace Scenario.Plain

variable (h : scenario.Plain) (hsteps : scenario.steps = front ++ step :: rest)
include h

theorem eq_of_id (hp : p ∈ scenario.steps) (hq : q ∈ scenario.steps) (hid : p.id = q.id) : p = q :=
  List.inj_on_of_nodup_map h.ids hp hq hid

include hsteps

theorem apart (hp : p ∈ front) (hq : q ∈ step :: rest) : q.id ≠ p.id := by
  have hids := h.ids
  rw [hsteps, List.map_append] at hids
  exact ((List.nodup_append.1 hids).2.2 _ (List.mem_map_of_mem hp) _ (List.mem_map_of_mem hq)).symm

theorem isMemory_of_ref (hq : q ∈ step :: rest) (href : .ref q.id ∈ step.inputs) :
    q.kind.isMemory := by
  rcases h.refs _ _ _ hsteps _ href with ⟨memory, hmem, hid, hmemory⟩ | ⟨maker, hmem, hid, _⟩
  · rwa [h.eq_of_id hmem (hsteps ▸ List.mem_append_right _ hq) hid] at hmemory
  · exact absurd hid.symm (h.apart hsteps hmem hq)

theorem makes_of_ref (hp : p ∈ front) (href : .ref p.id ∈ step.inputs) :
    p.kind.isMemory ∨ p.kind.Makes := by
  have hsub : ∀ r ∈ front, r ∈ scenario.steps := fun r hr => hsteps ▸ List.mem_append_left _ hr
  rcases h.refs _ _ _ hsteps _ href with ⟨memory, hmem, hid, hmemory⟩ | ⟨maker, hmem, hid, hmakes⟩
  · exact .inl (h.eq_of_id hmem (hsub p hp) hid ▸ hmemory)
  · exact .inr (h.eq_of_id (hsub maker hmem) (hsub p hp) hid ▸ hmakes)

omit hsteps

theorem own (hstep : step ∈ scenario.steps) (href : .ref step.id ∈ step.inputs) :
    step.kind.isMemory := by
  obtain ⟨front, rest, hsteps⟩ := List.append_of_mem hstep
  exact h.isMemory_of_ref hsteps List.mem_cons_self href

theorem within (hstep : step ∈ scenario.steps) :
    step.Within (scenario.steps.map Step.id) := by
  refine ⟨List.mem_map_of_mem hstep, fun x hx => ?_⟩
  obtain ⟨front, rest, hsteps⟩ := List.append_of_mem hstep
  rcases h.refs _ _ _ hsteps x hx with ⟨memory, hmem, rfl, _⟩ | ⟨maker, hmem, rfl, _⟩
  · exact List.mem_map_of_mem hmem
  · exact List.mem_map_of_mem (hsteps ▸ List.mem_append_left _ hmem)

theorem pairwise_of_append (hsteps : scenario.steps = front ++ rest) :
    rest.Pairwise Step.Precedes := by
  induction rest generalizing front with
  | nil => exact .nil
  | cons step rest ih =>
    have hnext : scenario.steps = (front ++ [step]) ++ rest := by simpa using hsteps
    refine .cons (fun q hq => ?_) (ih hnext)
    obtain ⟨mid, back, rfl⟩ := List.append_of_mem hq
    have hlater : scenario.steps = (front ++ step :: mid) ++ q :: back := by simpa using hsteps
    constructor
    case apart => exact h.apart hlater (by simp) List.mem_cons_self
    case unread => exact h.isMemory_of_ref hsteps (List.mem_cons_of_mem _ hq)
    case made => exact h.makes_of_ref hlater (by simp)

end Scenario.Plain

theorem Op.Plain.mapIds {op : Op} (h : op.Plain) (f : Id → Id) : (op.mapIds f).Plain := by
  cases op with
  | arithmetic terms =>
    rcases h with ⟨hpin, hinputs⟩ | ⟨x, y, rfl⟩
    · exact .inl ⟨hpin, by simpa using hinputs⟩
    · exact .inr ⟨f x, f y, rfl⟩
  | li v => trivial
  | load access | store access value =>
    refine ⟨h.unpinned, h.width, fun id hmemory => ?_⟩
    cases haddress : access.memory with
    | none => simp [Access.mapIds, haddress] at hmemory
    | some address =>
      cases address with
      | page id | symbol id => simp [Access.mapIds, haddress] at hmemory
      | value id => simpa [Access.mapIds] using h.based id haddress
  | _ => exact h.elim

theorem Op.Makes.mapIds {op : Op} (h : op.Makes) (f : Id → Id) : (op.mapIds f).Makes := by
  cases op <;> exact h

structure Step.Stays (f : Id → Id) (step : Step) (b : Action) : Prop where
  kind : step.kind.isMemory = false
  plain : ∃ op : Op, op.Plain ∧ b = .new (f step.id) op
  makes : step.kind.Makes → b.Makes
  reads : ∀ y ∈ b.reads, ∃ x, .ref x ∈ step.inputs ∧ y = f x

theorem Step.Becomes.kept (h : step.Becomes a) :
    a.kept f = [] ∨ ∃ b, a.kept f = [b] ∧ step.Stays f b := by
  cases h with
  | memory hkind => exact .inl rfl
  | @plain op hkind hop hown hmakes hreads =>
    refine .inr ⟨.new (f step.id) (op.mapIds f), ?_, hkind, ⟨_, hop.mapIds f, rfl⟩,
      fun h => (hmakes h).mapIds f, fun y hy => ?_⟩
    · cases op <;> first | rfl | exact hop.elim
    · have hy : y ∈ (op.mapIds f).reads := hy
      rw [Op.reads_mapIds hown] at hy
      obtain ⟨x, hx, rfl⟩ := List.mem_map.1 hy
      exact ⟨x, hreads x hx, rfl⟩

namespace Step.Stays

theorem id (h : step.Stays f b) : b.id = f step.id := by
  obtain ⟨op, _, rfl⟩ := h.plain
  rfl

variable (hinj : ∀ x ∈ ids, ∀ y ∈ ids, f x = f y → x = y)
include hinj

theorem ref_of_reads (h : step.Stays f b) (hstep : step.Within ids) {x : Id} (hx : x ∈ ids)
    (hmem : f x ∈ b.reads) : .ref x ∈ step.inputs := by
  obtain ⟨y, hy, hsame⟩ := h.reads _ hmem
  rwa [hinj x hx y (hstep.refs y hy) hsame]

theorem precedes (ha : p.Stays f a) (hb : q.Stays f b) (hp : p.Within ids) (hq : q.Within ids)
    (h : p.Precedes q) : a.Precedes b := by
  constructor
  · rw [ha.id, hb.id]
    exact fun hsame => h.apart (hinj _ hq.id _ hp.id hsame)
  · rw [hb.id]
    intro hmem
    have hmemory := h.unread (ha.ref_of_reads hinj hp hq.id hmem)
    rw [hb.kind] at hmemory
    cases hmemory
  · rw [ha.id]
    intro hmem
    refine ha.makes ((h.made (hb.ref_of_reads hinj hq hp.id hmem)).resolve_left ?_)
    simp [ha.kind]

theorem action_plain (h : step.Stays f b) (hstep : step.Within ids)
    (hown : .ref step.id ∈ step.inputs → step.kind.isMemory)
    (hbelow : ∀ x ∈ ids, Below n (f x)) : b.Plain n := by
  have hunread : b.id ∉ b.reads := by
    rw [h.id]
    intro hmem
    have hmemory := hown (h.ref_of_reads hinj hstep hstep.id hmem)
    rw [h.kind] at hmemory
    cases hmemory
  have hreads := h.reads
  obtain ⟨op, hop, rfl⟩ := h.plain
  refine .simple hop (by simp) (hbelow _ hstep.id) (fun y hy => ?_) hunread
  obtain ⟨x, hx, rfl⟩ := hreads y hy
  exact hbelow x (hstep.refs x hx)

end Step.Stays

namespace Action

theorem mem_keptAll_stays (h : List.Forall₂ Step.Becomes steps actions)
    (hb : b ∈ keptAll f actions) : ∃ step ∈ steps, step.Stays f b := by
  induction h with
  | nil => cases hb
  | cons hstep _ ih =>
    rcases List.mem_append.1 hb with hb | hb
    · rcases hstep.kept (f := f) with hnone | ⟨c, hkept, hstays⟩
      · rw [hnone] at hb
        cases hb
      · rw [hkept, List.mem_singleton] at hb
        exact ⟨_, List.mem_cons_self, hb ▸ hstays⟩
    · obtain ⟨step, hmem, hstays⟩ := ih hb
      exact ⟨step, List.mem_cons_of_mem _ hmem, hstays⟩

theorem pairwise_keptAll (h : List.Forall₂ Step.Becomes steps actions)
    (hinj : ∀ x ∈ ids, ∀ y ∈ ids, f x = f y → x = y) (hwithin : ∀ step ∈ steps, step.Within ids)
    (horder : steps.Pairwise Step.Precedes) : (keptAll f actions).Pairwise Precedes := by
  induction h with
  | nil => exact .nil
  | cons hstep hrest ih =>
    obtain ⟨hown, hwithin⟩ := List.forall_mem_cons.1 hwithin
    obtain ⟨hafter, horder⟩ := List.pairwise_cons.1 horder
    rw [keptAll]
    rcases hstep.kept (f := f) with hnone | ⟨b, hkept, hstays⟩
    · rw [hnone]
      exact ih hwithin horder
    · rw [hkept]
      refine .cons (fun c hc => ?_) (ih hwithin horder)
      obtain ⟨step, hmem, hc⟩ := mem_keptAll_stays hrest hc
      exact hstays.precedes hinj hc hown (hwithin step hmem) (hafter step hmem)

end Action

theorem Scenario.Plain.orderly (h : scenario.Plain)
    (hactions : List.Forall₂ Step.Becomes scenario.steps actions)
    (hinj : ∀ x ∈ scenario.steps.map Step.id, ∀ y ∈ scenario.steps.map Step.id, f x = f y → x = y)
    (hbelow : ∀ x ∈ scenario.steps.map Step.id, Below n (f x)) :
    Action.Orderly n (Action.keptAll f actions) := by
  have hwithin : ∀ step ∈ scenario.steps, step.Within (scenario.steps.map Step.id) :=
    fun _ => h.within
  have horder := h.pairwise_of_append (List.nil_append _).symm
  refine ⟨fun b hb => ?_, Action.pairwise_keptAll hactions hinj hwithin horder⟩
  obtain ⟨step, hmem, hstays⟩ := Action.mem_keptAll_stays hactions hb
  exact hstays.action_plain hinj (hwithin step hmem) (h.own hmem) hbelow

end Order

section Supply

variable {ids : FreshIds} {id : Id} {requests : List IdRequest}

namespace FreshIds

theorem Given.below (h : ids.Given id) : Below ids.values id := by
  rintro k rfl
  obtain ⟨r, m, hm, hsame⟩ := h
  have hsame : IdRequest.value.stem ++ k.repr = r.stem ++ m.repr := by
    simpa [IdRequest.stem, ToString.toString] using hsame
  obtain ⟨rfl, rfl⟩ := IdRequest.spelled_inj hsame
  exact hm

end FreshIds

end Supply

section Batch

open Lower

variable {context : Context} {scenario : Scenario} {scenarios : List Scenario} {test : TestCase}
variable {tests : List TestCase} {batch : CanonicalBatch} {final : State} {f : Id → Id}

structure TestCase.Plain (test : TestCase) (scenario : Scenario) : Prop where
  plain : scenario.Plain
  actions : List.Forall₂ Step.Becomes scenario.steps test.actions
  accepted : test.Accepted scenario

theorem StepBuilders.buildTest_plain (hplain : scenario.Plain)
    (h : standard.buildTest scenario = .ok test) :
    test.name = scenario.name ∧ test.Plain scenario := by
  have haccepted := buildTest_accepted h
  simp only [buildTest, except_bind_ok, except_pure_ok] at h
  obtain ⟨actions, hactions, rfl⟩ := h
  exact ⟨rfl, hplain, buildAll_becomes hplain.kinds hactions, haccepted⟩

theorem Program.buildTests_plain (hplain : ∀ scenario ∈ scenarios, scenario.Plain)
    (haccepted : ∀ scenario ∈ scenarios, ∃ test,
      StepBuilders.standard.buildTest scenario = .ok test) :
    ∃ tests, buildTests .standard scenarios = .ok tests ∧
      tests.map TestCase.name = scenarios.map Scenario.name ∧
      ∀ test ∈ tests, ∃ scenario, test.Plain scenario := by
  induction scenarios with
  | nil => exact ⟨[], rfl, rfl, by simp⟩
  | cons scenario rest ih =>
    rw [List.forall_mem_cons] at hplain haccepted
    obtain ⟨test, htest⟩ := haccepted.1
    obtain ⟨tests, htests, hnames, hrest⟩ := ih hplain.2 haccepted.2
    obtain ⟨hname, hbuilt⟩ := StepBuilders.buildTest_plain hplain.1 htest
    refine ⟨test :: tests, ?_, ?_, List.forall_mem_cons.2 ⟨⟨scenario, hbuilt⟩, hrest⟩⟩
    · simp only [buildTests, htest, htests]
      rfl
    · rw [List.map_cons, List.map_cons, hname, hnames]

theorem Step.Becomes.simple {step : Step} {a : Action} (h : step.Becomes a) :
    a.postorder = [a] ∧ a.id = step.id ∧ ∀ f, a.function? f = none := by
  cases h <;> exact ⟨rfl, rfl, fun _ => rfl⟩

theorem Action.postorderAll_becomes {steps : List Step} {actions : List Action}
    (h : List.Forall₂ Step.Becomes steps actions) : postorderAll actions = actions ∧
      actions.map Action.id = steps.map Step.id ∧ ∀ f, actions.filterMap (function? f) = [] := by
  induction h with
  | nil => exact ⟨rfl, rfl, fun _ => rfl⟩
  | cons ha _ ih =>
    obtain ⟨horder, hid, hfunction⟩ := ha.simple
    obtain ⟨horders, hids, hfunctions⟩ := ih
    refine ⟨?_, ?_, fun f => ?_⟩
    · rw [postorderAll, horder, horders]
      rfl
    · rw [List.map_cons, List.map_cons, hid, hids]
    · rw [List.filterMap_cons_none (hfunction f), hfunctions]

namespace TestCase.Plain

variable (h : test.Plain scenario)
include h

theorem ids : test.ids = scenario.steps.map Step.id := by
  obtain ⟨horder, hids, _⟩ := Action.postorderAll_becomes h.actions
  rw [TestCase.ids, TestCase.order, horder, hids]

theorem functions (f : Id → Id) : test.functions f = [] := by
  obtain ⟨horder, _, hfunctions⟩ := Action.postorderAll_becomes h.actions
  rw [TestCase.functions, TestCase.order, horder, hfunctions]

end TestCase.Plain

theorem Action.Plain.eq_of_pending {n : Nat} {a b : Action} (h : a.Plain n) (hb : b ∈ a.pending) :
    b = a ∧ ∀ overflow, b.Expandable overflow := by
  obtain @⟨_, expanded, op, hop, _⟩ := h
  obtain rfl := List.mem_singleton.1 hb
  refine ⟨rfl, fun overflow => ?_⟩
  cases expanded with
  | true => trivial
  | false => cases op <;> trivial

namespace CanonicalBatch

theorem map_name_ofNamed (supply : FreshIds) (tests : List TestCase) :
    (ofNamed (namedTests supply tests)).tests.map TestCase.name = tests.map TestCase.name := by
  conv_rhs => rw [← map_fst_namedTests supply tests]
  simp [ofNamed, TestCase.kept, Function.comp_def]

section Naming

variable (htest : (test, f) ∈ namedTests {} tests)
include htest

theorem eq_of_naming (hnodup : ∀ test ∈ tests, test.ids.Nodup) :
    ∀ x ∈ test.ids, ∀ y ∈ test.ids, f x = f y → x = y := by
  intro x hx y hy hsame
  obtain ⟨i, hi⟩ := List.getElem?_of_mem htest
  exact (eq_of_new_names (new_names_nodup hnodup) hi hi hx hy hsame).2

/-- What the ids are renamed to was given out while the batch was canonicalized. -/
theorem naming_below (hbatch : ofTests tests context (.start context.options) = .ok batch final) :
    ∀ x ∈ test.ids, Below final.ids.values (f x) := by
  intro x hx
  have hnodup := ofTests_nodup hbatch
  rw [ofTests_run (State.pagesGiven_start _) hnodup] at hbatch
  cases hbatch
  obtain ⟨i, hi⟩ := List.getElem?_of_mem htest
  obtain ⟨a, ha, rfl⟩ := List.mem_map.1 hx
  rw [State.ids_claims, TestCase.flatMap_requests]
  exact (FreshIds.given_of_handOut
    ((mem_handOut_iff hnodup).2 ⟨i, test, f, hi, a, ha, rfl⟩)).below

end Naming

section Plain

variable (hplain : ∀ test ∈ tests, ∃ scenario, test.Plain scenario)
include hplain

theorem nodup_of_plain : ∀ test ∈ tests, test.ids.Nodup := by
  intro test htest
  obtain ⟨scenario, h⟩ := hplain test htest
  exact h.ids ▸ h.plain.ids

theorem functions_of_plain : (ofNamed (namedTests {} tests)).functions = [] := by
  refine List.flatMap_eq_nil_iff.2 ?_
  rintro ⟨test, f⟩ htest
  obtain ⟨scenario, h⟩ := hplain test (mem_of_namedTests htest)
  exact h.functions f

variable (hbatch : ofTests tests context (.start context.options) =
  .ok (ofNamed (namedTests {} tests)) final)
include hbatch

theorem orderly_of_plain : ∀ kept ∈ (ofNamed (namedTests {} tests)).tests,
    Action.Orderly final.ids.values kept.actions := by
  intro kept hkept
  obtain ⟨⟨test, f⟩, htest, rfl⟩ := List.mem_map.1 hkept
  obtain ⟨scenario, h⟩ := hplain test (mem_of_namedTests htest)
  have hinj := eq_of_naming htest (nodup_of_plain hplain)
  have hbelow := naming_below htest hbatch
  rw [h.ids] at hinj hbelow
  exact h.plain.orderly h.actions hinj hbelow

theorem ready_of_plain : ∀ kept ∈ (ofNamed (namedTests {} tests)).tests,
    ∀ b ∈ Action.pendingAll kept.actions,
      b.Ready context.overflow (final.pages.isLabel ·) := by
  intro kept hkept b hb
  have haccepted : ∀ test ∈ tests, ∃ scenario, test.Accepted scenario := fun test htest =>
    (hplain test htest).imp fun _ h => h.accepted
  have hcanonical : Canonical tests (ofNamed (namedTests {} tests)) final := by
    have hnodup := nodup_of_plain hplain
    rw [ofTests_run (State.pagesGiven_start _) hnodup] at hbatch
    cases hbatch
    exact canonical_of_nodup hnodup _
  obtain ⟨a, ha, hb⟩ := Action.mem_pendingAll.1 hb
  obtain ⟨rfl, hexpandable⟩ :=
    ((orderly_of_plain hplain hbatch kept hkept).plain a ha).eq_of_pending hb
  refine ⟨anchored_of_accepted haccepted hcanonical b (mem_actions_iff.2 ?_), hexpandable _⟩
  exact ⟨kept.actions, List.mem_append_right _ (List.mem_map_of_mem hkept),
    Action.mem_postorderAll.2 ⟨b, ha, Action.mem_postorder_self b⟩⟩

end Plain

end CanonicalBatch

/-- The storage page has a name that is no stack's and that is never handed out. -/
theorem Options.csrStorage_apart : ¬ FreshIds.Spelled ({} : Options).csrStorage ∧
    ∀ test : TestCase, test.stack ≠ ({} : Options).csrStorage := by
  have hlast : ({} : Options).csrStorage.toList = "tp_csr_storag".toList ++ ['e'] := rfl
  refine ⟨FreshIds.not_spelled hlast (by decide), fun test hsame => ?_⟩
  have hstack := test.toList_stack
  rw [hsame, hlast] at hstack
  exact absurd (List.append_inj_right' hstack rfl) (by decide)

theorem Program.ofTests_plain (hstock : context.catalog.Stocked context.environment.xlen)
    (hplain : ∀ test ∈ tests, ∃ scenario, test.Plain scenario)
    (hnames : (tests.map TestCase.name).Nodup)
    (hstorage : context.options.csrStorage = ({} : Options).csrStorage) :
    (Program.ofTests tests).Succeeds context (.start context.options) fun _ _ => True := by
  have hgiven := State.pagesGiven_start context.options
  have hbatch : CanonicalBatch.ofTests tests context (.start context.options) =
      .ok (CanonicalBatch.ofNamed (namedTests {} tests)) _ :=
    CanonicalBatch.ofTests_run hgiven (CanonicalBatch.nodup_of_plain hplain)
  refine ofTests_succeeds hstock hbatch (hgiven.claims _) (CanonicalBatch.functions_of_plain hplain)
    ?_ ?_ ?_ (CanonicalBatch.orderly_of_plain hplain hbatch)
    (CanonicalBatch.ready_of_plain hplain hbatch)
  · exact (CanonicalBatch.map_name_ofNamed _ tests).symm ▸ hnames
  · exact hstorage ▸ Options.csrStorage_apart.1
  · exact fun kept _ => hstorage ▸ Options.csrStorage_apart.2 kept

/-- Plain scenarios that are accepted are lowered with the catalog of their register width, whatever
the seed draws. -/
theorem lowerScenarios_plain (environment : Environment) (options : Options)
    (overflow : Overflow) (scenarios : List Scenario)
    (hstorage : options.csrStorage = ({} : Options).csrStorage)
    (hnames : (scenarios.map Scenario.name).Nodup)
    (hplain : ∀ scenario ∈ scenarios, scenario.Plain)
    (haccepted : ∀ scenario ∈ scenarios, ∃ test,
      StepBuilders.standard.buildTest scenario = .ok test) :
    ∃ catalog program, Catalog.builtin environment.xlen = .ok catalog ∧
      lowerScenarios .standard { catalog, environment, options, overflow } scenarios =
        .ok program := by
  obtain ⟨catalog, hcatalog⟩ := Catalog.builtin_exists environment.xlen
  obtain ⟨tests, htests, hsame, hbuilt⟩ := Program.buildTests_plain hplain haccepted
  obtain ⟨program, s, hrun, _⟩ : (Program.ofTests tests).Succeeds
      { catalog, environment, options, overflow } (.start options) fun _ _ => True :=
    Program.ofTests_plain (Catalog.builtin_stocked hcatalog) hbuilt (hsame ▸ hnames) hstorage
  refine ⟨catalog, program, hcatalog, ?_⟩
  rw [lowerScenarios, except_bind_ok]
  exact ⟨tests, htests, by simp only [hrun]; rfl⟩

/-- A value is stored and loaded, and what is made of it goes to a page that nothing names. -/
def plainPlans : List Scenario :=
  [{ name := "t", steps := [
      { id := "m", kind := .memory { size := 4096 } },
      { id := "x", kind := .arithmetic none, inputs := [.imm 5] },
      { id := "s", kind := .store 4096 (some 8) none, inputs := [.ref "m", .ref "x"] },
      { id := "l", kind := .load 0 none none, inputs := [.ref "m"] },
      { id := "y", kind := .arithmetic none, inputs := [.ref "l", .ref "x"] }] },
    { name := "u", steps := [
      { id := "x", kind := .load 8 none none },
      { id := "s", kind := .store 0 none none, inputs := [.ref "x"] }] }]

theorem plainPlans_plain : ∀ scenario ∈ plainPlans, scenario.Plain := by
  refine List.forall_mem_cons.2 ⟨?_, List.forall_mem_singleton.2 ?_⟩
  · refine ⟨by simp [StepKind.Plain], by decide, fun front step rest hsteps id hid => ?_⟩
    simp only [List.cons_eq_append_iff, List.cons.injEq, List.nil_eq, List.append_eq_nil_iff,
      reduceCtorEq, and_false, or_false, exists_false] at hsteps
    rcases hsteps with ⟨rfl, rfl, _⟩ | ⟨_, rfl, ⟨rfl, rfl, _⟩ | ⟨_, rfl, ⟨rfl, rfl, _⟩ |
      ⟨_, rfl, ⟨rfl, rfl, _⟩ | ⟨_, rfl, ⟨rfl, rfl, _⟩⟩⟩⟩⟩
    all_goals simp [StepKind.Makes, StepKind.isMemory] at hid ⊢
    all_goals grind
  · refine ⟨by simp [StepKind.Plain], by decide, fun front step rest hsteps id hid => ?_⟩
    simp only [List.cons_eq_append_iff, List.cons.injEq, List.nil_eq, List.append_eq_nil_iff,
      reduceCtorEq, and_false, or_false, exists_false] at hsteps
    rcases hsteps with ⟨rfl, rfl, _⟩ | ⟨_, rfl, ⟨rfl, rfl, _⟩⟩
    all_goals simp [StepKind.Makes, StepKind.isMemory] at hid ⊢
    all_goals grind

theorem plainPlans_lowered : ∃ catalog program, Catalog.builtin .rv32 = .ok catalog ∧
    lowerScenarios .standard { catalog, environment := { xlen := .rv32 }, options := { seed := 7 } }
      plainPlans = .ok program := by
  refine lowerScenarios_plain { xlen := .rv32 } { seed := 7 } .wraps plainPlans rfl
    (by decide) plainPlans_plain ?_
  exact List.forall_mem_cons.2 ⟨⟨_, rfl⟩, List.forall_mem_singleton.2 ⟨_, rfl⟩⟩

end Batch

end PlanLowering
