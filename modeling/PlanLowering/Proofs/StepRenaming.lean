import Mathlib.Data.Set.Function
import PlanLowering.Proofs.BuiltActions
import PlanLowering.Proofs.CanonicalForm

/-!
# Plans under other step ids

A renaming replaces the ids of steps and all references to them. Building goes along with it: what is
built of the renamed plan is the renamed action, provided that the scopes of both plans tell the same
about each reference. Messages name ids, so only what succeeds is compared.
-/

namespace PlanLowering

def StepInput.rename (f : Id → Id) : StepInput → StepInput
  | .imm v => .imm v
  | .ref id => .ref (f id)

namespace Step

mutual

def rename (f : Id → Id) : Step → Step
  | { id, kind, inputs, code } =>
    { id := f id, kind, inputs := inputs.map (StepInput.rename f), code := renameAll f code }

def renameAll (f : Id → Id) : List Step → List Step
  | [] => []
  | step :: rest => step.rename f :: renameAll f rest

end

theorem isEmpty_renameAll (f : Id → Id) (steps : List Step) :
    (renameAll f steps).isEmpty = steps.isEmpty := by
  cases steps <;> rfl

end Step

namespace StepScope

def map (f : Id → Id) (scope : StepScope) : StepScope := ⟨scope.memory.map f, scope.code.map f⟩

/-- The scopes tell the same about an id and its new name. -/
structure Agree (f : Id → Id) (scope scope' : StepScope) (id : Id) : Prop where
  memory : scope'.isMemory (f id) = scope.isMemory id
  code : scope'.isCode (f id) = scope.isCode id

theorem map_append (f : Id → Id) (s t : StepScope) : (s.append t).map f = (s.map f).append (t.map f) := by
  simp [map, append]

mutual

theorem ofStep_rename (f : Id → Id) (step : Step) : ofStep (step.rename f) = (ofStep step).map f := by
  match step with
  | { id, kind, inputs, code } =>
    rw [Step.rename, ofStep, ofStep, map_append, ofSteps_rename f code]
    cases kind <;> rfl

theorem ofSteps_rename (f : Id → Id) (steps : List Step) :
    ofSteps (Step.renameAll f steps) = (ofSteps steps).map f := by
  match steps with
  | [] => rfl
  | step :: rest =>
    rw [Step.renameAll, ofSteps, ofSteps, map_append, ofStep_rename f step, ofSteps_rename f rest]

end

mutual

theorem mem_ids_of_ofStep (id : Id) (step : Step) :
    (id ∈ (ofStep step).memory → id ∈ step.ids) ∧ (id ∈ (ofStep step).code → id ∈ step.ids) := by
  match step with
  | { id := own, kind, inputs, code } =>
    have hnested := mem_ids_of_ofSteps id code
    have hown : (id ∈ (StepScope.own own kind).memory → id = own) ∧
        (id ∈ (StepScope.own own kind).code → id = own) := by
      cases kind <;> simp [StepScope.own]
    simp only [ofStep, append, Step.ids, List.mem_append, List.mem_singleton]
    grind

theorem mem_ids_of_ofSteps (id : Id) (steps : List Step) :
    (id ∈ (ofSteps steps).memory → id ∈ Step.idsAll steps) ∧
      (id ∈ (ofSteps steps).code → id ∈ Step.idsAll steps) := by
  match steps with
  | [] => simp [ofSteps]
  | step :: rest =>
    have hstep := mem_ids_of_ofStep id step
    have hrest := mem_ids_of_ofSteps id rest
    simp only [ofSteps, append, Step.idsAll, List.mem_append]
    grind

end

theorem mem_map_of_injOn {f : Id → Id} {ids all : List Id} {id : Id}
    (hinj : Set.InjOn f {x | x ∈ all}) (hsubset : ∀ x ∈ ids, x ∈ all) (hid : id ∈ all) :
    f id ∈ ids.map f ↔ id ∈ ids := by
  refine ⟨fun h => ?_, fun h => List.mem_map_of_mem h⟩
  obtain ⟨x, hx, hsame⟩ := List.mem_map.1 h
  exact hinj (hsubset x hx) hid hsame ▸ hx

theorem agree_of_injOn {f : Id → Id} {steps : List Step} {id : Id}
    (hinj : Set.InjOn f {x | x ∈ Step.idsAll steps}) (hid : id ∈ Step.idsAll steps) :
    Agree f (ofSteps steps) ((ofSteps steps).map f) id where
  memory := by
    simp [isMemory, map, mem_map_of_injOn hinj (fun x => (mem_ids_of_ofSteps x steps).1) hid]
  code := by
    simp [isCode, map, mem_map_of_injOn hinj (fun x => (mem_ids_of_ofSteps x steps).2) hid]

end StepScope

/-- Both computations go on in step when the second starts from the mapped result of the first. -/
theorem toOption_bind_map {ε α α' β β' : Type} {m : Except ε α} {m' : Except ε α'} {g : α → α'}
    {k : α → Except ε β} {k' : α' → Except ε β'} {t : β → β'}
    (hm : m'.toOption = m.toOption.map g) (hk : ∀ a, (k' (g a)).toOption = (k a).toOption.map t) :
    (m' >>= k').toOption = (m >>= k).toOption.map t := by
  rw [toOption_bind, toOption_bind, hm]
  cases m.toOption with
  | none => rfl
  | some a => exact hk a

section Constructors

variable {f : Id → Id} {scope scope' : StepScope} {inputs : List StepInput}

theorem Arithmetic.ofInputs_rename (op : Option String) (inputs : List StepInput) :
    (ofInputs op (inputs.map (StepInput.rename f))).toOption = (ofInputs op inputs).toOption.map
      fun a => { a with src1 := a.src1.map f, src2 := a.src2.map f } := by
  match inputs with
  | [] => rfl
  | [x] => cases x <;> rfl
  | [x, y] => cases x <;> cases y <;> rfl
  | x :: y :: z :: rest => cases x <;> cases y <;> rfl

theorem CsrWrite.ofStep_rename (csr : String) (value setMask clearMask : Option Int64) (direct : Bool)
    (inputs : List StepInput) :
    (ofStep csr value setMask clearMask direct (inputs.map (StepInput.rename f))).toOption =
      (ofStep csr value setMask clearMask direct inputs).toOption.map
        fun w => { w with src := w.src.map f } := by
  cases setMask <;> cases clearMask <;> match inputs with
    | [] => rfl
    | [.imm v] => cases value <;> rfl
    | [.ref id] => rfl
    | x :: _ :: _ => cases x <;> rfl

def Address.mapId (f : Id → Id) : Address → Address
  | .page id => .page (f id)
  | .symbol id => .symbol (f id)
  | .value id => .value (f id)

theorem Access.mapIds_ofStep (address : Option Address) (offset : Int64) (size : Option UInt8)
    (op : Option String) : (Access.ofStep address offset size op).mapIds f =
      Access.ofStep (address.map (Address.mapId f)) offset size op := by
  match address with
  | none | some (.page _) | some (.symbol _) | some (.value _) => rfl

variable (hscope : ∀ id ∈ inputs.filterMap StepInput.id?, StepScope.Agree f scope scope' id)
include hscope

theorem Access.ofLoadInputs_rename :
    (ofLoadInputs scope' (inputs.map (StepInput.rename f))).toOption =
      (ofLoadInputs scope inputs).toOption.map (Option.map (Address.mapId f)) := by
  match inputs with
  | [] => rfl
  | [.imm v] => rfl
  | [.ref id] =>
    have hmemory := (hscope id (by simp [StepInput.id?])).memory
    simp only [List.map_cons, List.map_nil, StepInput.rename, ofLoadInputs, ofRef, hmemory]
    cases scope.isMemory id <;> rfl
  | x :: y :: rest => cases x <;> rfl

theorem Access.ofStoreInputs_rename (memory value : Option Id) :
    (ofStoreInputs scope' (memory.map f) (value.map f) (inputs.map (StepInput.rename f))).toOption =
      (ofStoreInputs scope memory value inputs).toOption.map
        fun (memory, value) => (memory.map f, value.map f) := by
  induction inputs generalizing memory value with
  | nil => rfl
  | cons input rest ih =>
    cases input with
    | imm v => rfl
    | ref id =>
      have hown := (hscope id (by simp [StepInput.id?])).memory
      have hmore := ih fun x hx => hscope x (by simp [StepInput.id?, hx])
      have hpage := hmore (some id) value
      have hvalue := hmore memory (some id)
      simp only [List.map_cons, StepInput.rename, ofStoreInputs, hown, Option.map_eq_none_iff]
      split
      · exact hpage
      · split
        · exact hvalue
        · rfl

theorem StepKind.callTarget_rename :
    (callTarget scope' (inputs.map (StepInput.rename f))).toOption =
      (callTarget scope inputs).toOption.map f := by
  have hfind : (inputs.map (StepInput.rename f)).findSome? StepInput.id? =
      (inputs.findSome? StepInput.id?).map f := by
    clear hscope
    induction inputs with
    | nil => rfl
    | cons input rest ih =>
      cases input with
      | imm v => exact ih
      | ref id => rfl
  simp only [callTarget, hfind]
  cases hid : inputs.findSome? StepInput.id? with
  | none => rfl
  | some id =>
    have hmem : id ∈ inputs.filterMap StepInput.id? := by
      obtain ⟨input, hinput, hsome⟩ := List.exists_of_findSome?_eq_some hid
      exact List.mem_filterMap.2 ⟨input, hinput, hsome⟩
    simp only [Option.map_some, (hscope id hmem).code]
    cases scope.isCode id <;> rfl

omit hscope in
theorem PteTarget.refs_rename (inputs : List StepInput) :
    (refs (inputs.map (StepInput.rename f))).toOption = (refs inputs).toOption.map (List.map f) := by
  induction inputs with
  | nil => rfl
  | cons input rest ih =>
    cases input with
    | imm v => rfl
    | ref id =>
      simp only [List.map_cons, StepInput.rename, refs, toOption_bind, toOption_pure, ih]
      cases (refs rest).toOption <;> rfl

theorem PteTarget.ofInputs_rename (level : Option Nat) (values : Nat) :
    (ofInputs scope' level values (inputs.map (StepInput.rename f))).toOption =
      (ofInputs scope level values inputs).toOption.map (PteTarget.mapIds f) := by
  simp only [ofInputs, toOption_bind, refs_rename]
  cases hids : (refs inputs).toOption with
  | none => rfl
  | some ids =>
    have hmem := refs_toOption hids
    cases ids with
    | nil => rfl
    | cons memory rest =>
      have hmemory := (hscope memory (by simp [hmem])).memory
      simp only [Option.map_some, Option.bind_some, List.map_cons, List.length_map, hmemory]
      split
      · rfl
      · cases scope.isMemory memory
        · rfl
        · cases rest <;> rfl

end Constructors

namespace StepKind

variable {f : Id → Id} {scope scope' : StepScope} {inputs : List StepInput} {id : Id}

theorem withoutInputs_rename (kind : StepKind) (inputs : List StepInput) :
    (kind.withoutInputs (inputs.map (StepInput.rename f))).toOption =
      (kind.withoutInputs inputs).toOption.map fun done => done := by
  cases inputs <;> rfl

theorem comparison_rename (relation : Relation) (inputs : List StepInput) :
    (comparison relation (inputs.map (StepInput.rename f))).toOption =
      (comparison relation inputs).toOption.map (Op.mapIds f) := by
  match inputs with
  | [] => rfl
  | [x] => cases x <;> rfl
  | [x, y] => cases x <;> cases y <;> rfl
  | x :: y :: z :: rest => cases x <;> cases y <;> rfl

theorem action_rename (hscope : ∀ x ∈ inputs.filterMap StepInput.id?, StepScope.Agree f scope scope' x)
    (id : Id) (code : List Action) (kind : StepKind) :
    (kind.action scope' (f id) (inputs.map (StepInput.rename f)) (Action.mapIdsAll f code)).toOption =
      (kind.action scope id inputs code).toOption.map (Action.mapIds f) := by
  have hempty : (Action.mapIdsAll f code).isEmpty = code.isEmpty := by cases code <;> rfl
  cases kind with
  | arithmetic op =>
    exact toOption_bind_map (Arithmetic.ofInputs_rename op inputs) fun _ => rfl
  | load offset size op =>
    refine toOption_bind_map (Access.ofLoadInputs_rename hscope) fun address => ?_
    refine toOption_bind_map Option.map_id'.symm fun _ => ?_
    simp only [toOption_pure, Option.map_some, Action.new, Action.mapIds, Op.mapIds,
      Access.mapIds_ofStep]
  | store offset size op =>
    refine toOption_bind_map Option.map_id'.symm fun _ => ?_
    refine toOption_bind_map (Access.ofStoreInputs_rename hscope none none) fun (page, value) => ?_
    simp only [toOption_pure, Option.map_some, Action.new, Action.mapIds, Op.mapIds,
      Access.mapIds_ofStep, Option.map_map]
    rfl
  | memory spec =>
    refine toOption_bind_map (withoutInputs_rename _ inputs) fun _ => ?_
    simp only
    split <;> rfl
  | codePage spec =>
    exact toOption_bind_map (withoutInputs_rename _ inputs) fun _ => rfl
  | call =>
    exact toOption_bind_map (callTarget_rename hscope) fun _ => rfl
  | csrRead csr direct =>
    exact toOption_bind_map (withoutInputs_rename _ inputs) fun _ => rfl
  | csrWrite csr value setMask clearMask direct =>
    exact toOption_bind_map (CsrWrite.ofStep_rename csr value setMask clearMask direct inputs)
      fun _ => rfl
  | assertEqual | assertNotEqual =>
    exact toOption_bind_map (comparison_rename _ inputs) fun _ => rfl
  | assertException cause =>
    refine toOption_bind_map (withoutInputs_rename _ inputs) fun _ => ?_
    simp only [hempty]
    cases code.isEmpty <;> rfl
  | readPte level | readLeafPte | writePte level | writeLeafPte =>
    exact toOption_bind_map (PteTarget.ofInputs_rename hscope _ _) fun _ => rfl
  | modifyPte level recursive =>
    match inputs with
    | [] => rfl
    | [.imm v] => rfl
    | [.ref page] =>
      have hmemory := (hscope page (by simp [StepInput.id?])).memory
      simp only [action, List.map_cons, List.map_nil, StepInput.rename, hmemory]
      cases scope.isMemory page <;> rfl
    | x :: y :: rest => cases x <;> rfl
  | system instruction =>
    refine toOption_bind_map (withoutInputs_rename _ inputs) fun _ => ?_
    simp only
    split <;> rfl
  | comment text => rfl

end StepKind

namespace StepBuilders

variable {f : Id → Id} {scope scope' : StepScope}

mutual

theorem build_rename (step : Step) (hscope : ∀ x ∈ step.refs, StepScope.Agree f scope scope' x) :
    (standard.build scope' (step.rename f)).toOption =
      (standard.build scope step).toOption.map (Action.mapIds f) := by
  match step with
  | { id, kind, inputs, code } =>
    rw [Step.refs, List.forall_mem_append] at hscope
    rw [Step.rename, build_standard, build_standard, Step.isEmpty_renameAll]
    split
    · rfl
    · rw [buildAll_rename code hscope.2]
      cases (standard.buildAll scope code).toOption with
      | none => rfl
      | some actions => exact StepKind.action_rename hscope.1 id actions kind

theorem buildAll_rename (steps : List Step)
    (hscope : ∀ x ∈ Step.refsAll steps, StepScope.Agree f scope scope' x) :
    (standard.buildAll scope' (Step.renameAll f steps)).toOption =
      (standard.buildAll scope steps).toOption.map (Action.mapIdsAll f) := by
  match steps with
  | [] => rfl
  | step :: rest =>
    rw [Step.refsAll, List.forall_mem_append] at hscope
    refine toOption_bind_map (build_rename step hscope.1) fun a => ?_
    exact toOption_bind_map (buildAll_rename rest hscope.2) fun _ => rfl

end

end StepBuilders

namespace Scenario

variable {f : Id → Id} {scenario : Scenario}

/-- Replaces the ids of all steps and all references. -/
def rename (f : Id → Id) (scenario : Scenario) : Scenario :=
  { scenario with steps := Step.renameAll f scenario.steps }

def ids (scenario : Scenario) : List Id := Step.idsAll scenario.steps

/-- Steps refer to steps of the scenario only. -/
def Closed (scenario : Scenario) : Prop := ∀ x ∈ Step.refsAll scenario.steps, x ∈ scenario.ids

instance (scenario : Scenario) : Decidable scenario.Closed :=
  inferInstanceAs (Decidable (∀ x ∈ Step.refsAll scenario.steps, x ∈ scenario.ids))

end Scenario

def TestCase.mapIds (f : Id → Id) (test : TestCase) : TestCase :=
  { test with actions := Action.mapIdsAll f test.actions }

def TestCase.Closed (test : TestCase) : Prop := ∀ a ∈ test.order, ∀ x ∈ a.ids, x ∈ test.ids

namespace StepBuilders

variable {f : Id → Id} {scenario : Scenario} {test : TestCase}

theorem buildTest_rename (hclosed : scenario.Closed) (hinj : Set.InjOn f {x | x ∈ scenario.ids}) :
    (standard.buildTest (scenario.rename f)).toOption =
      (standard.buildTest scenario).toOption.map (TestCase.mapIds f) := by
  have hscope : ∀ x ∈ Step.refsAll scenario.steps, StepScope.Agree f
      (StepScope.ofSteps scenario.steps) ((StepScope.ofSteps scenario.steps).map f) x :=
    fun x hx => StepScope.agree_of_injOn hinj (hclosed x hx)
  rw [buildTest, Scenario.rename, StepScope.ofSteps_rename]
  exact toOption_bind_map (buildAll_rename scenario.steps hscope) fun _ => rfl

theorem buildTest_closed (hclosed : scenario.Closed) (h : standard.buildTest scenario = .ok test) :
    test.ids = scenario.ids ∧ test.Closed := by
  simp only [buildTest, except_bind_ok, except_pure_ok] at h
  obtain ⟨actions, hactions, rfl⟩ := h
  obtain ⟨hids, hrefs⟩ := buildAll_order hactions
  refine ⟨hids, fun a ha x hx => ?_⟩
  rw [TestCase.ids, TestCase.order, hids]
  exact hclosed x (hrefs a ha x hx)

end StepBuilders

end PlanLowering
