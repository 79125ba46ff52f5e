import PlanLowering.Proofs.BuiltActions
import PlanLowering.Proofs.Pins
import PlanLowering.Proofs.WrittenValues

/-!
# Tests in the shape of their plans

The actions of a test stand as its steps do: in the same order and nested the same way, each with
the id of its step and with the operation that the kind of the step asks for. A plan that has no
such test is blamed at one of its steps, with an error of its content.
-/

namespace PlanLowering

namespace Step

mutual

def parts : Step → List Step
  | { id, kind, inputs, code } => { id, kind, inputs, code } :: partsAll code

def partsAll : List Step → List Step
  | [] => []
  | step :: rest => step.parts ++ partsAll rest

end

/-- Only code pages and assertions of exceptions own code, and the latter own some. -/
structure WellNested (step : Step) : Prop where
  owner : step.code ≠ [] →
    (∃ spec, step.kind = .codePage spec) ∨ ∃ cause, step.kind = .assertException cause
  faulting : ∀ cause, step.kind = .assertException cause → step.code ≠ []

end Step

/-- The kind of a step without nested ones and the operation that it asks for. Operands come from
the inputs of the step, as does the value of a control register where the kind gives none. -/
inductive StepKind.Becomes : StepKind → Op → Prop
  | arithmetic {a : Arithmetic} : StepKind.Becomes (.arithmetic a.op) (.arithmetic a)
  | load {offset : Int64} {size : Option UInt8} {op : Option String} {a : Access}
      (hoffset : a.offset = offset.toInt) (hsize : a.size = size.map UInt8.toNat)
      (hop : a.op = op) : StepKind.Becomes (.load offset size op) (.load a)
  | store {offset : Int64} {size : Option UInt8} {op : Option String} {a : Access}
      {value : Option Id} (hoffset : a.offset = offset.toInt)
      (hsize : a.size = size.map UInt8.toNat) (hop : a.op = op) :
      StepKind.Becomes (.store offset size op) (.store a value)
  | memory {spec : PageSpec} : StepKind.Becomes (.memory spec) (.memory spec)
  | call {target : Id} : StepKind.Becomes .call (.call target none)
  | csrRead {csr : String} {direct : Bool} :
      StepKind.Becomes (.csrRead csr direct) (.csrRead csr direct)
  | csrWrite {w : CsrWrite} {value setMask clearMask : Option Int64}
      (hhow : w.how = .ofMasks setMask clearMask)
      (hvalue : ∀ v, (setMask <|> clearMask <|> value) = some v → w.value = some v.toInt) :
      StepKind.Becomes (.csrWrite w.csr value setMask clearMask w.direct) (.csrWrite w)
  | assertEqual {lhs rhs : Id} : StepKind.Becomes .assertEqual (.compare .equal lhs rhs none)
  | assertNotEqual {lhs rhs : Id} :
      StepKind.Becomes .assertNotEqual (.compare .different lhs rhs none)
  | readPte {level : UInt8} {t : PteTarget} (hlevel : t.level = some level.toNat) :
      StepKind.Becomes (.readPte level) (.readPte t)
  | readLeafPte {t : PteTarget} (hlevel : t.level = none) :
      StepKind.Becomes .readLeafPte (.readPte t)
  | writePte {level : UInt8} {t : PteTarget} (hlevel : t.level = some level.toNat) :
      StepKind.Becomes (.writePte level) (.writePte t)
  | writeLeafPte {t : PteTarget} (hlevel : t.level = none) :
      StepKind.Becomes .writeLeafPte (.writePte t)
  | modifyPte {page : Id} {level : UInt8} {recursive : Bool} :
      StepKind.Becomes (.modifyPte level recursive) (.modifyPte page level recursive)
  | system {text : String} :
      StepKind.Becomes (.system text) (.system (String.ofList (Text.trim text.toList)))
  | comment {text : String} : StepKind.Becomes (.comment text) (.comment text)

/-- The kind of a step that owns code and the owner that it becomes. -/
inductive StepKind.BecomesOwner : StepKind → Block → Prop
  | codePage {spec : PageSpec} : StepKind.BecomesOwner (.codePage spec) (.codePage spec)
  | assertException {cause : ExceptionCause} :
      StepKind.BecomesOwner (.assertException cause) (.assertException cause none none)

/-- The action has the id of the step and what its kind asks for, and each nested action mirrors
the nested step at its place. -/
inductive Step.Mirrors : Step → Action → Prop
  | simple {id : Id} {kind : StepKind} {inputs : List StepInput} {op : Op}
      (hkind : kind.Becomes op) : Step.Mirrors { id, kind, inputs, code := [] } (.new id op)
  | block {id : Id} {kind : StepKind} {inputs : List StepInput} {code : List Step} {owner : Block}
      {actions : List Action} (hkind : kind.BecomesOwner owner)
      (hcode : List.Forall₂ Step.Mirrors code actions) :
      Step.Mirrors { id, kind, inputs, code } (.block id false owner actions)

section Payloads

variable {scope : StepScope} {inputs : List StepInput}

theorem CsrWrite.ofStep_value {csr : String} {value setMask clearMask : Option Int64}
    {direct : Bool} {w : CsrWrite} (h : ofStep csr value setMask clearMask direct inputs = .ok w)
    (v : Int64) (hv : (setMask <|> clearMask <|> value) = some v) : w.value = some v.toInt := by
  cases setMask <;> cases clearMask <;> match inputs with
    | [] | [.ref _] => cases h <;> cases hv <;> rfl
    | [.imm _] => cases value <;> cases h <;> cases hv
    | x :: _ :: _ => cases x <;> cases h

theorem PteTarget.ofInputs_level {level : Option Nat} {values : Nat} {t : PteTarget}
    (h : ofInputs scope level values inputs = .ok t) : t.level = level := by
  rw [ofInputs, except_bind_ok] at h
  obtain ⟨ids, _, h⟩ := h
  cases ids with
  | nil => cases h
  | cons memory rest =>
    simp only at h
    split at h
    · cases h
    · split at h
      · cases h; rfl
      · cases h

end Payloads

namespace StepKind

variable {scope : StepScope} {id : Id} {inputs : List StepInput} {kind : StepKind}
variable {actions : List Action} {a : Action}

theorem acceptsCode_iff : kind.acceptsCode = true ↔
    (∃ spec, kind = .codePage spec) ∨ ∃ cause, kind = .assertException cause := by
  cases kind <;> simp [acceptsCode]

theorem action_becomes (hcode : kind.acceptsCode = false)
    (h : kind.action scope id inputs actions = .ok a) : ∃ op, a = .new id op ∧ kind.Becomes op := by
  obtain ⟨op, rfl, hgives⟩ := action_gives hcode h
  refine ⟨op, rfl, ?_⟩
  cases hgives with
  | arithmetic ha =>
    cases Arithmetic.ofInputs_op ha
    exact .arithmetic
  | load => exact .load rfl rfl rfl
  | store => exact .store rfl rfl rfl
  | memory => exact .memory
  | call => exact .call
  | csrRead => exact .csrRead
  | csrWrite hw =>
    obtain ⟨rfl, hhow, rfl, _⟩ := CsrWrite.ofStep_supply hw
    exact .csrWrite hhow (CsrWrite.ofStep_value hw)
  | assertEqual => exact .assertEqual
  | assertNotEqual => exact .assertNotEqual
  | readPte ht => exact .readPte (PteTarget.ofInputs_level ht)
  | readLeafPte ht => exact .readLeafPte (PteTarget.ofInputs_level ht)
  | writePte ht => exact .writePte (PteTarget.ofInputs_level ht)
  | writeLeafPte ht => exact .writeLeafPte (PteTarget.ofInputs_level ht)
  | modifyPte => exact .modifyPte
  | system => exact .system
  | comment => exact .comment

theorem action_becomesOwner (hcode : kind.acceptsCode = true)
    (h : kind.action scope id inputs actions = .ok a) :
    (∃ owner, a = .block id false owner actions ∧ kind.BecomesOwner owner) ∧
      ∀ cause, kind = .assertException cause → actions ≠ [] := by
  obtain ⟨owner, rfl, hheads⟩ := action_heads hcode h
  cases hheads with
  | codePage => exact ⟨⟨_, rfl, .codePage⟩, by simp⟩
  | assertException hsome => exact ⟨⟨_, rfl, .assertException⟩, fun _ _ => hsome⟩

end StepKind

namespace StepBuilders

variable {scope : StepScope} {step : Step} {steps : List Step} {a : Action} {actions : List Action}

mutual

theorem build_mirrors {step : Step} {a : Action} (h : standard.build scope step = .ok a) :
    step.Mirrors a ∧ ∀ s ∈ step.parts, s.WellNested := by
  match step with
  | { id, kind, inputs, code } =>
    obtain ⟨actions, hactions, haction, hnone⟩ := build_ok h
    obtain ⟨hmirrors, hnested⟩ := buildAll_mirrors hactions
    rw [Step.parts, List.forall_mem_cons]
    cases haccepts : kind.acceptsCode with
    | true =>
      obtain ⟨⟨owner, rfl, howner⟩, hsome⟩ := StepKind.action_becomesOwner haccepts haction
      refine ⟨.block howner hmirrors, ⟨fun _ => StepKind.acceptsCode_iff.1 haccepts, ?_⟩, hnested⟩
      rintro cause hkind rfl
      exact hsome cause hkind (List.forall₂_nil_left_iff.1 hmirrors)
    | false =>
      obtain rfl := hnone haccepts
      obtain ⟨op, rfl, hop⟩ := StepKind.action_becomes haccepts haction
      refine ⟨.simple hop, ⟨absurd rfl, ?_⟩, hnested⟩
      rintro cause rfl
      cases haccepts

theorem buildAll_mirrors {steps : List Step} {actions : List Action}
    (h : standard.buildAll scope steps = .ok actions) :
    List.Forall₂ Step.Mirrors steps actions ∧ ∀ s ∈ Step.partsAll steps, s.WellNested := by
  match steps with
  | [] =>
    cases h
    exact ⟨.nil, by simp [Step.partsAll]⟩
  | step :: rest =>
    obtain ⟨a, more, ha, hmore, rfl⟩ := buildAll_cons_ok h
    obtain ⟨hstep, hown⟩ := build_mirrors ha
    obtain ⟨hrest, hfurther⟩ := buildAll_mirrors hmore
    exact ⟨.cons hstep hrest, List.forall_mem_append.2 ⟨hown, hfurther⟩⟩

end

mutual

theorem build_blames {step : Step} {e : LoweringError} (h : standard.build scope step = .error e) :
    ∃ s ∈ step.parts, ∃ flaw, e = .invalidStep s.id flaw := by
  match step with
  | { id, kind, inputs, code } =>
    rw [Step.parts]
    rw [build] at h
    split at h
    · cases h
      exact ⟨_, List.mem_cons_self, _, rfl⟩
    · simp only [standard, except_bind_error] at h
      rcases h with h | ⟨actions, _, h⟩
      · obtain ⟨s, hs, hblame⟩ := buildAll_blames h
        exact ⟨s, List.mem_cons_of_mem _ hs, hblame⟩
      · rw [StepBuilder.ofKind] at h
        split at h
        · cases h
        · cases h
          exact ⟨_, List.mem_cons_self, _, rfl⟩

theorem buildAll_blames {steps : List Step} {e : LoweringError}
    (h : standard.buildAll scope steps = .error e) :
    ∃ s ∈ Step.partsAll steps, ∃ flaw, e = .invalidStep s.id flaw := by
  match steps with
  | [] => cases h
  | step :: rest =>
    simp only [buildAll, except_bind_error, except_pure_error, and_false, exists_false,
      or_false] at h
    rcases h with h | ⟨a, _, h⟩
    · obtain ⟨s, hs, hblame⟩ := build_blames h
      exact ⟨s, List.mem_append_left _ hs, hblame⟩
    · obtain ⟨s, hs, hblame⟩ := buildAll_blames h
      exact ⟨s, List.mem_append_right _ hs, hblame⟩

end

/-- A test mirrors its scenario step by step at every depth, and is built only where code is owned
by code pages and assertions of exceptions and by all of the latter. Otherwise a step of the
scenario is blamed, for its content. -/
theorem buildTest_mirrors (scenario : Scenario) :
    (∃ test, standard.buildTest scenario = .ok test ∧ test.name = scenario.name ∧
      List.Forall₂ Step.Mirrors scenario.steps test.actions ∧
      ∀ s ∈ Step.partsAll scenario.steps, s.WellNested) ∨
    ∃ e, standard.buildTest scenario = .error e ∧ e.origin = .content ∧
      ∃ s ∈ Step.partsAll scenario.steps, ∃ flaw, e = .invalidStep s.id flaw := by
  cases hbuilt : standard.buildAll (.ofSteps scenario.steps) scenario.steps with
  | ok actions =>
    obtain ⟨hmirrors, hnested⟩ := buildAll_mirrors hbuilt
    exact .inl ⟨⟨scenario.name, actions⟩, by rw [buildTest, hbuilt]; rfl, rfl, hmirrors, hnested⟩
  | error e =>
    obtain ⟨s, hs, flaw, rfl⟩ := buildAll_blames hbuilt
    exact .inr ⟨_, by rw [buildTest, hbuilt]; rfl, rfl, s, hs, flaw, rfl⟩

end StepBuilders

end PlanLowering
