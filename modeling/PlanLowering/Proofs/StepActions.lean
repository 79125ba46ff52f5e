import PlanLowering.Action.Build
import PlanLowering.Proofs.Outcome

/-!
# Actions of steps

What the constructor of each kind made of the inputs of a step. Results about built actions follow
the constructors by these lemmas and by no definition of one.
-/

namespace PlanLowering

namespace StepKind

/-- The operation of a step without nested ones, and what its inputs had to be. -/
inductive Gives (scope : StepScope) (inputs : List StepInput) : StepKind → Op → Prop where
  | arithmetic {op a} (ha : Arithmetic.ofInputs op inputs = .ok a) :
      Gives scope inputs (.arithmetic op) (.arithmetic a)
  | load {offset size op address} (haddress : Access.ofLoadInputs scope inputs = .ok address)
      (hsize : Access.checkSize size = .ok ()) :
      Gives scope inputs (.load offset size op) (.load (Access.ofStep address offset size op))
  | store {offset size op page value} (hsize : Access.checkSize size = .ok ())
      (hinputs : Access.ofStoreInputs scope none none inputs = .ok (page, value)) :
      Gives scope inputs (.store offset size op)
        (.store (Access.ofStep (page.map .page) offset size op) value)
  | memory {spec} (hinputs : inputs = []) (hsize : spec.size ≠ 0) :
      Gives scope inputs (.memory spec) (.memory spec)
  | call {target} (htarget : inputs.findSome? StepInput.id? = some target)
      (hcode : scope.isCode target) : Gives scope inputs .call (.call target none)
  | csrRead {csr direct} (hinputs : inputs = []) :
      Gives scope inputs (.csrRead csr direct) (.csrRead csr direct)
  | csrWrite {csr value setMask clearMask direct w}
      (hw : CsrWrite.ofStep csr value setMask clearMask direct inputs = .ok w) :
      Gives scope inputs (.csrWrite csr value setMask clearMask direct) (.csrWrite w)
  | assertEqual {lhs rhs} (hinputs : inputs = [.ref lhs, .ref rhs]) :
      Gives scope inputs .assertEqual (.compare .equal lhs rhs none)
  | assertNotEqual {lhs rhs} (hinputs : inputs = [.ref lhs, .ref rhs]) :
      Gives scope inputs .assertNotEqual (.compare .different lhs rhs none)
  | readPte {level t} (ht : PteTarget.ofInputs scope (some level.toNat) 0 inputs = .ok t) :
      Gives scope inputs (.readPte level) (.readPte t)
  | readLeafPte {t} (ht : PteTarget.ofInputs scope none 0 inputs = .ok t) :
      Gives scope inputs .readLeafPte (.readPte t)
  | writePte {level t} (ht : PteTarget.ofInputs scope (some level.toNat) 1 inputs = .ok t) :
      Gives scope inputs (.writePte level) (.writePte t)
  | writeLeafPte {t} (ht : PteTarget.ofInputs scope none 1 inputs = .ok t) :
      Gives scope inputs .writeLeafPte (.writePte t)
  | modifyPte {level recursive page} (hinputs : inputs = [.ref page])
      (hpage : scope.isMemory page) :
      Gives scope inputs (.modifyPte level recursive) (.modifyPte page level recursive)
  | system {text} (hinputs : inputs = []) (hname : Text.trim text.toList ≠ []) :
      Gives scope inputs (.system text) (.system (String.ofList (Text.trim text.toList)))
  | comment {text} : Gives scope inputs (.comment text) (.comment text)

inductive Heads (code : List Action) : StepKind → Block → Prop where
  | codePage {spec} : Heads code (.codePage spec) (.codePage spec)
  | assertException {cause} (hcode : code ≠ []) :
      Heads code (.assertException cause) (.assertException cause none none)

variable {scope : StepScope} {id : Id} {inputs : List StepInput} {code : List Action}
variable {kind : StepKind} {a : Action}

theorem withoutInputs_ok {u : Unit} (h : kind.withoutInputs inputs = .ok u) : inputs = [] := by
  cases inputs with
  | nil => rfl
  | cons => cases h

theorem callTarget_ok (h : callTarget scope inputs = .ok id) :
    inputs.findSome? StepInput.id? = some id ∧ scope.isCode id := by
  unfold callTarget at h
  split at h
  · cases h
  · next hfound =>
    split at h
    · next hcode =>
      cases h
      exact ⟨hfound, hcode⟩
    · cases h

theorem comparison_ok {relation : Relation} {op : Op} (h : comparison relation inputs = .ok op) :
    ∃ lhs rhs, inputs = [.ref lhs, .ref rhs] ∧ op = .compare relation lhs rhs none := by
  unfold comparison at h
  split at h
  · next lhs rhs =>
    cases h
    exact ⟨lhs, rhs, rfl, rfl⟩
  · cases h

theorem action_gives (haccepts : kind.acceptsCode = false)
    (h : kind.action scope id inputs code = .ok a) :
    ∃ op, a = .new id op ∧ kind.Gives scope inputs op := by
  cases kind with
  | arithmetic op =>
    simp only [action, except_bind_ok, except_pure_ok] at h
    obtain ⟨a, ha, rfl⟩ := h
    exact ⟨_, rfl, .arithmetic ha⟩
  | load offset size op =>
    simp only [action, except_bind_ok, except_pure_ok] at h
    obtain ⟨address, haddress, _, hsize, rfl⟩ := h
    exact ⟨_, rfl, .load haddress hsize⟩
  | store offset size op =>
    simp only [action, except_bind_ok, except_pure_ok, Prod.exists] at h
    obtain ⟨_, hsize, page, value, hinputs, rfl⟩ := h
    exact ⟨_, rfl, .store hsize hinputs⟩
  | memory spec =>
    simp only [action, except_bind_ok] at h
    obtain ⟨_, hinputs, h⟩ := h
    split at h
    · cases h
    · next hsize =>
      cases h
      exact ⟨_, rfl, .memory (withoutInputs_ok hinputs) hsize⟩
  | call =>
    simp only [action, except_bind_ok, except_pure_ok] at h
    obtain ⟨target, htarget, rfl⟩ := h
    obtain ⟨hfound, hcode⟩ := callTarget_ok htarget
    exact ⟨_, rfl, .call hfound hcode⟩
  | csrRead csr direct =>
    simp only [action, except_bind_ok, except_pure_ok] at h
    obtain ⟨_, hinputs, rfl⟩ := h
    exact ⟨_, rfl, .csrRead (withoutInputs_ok hinputs)⟩
  | csrWrite csr value setMask clearMask direct =>
    simp only [action, except_bind_ok, except_pure_ok] at h
    obtain ⟨w, hw, rfl⟩ := h
    exact ⟨_, rfl, .csrWrite hw⟩
  | assertEqual =>
    simp only [action, except_bind_ok, except_pure_ok] at h
    obtain ⟨_, hop, rfl⟩ := h
    obtain ⟨lhs, rhs, hinputs, rfl⟩ := comparison_ok hop
    exact ⟨_, rfl, .assertEqual hinputs⟩
  | assertNotEqual =>
    simp only [action, except_bind_ok, except_pure_ok] at h
    obtain ⟨_, hop, rfl⟩ := h
    obtain ⟨lhs, rhs, hinputs, rfl⟩ := comparison_ok hop
    exact ⟨_, rfl, .assertNotEqual hinputs⟩
  | readPte level =>
    simp only [action, except_bind_ok, except_pure_ok] at h
    obtain ⟨t, ht, rfl⟩ := h
    exact ⟨_, rfl, .readPte ht⟩
  | readLeafPte =>
    simp only [action, except_bind_ok, except_pure_ok] at h
    obtain ⟨t, ht, rfl⟩ := h
    exact ⟨_, rfl, .readLeafPte ht⟩
  | writePte level =>
    simp only [action, except_bind_ok, except_pure_ok] at h
    obtain ⟨t, ht, rfl⟩ := h
    exact ⟨_, rfl, .writePte ht⟩
  | writeLeafPte =>
    simp only [action, except_bind_ok, except_pure_ok] at h
    obtain ⟨t, ht, rfl⟩ := h
    exact ⟨_, rfl, .writeLeafPte ht⟩
  | modifyPte level recursive =>
    simp only [action] at h
    split at h
    · split at h
      · next hpage =>
        cases h
        exact ⟨_, rfl, .modifyPte rfl hpage⟩
      · cases h
    · cases h
  | system text =>
    simp only [action, except_bind_ok] at h
    obtain ⟨_, hinputs, h⟩ := h
    split at h
    · cases h
    · next hname =>
      cases h
      exact ⟨_, rfl, .system (withoutInputs_ok hinputs) hname⟩
  | comment text =>
    cases h
    exact ⟨_, rfl, .comment⟩
  | codePage | assertException => cases haccepts

theorem action_heads (haccepts : kind.acceptsCode) (h : kind.action scope id inputs code = .ok a) :
    ∃ owner, a = .block id false owner code ∧ kind.Heads code owner := by
  cases kind with
  | codePage spec =>
    simp only [action, except_bind_ok, except_pure_ok] at h
    obtain ⟨_, _, rfl⟩ := h
    exact ⟨_, rfl, .codePage⟩
  | assertException cause =>
    simp only [action, except_bind_ok] at h
    obtain ⟨_, _, h⟩ := h
    split at h
    · cases h
    · next hcode =>
      cases h
      exact ⟨_, rfl, .assertException (by simpa using hcode)⟩
  | _ => cases haccepts

end StepKind

variable {scope : StepScope} {code : List Action} {a : Action}

theorem StepBuilder.ofKind_ok {step : Step} (h : ofKind step scope code = .ok a) :
    step.kind.action scope step.id step.inputs code = .ok a := by
  unfold ofKind at h
  split at h
  · next haction => rwa [except_pure_ok.1 h] at haction
  · simp at h

namespace StepBuilders

/-- The constructor is handed the actions of the nested steps, of which there are none unless the kind
accepts them. -/
theorem build_ok {id : Id} {kind : StepKind} {inputs : List StepInput} {nested : List Step}
    (h : standard.build scope { id, kind, inputs, code := nested } = .ok a) :
    ∃ actions, standard.buildAll scope nested = .ok actions ∧
      kind.action scope id inputs actions = .ok a ∧ (kind.acceptsCode = false → nested = []) := by
  rw [build] at h
  by_cases howns : (!nested.isEmpty && !kind.acceptsCode) = true
  · simp [howns] at h
  · rw [if_neg howns] at h
    obtain ⟨actions, hactions, hkind⟩ := except_bind_ok.1 h
    exact ⟨actions, hactions, StepBuilder.ofKind_ok hkind, fun haccepts => by simpa [haccepts] using howns⟩

theorem buildAll_cons_ok {step : Step} {rest : List Step} {actions : List Action}
    (h : standard.buildAll scope (step :: rest) = .ok actions) :
    ∃ a more, standard.build scope step = .ok a ∧ standard.buildAll scope rest = .ok more ∧
      actions = a :: more := by
  simp only [buildAll, except_bind_ok, except_pure_ok] at h
  obtain ⟨a, ha, more, hmore, rfl⟩ := h
  exact ⟨a, more, ha, hmore, rfl⟩

end StepBuilders
end PlanLowering
