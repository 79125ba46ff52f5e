import PlanLowering.Action.Build
import PlanLowering.Proofs.Stock
import PlanLowering.Proofs.ExpansionShapes

/-!
# Values written to control registers

A step that writes a control register gives the value in one of several places, or leaves it to
chance. Expansion brings the value to where the instruction finds it, and selection picks the form
that reads it there: both look at the value, its source and the privilege of the register, so the
two are followed together.
-/

namespace PlanLowering

def StepInput.imm? : StepInput → Option Int64
  | .imm v => some v
  | .ref _ => none

/-- Where a value that is written comes from. -/
inductive CsrSupply where
  | reference (src : Id)
  | word (v : Int)
  deriving DecidableEq

namespace Instruction

/-- The instruction that loads a constant. -/
def loadConstant (id : Id) (into value : OperandValue) : Instruction where
  id := id
  name := "li"
  category := .pseudo
  destination := some { slot := .rd, type := .register .gpr, value := into }
  sources := [{ slot := .imm, type := .imm, value }]

def copy (id : Id) (into src : OperandValue) : Instruction where
  id := id
  name := "mv"
  category := .pseudo
  destination := some { slot := .rd, type := .register .gpr, value := into }
  sources := [{ slot := .rs1, type := .register .gpr, value := src }]

/-- The instruction that updates a control register, with a constant or with a register. -/
def updateCsr (how : CsrUpdate) (immediate : Bool) (id : Id) (into csr value : OperandValue) :
    Instruction where
  id := id
  name := how.mnemonic immediate
  category := .csr
  extension := .zicsr
  destination := some { slot := .rd, type := .register .gpr, value := into }
  sources := [{ slot := .csr, type := .csr, value := csr },
    if immediate then { slot := .imm, type := .imm, value }
    else { slot := .rs1, type := .register .gpr, value }]

def openWrites : List Instruction :=
  loadConstant "" .unset .unset :: copy "" .unset .unset ::
    [CsrUpdate.write, .set, .clear].flatMap fun how =>
      [updateCsr how true "" .unset .unset .unset, updateCsr how false "" .unset .unset .unset]

end Instruction

theorem Catalog.builtin_openWrites {xlen : Xlen} {catalog : Catalog} {i : Instruction}
    (h : builtin xlen = .ok catalog) (hi : i ∈ Instruction.openWrites) :
    catalog.instruction i.name = .ok i := by
  have hstock : ∀ i ∈ Instruction.openWrites,
      ((builtinTemplates xlen).find? (·.name = i.name)).map Template.instruction = some i := by
    cases xlen <;> decide +kernel
  have hfound := hstock i hi
  rw [← templates_of_builtin h, ← find?_eq] at hfound
  exact Catalog.instruction_ok.2 (Option.map_eq_some_iff.1 hfound)

namespace CsrSupply

def reference? : CsrSupply → Option Id
  | .reference src => some src
  | .word _ => none

/-- The instruction that brings the value into t2, under an id of its own. -/
def intoT2 (load : Id) : CsrSupply → Instruction
  | .reference src =>
    { Instruction.copy load (.reg .t2) (.virtual src) with clobbers := runtimeClobbers }
  | .word v =>
    { Instruction.loadConstant load (.reg .t2) (.imm v) with clobbers := runtimeClobbers }

/-- Code that updates a control register with the value. What has to be brought somewhere first is
brought there under the id `load`. -/
def code (env : Environment) (csr : String) (how : CsrUpdate) (direct : Bool) (id load : Id)
    (supply : CsrSupply) : List Instruction :=
  if env.needsRuntime csr then
    [supply.intoT2 load, { Instruction.csrDirective csr (.update how) direct with id }]
  else match supply with
    | .reference src => [.updateCsr how false id (.virtual id) (.symbol csr) (.virtual src)]
    | .word v =>
      if 0 ≤ v ∧ v ≤ 31 then [.updateCsr how true id (.virtual id) (.symbol csr) (.imm v)]
      else [.loadConstant load (.virtual load) (.imm v),
        .updateCsr how false id (.virtual id) (.symbol csr) (.virtual load)]

end CsrSupply

/-- A mask says how the register is updated. -/
def CsrUpdate.ofMasks (setMask clearMask : Option Int64) : CsrUpdate :=
  if setMask.isSome then .set else if clearMask.isSome then .clear else .write

namespace CsrWrite

/-- What a step gives for the value, the reference first. -/
def given (value setMask clearMask : Option Int64) (inputs : List StepInput) : Option CsrSupply :=
  match inputs.findSome? StepInput.id? with
  | some src => some (.reference src)
  | none => (setMask <|> clearMask <|> value <|> inputs.findSome? StepInput.imm?).map
      fun v => .word v.toInt

def supply? (w : CsrWrite) : Option CsrSupply :=
  match w.src with
  | some src => some (.reference src)
  | none => w.value.map .word

variable {csr : String} {value setMask clearMask : Option Int64} {direct : Bool}
variable {inputs : List StepInput} {w w' : CsrWrite} {context : Context} {s t : State}
variable {supply : CsrSupply} {id load : Id} {action : String} {xlen : Xlen}

theorem ofStep_supply (h : ofStep csr value setMask clearMask direct inputs = .ok w) :
    w.csr = csr ∧ w.how = .ofMasks setMask clearMask ∧ w.direct = direct ∧
      w.supply? = given value setMask clearMask inputs := by
  rcases setMask with _ | mask <;> rcases clearMask with _ | mask' <;> rcases value with _ | v <;>
    match inputs with
    | [] | [.ref src] => cases h <;> exact ⟨rfl, rfl, rfl, rfl⟩
    | [.imm v] => cases h <;> exact ⟨rfl, rfl, rfl, rfl⟩
    | x :: _ :: _ => cases x <;> cases h

def Takes (w : CsrWrite) (s : State) (supply : CsrSupply) : Prop :=
  w.supply? = some supply ∨
    w.supply? = none ∧ ∃ v random, Draw.word s.random = .ok v random ∧ supply = .word v

theorem Takes.src (h : w.Takes s supply) : w.src = supply.reference? := by
  simp only [Takes, supply?] at h
  cases hsrc : w.src with
  | some src =>
    simp only [hsrc, Option.some.injEq, reduceCtorEq, false_and, or_false] at h
    rw [← h, CsrSupply.reference?]
  | none =>
    simp only [hsrc, Option.map_eq_some_iff] at h
    rcases h with ⟨v, _, rfl⟩ | ⟨_, v, _, _, rfl⟩ <;> rfl

def settled (w : CsrWrite) : CsrSupply → CsrWrite
  | .reference _ => w
  | .word v => { w with value := some v }

def helper? (env : Environment) (csr : String) : CsrSupply → Option Op
  | .reference src => if env.needsRuntime csr then some (.moveToT2 src) else none
  | .word v =>
    if env.needsRuntime csr then some (.liToT2 (.value v))
    else if 0 ≤ v ∧ v ≤ 31 then none else some (.li (.value v))

def prepared (w : CsrWrite) (load : Id) (supply : CsrSupply) : Option Op → List Action × CsrWrite
  | none => ([], w.settled supply)
  | some op => ([.new load op], { w.settled supply with src := some load })

theorem expand_prepares (w : CsrWrite) (context : Context) (s : State) :
    w.expand.Succeeds context s fun out _ => ∃ supply load, w.Takes s supply ∧
      out = w.prepared load supply (helper? context.environment w.csr supply) := by
  simp only [expand, Lower.succeeds_bind, Lower.succeeds_environment]
  cases hsrc : w.src with
  | some src =>
    have htakes : w.Takes s (.reference src) := .inl (by simp [supply?, hsrc])
    by_cases hruntime : context.environment.needsRuntime w.csr
    · simp only [hruntime, if_true, Lower.succeeds_bind, Lower.freshValue, Lower.succeeds_fresh,
        Lower.succeeds_pure]
      exact ⟨.reference src, s.ids.value.1, htakes, by simp [helper?, hruntime, prepared, settled]⟩
    · simp only [hruntime, Bool.false_eq_true, if_false, Lower.succeeds_pure]
      exact ⟨.reference src, "", htakes, by simp [helper?, hruntime, prepared, settled]⟩
  | none =>
    have hword : ∀ (v : Int) (t : State), w.Takes s (.word v) →
        (if 0 ≤ v ∧ v < 32 ∧ !context.environment.needsRuntime w.csr then
          return ([], { w with value := some v, src := none })
        else do
          let id ← Lower.freshValue
          let op := if context.environment.needsRuntime w.csr then Op.liToT2 (.value v)
            else Op.li (.value v)
          return ([Action.new id op], { w with value := some v, src := some id }) :
            Lower (List Action × CsrWrite)).Succeeds context t fun out _ => ∃ supply load,
              w.Takes s supply ∧
              out = w.prepared load supply (helper? context.environment w.csr supply) := by
      intro v t htakes
      split
      · next hsmall =>
        obtain ⟨hlow, hhigh, hdirect⟩ := hsmall
        have hruntime : context.environment.needsRuntime w.csr = false := by simpa using hdirect
        have hfits : 0 ≤ v ∧ v ≤ 31 := by omega
        refine Lower.succeeds_pure.2 ⟨.word v, "", htakes, ?_⟩
        simp [helper?, hruntime, hfits, prepared, settled, hsrc]
      · next hlarge =>
        simp only [Lower.freshValue, Lower.succeeds_bind, Lower.succeeds_fresh, Lower.succeeds_pure]
        refine ⟨.word v, t.ids.value.1, htakes, ?_⟩
        by_cases hruntime : context.environment.needsRuntime w.csr
        · simp [helper?, hruntime, prepared, settled]
        · have hfits : ¬ (0 ≤ v ∧ v ≤ 31) := by
            rintro ⟨hlow, hhigh⟩
            exact hlarge ⟨hlow, by omega, by simpa using hruntime⟩
          simp [helper?, hruntime, hfits, prepared, settled]
    cases hvalue : w.value with
    | none =>
      simp only [Lower.succeeds_bind]
      obtain ⟨v, random, hdraw, _⟩ := Draw.word_total s.random
      refine ⟨v, _, Lower.draw_ok.2 ⟨random, hdraw, rfl⟩,
        hword v _ (.inr ⟨?_, v, random, hdraw, rfl⟩)⟩
      simp [supply?, hsrc, hvalue]
    | some v =>
      simp only [Lower.succeeds_bind, Lower.succeeds_pure]
      exact hword v s (.inl (by simp [supply?, hsrc, hvalue]))

theorem expand_helper {op : Op} (h : helper? context.environment csr supply = some op) :
    (Action.new load op).expand context s = .ok (.alone (.simple load true op)) s := by
  cases supply with
  | reference src =>
    rw [helper?] at h
    split at h <;> cases h
    rfl
  | word v =>
    rw [helper?] at h
    split at h
    · cases h
      rfl
    · split at h <;> cases h
      rfl

def work (w : CsrWrite) (id load : Id) (supply : CsrSupply) : Option Op → List Action
  | none => [.simple id true (.csrWrite (w.settled supply))]
  | some op =>
    [.simple load true op, .simple id true (.csrWrite { w.settled supply with src := some load })]

theorem expandAll_write (w : CsrWrite) (id : Id) (context : Context) (s : State) :
    (expandAll [.new id (.csrWrite w)]).Succeeds context s fun actions _ => ∃ supply load,
      w.Takes s supply ∧
      actions = w.work id load supply (helper? context.environment w.csr supply) := by
  obtain ⟨out, t, hexpand, supply, load, htakes, rfl⟩ := expand_prepares w context s
  refine ⟨_, t, Action.expandAll_ok.2 ?_, supply, load, htakes, rfl⟩
  have hown : (Action.new id (.csrWrite w)).expand context s = .ok
      (Op.behind id (.csrWrite _) _) t := Lower.bind_ok.2 ⟨_, t, hexpand, rfl⟩
  refine .next rfl hown ?_
  rw [Op.behind_actions, List.append_nil]
  cases hhelper : helper? context.environment w.csr supply with
  | none => exact .kept rfl .done
  | some op => exact .next rfl (expand_helper hhelper) (.kept rfl (.kept rfl .done))

section Select

theorem select_runtime (hruntime : context.environment.needsRuntime w.csr) :
    (Op.csrWrite w).select id action context s =
      .ok (.csrDirective w.csr (.update w.how) w.direct) s := by
  refine Lower.bind_ok.2 ⟨_, s, Lower.environment_ok.2 ⟨rfl, rfl⟩, ?_⟩
  rw [if_pos hruntime, Lower.pure_ok]
  exact ⟨rfl, rfl⟩

/-- The instruction of an operation stands under the id of its action, and its result too. -/
theorem selectAll_cons {op : Op} {rest : List Action} {i i' : Instruction}
    {more : List Instruction}
    (hi : ∀ action, op.select id action context s = .ok i s)
    (hopen : Action.openDestination id { i with id } = i')
    (hmore : Action.selectAll rest context s = .ok more s) :
    Action.selectAll (.simple id true op :: rest) context s = .ok (i' :: more) s := by
  subst hopen
  simp only [Action.selectAll, Action.select, Lower.bind_ok, Lower.pure_ok]
  exact ⟨_, s, ⟨i, s, hi _, rfl, rfl⟩, more, s, hmore, rfl, rfl⟩

variable (hcatalog : Catalog.builtin xlen = .ok context.catalog)
include hcatalog

theorem selectLi_builtin (load : Id) (v : Int) :
    (Op.li (.value v)).select load action context s =
      .ok (.loadConstant "" .unset (.imm v)) s := by
  have hopen := Catalog.builtin_openWrites (i := .loadConstant "" .unset .unset) hcatalog
    (by decide)
  simp only [Op.select, Op.selectLi, Lower.bind_ok, Lower.instruction_ok, Lower.withImmediate,
    Lower.ofExcept_ok]
  exact ⟨_, s, ⟨hopen, rfl⟩, rfl, rfl⟩

theorem selectCopy_builtin (src : Id) : (Op.moveToT2 src).select load action context s =
    .ok { Instruction.copy "" (.reg .t2) (.virtual src) with clobbers := runtimeClobbers } s := by
  have hopen := Catalog.builtin_openWrites (i := .copy "" .unset .unset) hcatalog (by decide)
  simp only [Op.select, Lower.bind_ok, Lower.instruction_ok, Lower.withSource,
    Lower.withDestination, Lower.ofExcept_ok, Lower.pure_ok]
  exact ⟨_, s, ⟨hopen, rfl⟩, _, s, ⟨rfl, rfl⟩, _, s, ⟨rfl, rfl⟩, rfl, rfl⟩

theorem selectLiToT2_builtin (v : Int) : (Op.liToT2 (.value v)).select load action context s = .ok
    { Instruction.loadConstant "" (.reg .t2) (.imm v) with clobbers := runtimeClobbers } s := by
  have hload : Op.selectLi (.value v) action context s =
      .ok (.loadConstant "" .unset (.imm v)) s := selectLi_builtin hcatalog load v
  simp only [Op.select, Lower.bind_ok, Lower.withDestination, Lower.ofExcept_ok, Lower.pure_ok]
  exact ⟨_, s, hload, _, s, ⟨rfl, rfl⟩, rfl, rfl⟩

theorem select_immediate {v : Int} (hruntime : context.environment.needsRuntime w.csr = false)
    (hvalue : w.value = some v) (hsrc : w.src = none) :
    (Op.csrWrite w).select id action context s =
      .ok (.updateCsr w.how true "" .unset (.symbol w.csr) (.imm v)) s := by
  have hopen := Catalog.builtin_openWrites (i := .updateCsr w.how true "" .unset .unset .unset)
    hcatalog (by cases w.how <;> decide)
  refine Lower.bind_ok.2 ⟨_, s, Lower.environment_ok.2 ⟨rfl, rfl⟩, ?_⟩
  simp only [hruntime, hvalue, hsrc, Bool.false_eq_true, if_false, Lower.bind_ok,
    Lower.instruction_ok, Lower.withSource, Lower.withImmediate, Lower.ofExcept_ok]
  exact ⟨_, s, ⟨hopen, rfl⟩, _, s, ⟨rfl, rfl⟩, rfl, rfl⟩

theorem select_source {src : Id} (hruntime : context.environment.needsRuntime w.csr = false)
    (hsrc : w.src = some src) : (Op.csrWrite w).select id action context s =
      .ok (.updateCsr w.how false "" .unset (.symbol w.csr) (.virtual src)) s := by
  have hopen := Catalog.builtin_openWrites (i := .updateCsr w.how false "" .unset .unset .unset)
    hcatalog (by cases w.how <;> decide)
  refine Lower.bind_ok.2 ⟨_, s, Lower.environment_ok.2 ⟨rfl, rfl⟩, ?_⟩
  cases hvalue : w.value
  all_goals
    simp only [hruntime, hsrc, Bool.false_eq_true, if_false, Lower.bind_ok,
      Lower.instruction_ok, Lower.withSource, Lower.ofExcept_ok, Lower.expect, Lower.pure_ok]
    exact ⟨_, s, ⟨hopen, rfl⟩, _, s, ⟨rfl, rfl⟩, _, s, ⟨rfl, rfl⟩, rfl, rfl⟩

theorem selectAll_work (htakes : w.Takes t supply) (id load : Id) :
    Action.selectAll (w.work id load supply (helper? context.environment w.csr supply)) context s =
      .ok (supply.code context.environment w.csr w.how w.direct id load) s := by
  have hsrc := htakes.src
  have hnil : Action.selectAll [] context s = .ok [] s := rfl
  by_cases hruntime : context.environment.needsRuntime w.csr
  · have hwrite : ∀ w' : CsrWrite, w'.csr = w.csr → w'.how = w.how → w'.direct = w.direct →
        Action.selectAll [.simple id true (.csrWrite w')] context s =
          .ok [{ Instruction.csrDirective w.csr (.update w.how) w.direct with id }] s := by
      intro w' hcsr hhow hdirect
      rw [← hcsr] at hruntime ⊢
      rw [← hhow, ← hdirect]
      exact selectAll_cons (fun _ => select_runtime hruntime) rfl hnil
    cases supply with
    | reference src =>
      simp only [helper?, CsrSupply.code, hruntime, if_true, work]
      exact selectAll_cons (fun _ => selectCopy_builtin hcatalog src) rfl (hwrite _ rfl rfl rfl)
    | word v =>
      simp only [helper?, CsrSupply.code, hruntime, if_true, work]
      exact selectAll_cons (fun _ => selectLiToT2_builtin hcatalog v) rfl (hwrite _ rfl rfl rfl)
  · have hdirect : context.environment.needsRuntime w.csr = false := by simpa using hruntime
    cases supply with
    | reference src =>
      simp only [helper?, CsrSupply.code, hdirect, Bool.false_eq_true, if_false, work]
      exact selectAll_cons (fun _ => select_source hcatalog hdirect hsrc) rfl hnil
    | word v =>
      by_cases hfits : 0 ≤ v ∧ v ≤ 31
      · simp only [helper?, CsrSupply.code, hdirect, hfits, Bool.false_eq_true, if_false, work]
        exact selectAll_cons (fun _ => select_immediate hcatalog hdirect rfl hsrc) rfl hnil
      · simp only [helper?, CsrSupply.code, hdirect, hfits, Bool.false_eq_true, if_false, work]
        exact selectAll_cons (fun _ => selectLi_builtin hcatalog load v) rfl
          (selectAll_cons (fun _ => select_source hcatalog hdirect rfl) rfl hnil)

/-- A step that writes a control register becomes the code that delivers its value, whatever the
environment and the random source are. The value is the one that the step gives, and a drawn word if
it gives none. -/
theorem step_delivers {scope : StepScope} {code : List Action} {a : Action}
    (hstep : (StepKind.csrWrite csr value setMask clearMask direct).action scope id inputs code =
      .ok a) (s : State) :
    ∃ actions t supply load, expandAll [a] context s = .ok actions t ∧
      Action.selectAll actions context t = .ok
        (supply.code context.environment csr (.ofMasks setMask clearMask) direct id load) t ∧
      (given value setMask clearMask inputs = some supply ∨
        given value setMask clearMask inputs = none ∧
          ∃ v random, Draw.word s.random = .ok v random ∧ supply = .word v) := by
  simp only [StepKind.action, except_bind_ok, except_pure_ok] at hstep
  obtain ⟨w, hw, rfl⟩ := hstep
  obtain ⟨hcsr, hhow, hdirect, hsupply⟩ := ofStep_supply hw
  obtain ⟨actions, t, hexpand, supply, load, htakes, rfl⟩ := expandAll_write w id context s
  refine ⟨_, t, supply, load, hexpand, ?_, ?_⟩
  · rw [← hcsr, ← hhow, ← hdirect]
    exact selectAll_work hcatalog htakes id load
  · rw [← hsupply]
    exact htakes

end Select

theorem mask_delivered : ∃ actions t load,
    expandAll [.new "w" (.csrWrite ⟨"mstatus", .set, some 100, none, false⟩)]
      (standardContext .rv64) (.start {}) = .ok actions t ∧
    Action.selectAll actions (standardContext .rv64) t = .ok
      [.loadConstant load (.virtual load) (.imm 100),
        .updateCsr .set false "w" (.virtual "w") (.symbol "mstatus") (.virtual load)] t := by
  have hcatalog : Catalog.builtin .rv64 = .ok (standardContext .rv64).catalog :=
    Catalog.builtin_rv64
  have hstep : (StepKind.csrWrite "mstatus" none (some 100) none false).action (.ofSteps []) "w" []
      [] = .ok (.new "w" (.csrWrite ⟨"mstatus", .set, some 100, none, false⟩)) := rfl
  obtain ⟨actions, t, supply, load, hexpand, hselect, hsupply⟩ :=
    step_delivers hcatalog hstep (.start {})
  have hword : supply = .word 100 := by
    rcases hsupply with h | ⟨h, _⟩
    · exact (Option.some.inj h).symm
    · cases h
  subst hword
  exact ⟨actions, t, load, hexpand, hselect⟩

end CsrWrite
end PlanLowering
