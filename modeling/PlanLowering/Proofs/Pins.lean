import PlanLowering.Batch
import PlanLowering.Proofs.Complete
import PlanLowering.Proofs.StepActions

/-!
# Pinned opcodes

Opcodes that a plan names itself, from its steps to the actions of a canonical batch. Building,
renaming and lifting neither lose nor invent one.
-/

namespace PlanLowering

/-- An opcode that a plan asks for, and what it is taken for. -/
structure Pin where
  opcode : String
  category : Category
  deriving DecidableEq, Repr

/-- The template has no slots besides those that are wired; opcodes outside the catalog cannot
leave one open. -/
def Pin.fits (pin : Pin) (catalog : Catalog) : Bool :=
  (catalog.find? pin.opcode).all fun t => t.slots.all (· ∈ pin.category.wired)

theorem Pin.fits_iff {pin : Pin} {catalog : Catalog} {t : Template}
    (h : catalog.find? pin.opcode = some t) :
    pin.fits catalog ↔ t.slots ⊆ pin.category.wired := by
  simp [fits, h, List.subset_def]

def Op.pin? : Op → Option Pin
  | .arithmetic a => a.op.map (⟨·, .arithmetic⟩)
  | .load access => access.op.map (⟨·, .load⟩)
  | .store access _ => access.op.map (⟨·, .store⟩)
  | .system opcode => some ⟨opcode, .system⟩
  | _ => none

def Op.isSynthetic : Op → Bool
  | .li _ => true
  | .liToT2 _ => true
  | .moveToT2 _ => true
  | .moveFromT2 _ => true
  | .label .. => true
  | .ret => true
  | .jumpToFail _ => true
  | .compare _ _ _ pass => pass.isSome
  | _ => false

namespace Action

mutual

def pins : Action → List Pin
  | .simple _ _ op => op.pin?.toList
  | .block _ true _ _ => []
  | .block _ false _ code => pinsAll code

def pinsAll : List Action → List Pin
  | [] => []
  | a :: rest => a.pins ++ pinsAll rest

end

@[simp] theorem pins_simple (id : Id) (expanded : Bool) (op : Op) :
    (Action.simple id expanded op).pins = op.pin?.toList := rfl

@[simp] theorem pinsAll_nil : pinsAll [] = [] := rfl

@[simp] theorem pinsAll_cons (a : Action) (rest : List Action) :
    pinsAll (a :: rest) = a.pins ++ pinsAll rest := rfl

theorem mem_pinsAll {pin : Pin} {actions : List Action} :
    pin ∈ pinsAll actions ↔ ∃ a ∈ actions, pin ∈ a.pins := by
  induction actions with
  | nil => simp [pinsAll]
  | cons a rest ih => simp [pinsAll, ih]

@[simp] theorem pinsAll_append (actions more : List Action) :
    pinsAll (actions ++ more) = pinsAll actions ++ pinsAll more := by
  induction actions with
  | nil => rfl
  | cons a rest ih => simp [pinsAll, ih]

mutual

def isFresh : Action → Bool
  | .simple _ expanded op => !expanded && !op.isSynthetic
  | .block _ expanded _ code => !expanded && areFresh code

def areFresh : List Action → Bool
  | [] => true
  | a :: rest => a.isFresh && areFresh rest

end

theorem areFresh_iff {actions : List Action} : areFresh actions ↔ ∀ a ∈ actions, a.isFresh := by
  induction actions with
  | nil => simp [areFresh]
  | cons a rest ih => simp [areFresh, ih]

end Action

section Build

def StepKind.pin? : StepKind → Option Pin
  | .arithmetic op => op.map (⟨·, .arithmetic⟩)
  | .load _ _ op => op.map (⟨·, .load⟩)
  | .store _ _ op => op.map (⟨·, .store⟩)
  | .system opcode => some ⟨String.ofList (Text.trim opcode.toList), .system⟩
  | _ => none

mutual

def Step.pins : Step → List Pin
  | { kind, code, .. } => kind.pin?.toList ++ Step.pinsAll code

def Step.pinsAll : List Step → List Pin
  | [] => []
  | step :: rest => step.pins ++ Step.pinsAll rest

end

theorem Arithmetic.ofInputs_op {op : Option String} {inputs : List StepInput} {a : Arithmetic}
    (h : ofInputs op inputs = .ok a) : a.op = op := by
  unfold ofInputs at h
  split at h <;> simp at h <;> subst h <;> rfl

variable {scope : StepScope} {id : Id} {inputs : List StepInput} {code : List Action}
variable {kind : StepKind} {a : Action}

theorem StepKind.action_pins (h : kind.action scope id inputs code = .ok a) :
    (kind.acceptsCode = true ∧ kind.pin? = none ∧ ∃ owner, a = .block id false owner code) ∨
      (kind.acceptsCode = false ∧ ∃ op, a = .simple id false op ∧ op.isSynthetic = false ∧
        op.pin? = kind.pin?) := by
  cases haccepts : kind.acceptsCode with
  | true =>
    obtain ⟨owner, rfl, hheads⟩ := action_heads haccepts h
    cases hheads <;> exact .inl ⟨rfl, rfl, _, rfl⟩
  | false =>
    obtain ⟨op, rfl, hgives⟩ := action_gives haccepts h
    refine .inr ⟨rfl, op, rfl, ?_⟩
    cases hgives with
    | arithmetic ha => exact ⟨rfl, by simp [Op.pin?, pin?, Arithmetic.ofInputs_op ha]⟩
    | _ => exact ⟨rfl, rfl⟩

mutual

theorem StepBuilders.build_pins {scope : StepScope} {step : Step} {a : Action}
    (h : standard.build scope step = .ok a) : a.isFresh ∧ a.pins = step.pins := by
  match step with
  | { id, kind, inputs, code } =>
    obtain ⟨actions, hactions, haction, hnested⟩ := build_ok h
    obtain ⟨hfresh, hpins⟩ := buildAll_pins hactions
    rcases StepKind.action_pins haction with ⟨_, hnone, owner, rfl⟩ | ⟨haccepts, op, rfl, hstep, hop⟩
    · simp [Action.isFresh, hfresh, Action.pins, hpins, Step.pins, hnone]
    · obtain rfl := hnested haccepts
      simp [Action.isFresh, hstep, Action.pins, Step.pins, hop, Step.pinsAll]

theorem StepBuilders.buildAll_pins {scope : StepScope} {steps : List Step} {actions : List Action}
    (h : standard.buildAll scope steps = .ok actions) :
    Action.areFresh actions ∧ Action.pinsAll actions = Step.pinsAll steps := by
  match steps with
  | [] =>
    rw [buildAll, except_pure_ok] at h
    subst h
    exact ⟨rfl, rfl⟩
  | step :: rest =>
    obtain ⟨a, more, ha, hmore, rfl⟩ := buildAll_cons_ok h
    obtain ⟨hfresh, hpins⟩ := build_pins ha
    obtain ⟨hfreshMore, hpinsMore⟩ := buildAll_pins hmore
    simp [Action.areFresh, hfresh, hfreshMore, Action.pinsAll, hpins, hpinsMore, Step.pinsAll]

end

end Build

section Canonical

variable {pin : Pin} {map : IdMap Id}

theorem Op.pin?_mapIds (f : Id → Id) (op : Op) : (op.mapIds f).pin? = op.pin? := by
  cases op <;> rfl

theorem Op.isSynthetic_mapIds (f : Id → Id) (op : Op) :
    (op.mapIds f).isSynthetic = op.isSynthetic := by
  cases op <;> rfl

namespace Action

mutual

theorem renameDeep_pins {a a' : Action} (h : a.renameDeep map = .ok a') :
    a'.isFresh = a.isFresh ∧ a'.pins = a.pins := by
  match a with
  | .simple id expanded op =>
    simp only [renameDeep, rename] at h
    split at h
    · simp at h
    · rw [except_pure_ok] at h
      subst h
      simp [isFresh, Op.isSynthetic_mapIds, pins, Op.pin?_mapIds]
  | .block id expanded owner code =>
    simp only [renameDeep, except_bind_ok, except_pure_ok] at h
    obtain ⟨named, _, code', hcode, rfl⟩ := h
    obtain ⟨hfresh, hpins⟩ := renameAll_pins hcode
    cases expanded <;> simp [isFresh, hfresh, pins, hpins]

theorem renameAll_pins {actions actions' : List Action} (h : renameAll map actions = .ok actions') :
    areFresh actions' = areFresh actions ∧ pinsAll actions' = pinsAll actions := by
  match actions with
  | [] =>
    simp only [renameAll, except_pure_ok] at h
    subst h
    exact ⟨rfl, rfl⟩
  | a :: rest =>
    simp only [renameAll, except_bind_ok, except_pure_ok] at h
    obtain ⟨a', ha, more, hmore, rfl⟩ := h
    obtain ⟨hfresh, hpins⟩ := renameDeep_pins ha
    obtain ⟨hfreshMore, hpinsMore⟩ := renameAll_pins hmore
    simp [areFresh, hfresh, hfreshMore, pinsAll, hpins, hpinsMore]

end

mutual

theorem lift_pins {a : Action} (hfresh : a.isFresh) :
    pin ∈ a.pins ↔ pin ∈ pinsAll a.lift.1 ∨ pin ∈ pinsAll a.lift.2 := by
  match a with
  | .simple id expanded op => cases op <;> simp [lift, pins, pinsAll, Op.pin?]
  | .block id expanded (.codePage spec) code =>
    simp only [isFresh, Bool.and_eq_true, Bool.not_eq_true'] at hfresh
    obtain ⟨rfl, hcode⟩ := hfresh
    simp [lift, pins, pinsAll, liftAll_pins hcode, or_comm]
  | .block id expanded (.assertException ..) code =>
    simp only [isFresh, Bool.and_eq_true, Bool.not_eq_true'] at hfresh
    obtain ⟨rfl, hcode⟩ := hfresh
    simp [lift, pins, pinsAll, liftAll_pins hcode]

theorem liftAll_pins {actions : List Action} (hfresh : areFresh actions) :
    pin ∈ pinsAll actions ↔
      pin ∈ pinsAll (liftAll actions).1 ∨ pin ∈ pinsAll (liftAll actions).2 := by
  match actions with
  | [] => simp [liftAll, pinsAll]
  | a :: rest =>
    simp only [areFresh, Bool.and_eq_true] at hfresh
    simp only [liftAll, pinsAll, pinsAll_append, List.mem_append, lift_pins hfresh.1,
      liftAll_pins hfresh.2]
    simp only [or_assoc, or_left_comm]

end

mutual

theorem lift_fresh {a : Action} (h : a.isFresh) :
    (∀ b ∈ a.lift.1, b.isFresh) ∧ ∀ f ∈ a.lift.2, f.isFresh := by
  match a with
  | .simple id expanded op => cases op <;> simp [lift, h]
  | .block id expanded (.codePage spec) code =>
    simp only [isFresh, Bool.and_eq_true] at h
    obtain ⟨hkept, hfunctions⟩ := liftAll_fresh h.2
    simp only [lift, List.forall_mem_append, List.forall_mem_singleton, isFresh, Bool.and_eq_true]
    exact ⟨by simp, hfunctions, h.1, areFresh_iff.2 hkept⟩
  | .block id expanded (.assertException cause fault resume) code =>
    simp only [isFresh, Bool.and_eq_true] at h
    obtain ⟨hkept, hfunctions⟩ := liftAll_fresh h.2
    simp only [lift, List.forall_mem_singleton, isFresh, Bool.and_eq_true]
    exact ⟨⟨h.1, areFresh_iff.2 hkept⟩, hfunctions⟩

theorem liftAll_fresh {actions : List Action} (h : areFresh actions) :
    (∀ b ∈ (liftAll actions).1, b.isFresh) ∧ ∀ f ∈ (liftAll actions).2, f.isFresh := by
  match actions with
  | [] => simp [liftAll]
  | a :: rest =>
    simp only [areFresh, Bool.and_eq_true] at h
    obtain ⟨hkept, hfunctions⟩ := lift_fresh h.1
    obtain ⟨hmore, hfurther⟩ := liftAll_fresh h.2
    exact ⟨List.forall_mem_append.2 ⟨hkept, hmore⟩,
      List.forall_mem_append.2 ⟨hfunctions, hfurther⟩⟩

end
end Action

theorem CanonicalBatch.ofTests_pins {tests : List TestCase} {batch : CanonicalBatch}
    {context : Context} {state state' : State}
    (hfresh : ∀ test ∈ tests, Action.areFresh test.actions)
    (h : ofTests tests context state = .ok batch state') :
    (∃ test ∈ tests, pin ∈ Action.pinsAll test.actions) ↔
      (∃ test ∈ batch.tests, pin ∈ Action.pinsAll test.actions) ∨
        pin ∈ Action.pinsAll batch.functions := by
  induction tests generalizing state batch with
  | nil =>
    rw [ofTests, Lower.pure_ok] at h
    obtain ⟨rfl, rfl⟩ := h
    simp [Action.pinsAll]
  | cons test rest ih =>
    simp only [ofTests, ofTest, Lower.bind_ok, Lower.ofExcept_ok, Lower.pure_ok, Prod.exists,
      Prod.mk.injEq] at h
    obtain ⟨_, functions, next, ⟨map, _, _, actions, _, ⟨hrename, rfl⟩, ⟨rfl, rfl⟩, rfl⟩, more, _,
      hmore, rfl, rfl⟩ := h
    obtain ⟨hsame, hpins⟩ := Action.renameAll_pins hrename
    rw [hfresh test List.mem_cons_self] at hsame
    rw [List.exists_mem_cons_iff, List.exists_mem_cons_iff,
      ih (fun t ht => hfresh t (List.mem_cons_of_mem _ ht)) hmore, ← hpins,
      Action.liftAll_pins hsame, Action.pinsAll_append, List.mem_append]
    simp only [or_assoc, or_left_comm]

theorem CanonicalBatch.ofTests_fresh {tests : List TestCase} {batch : CanonicalBatch}
    {context : Context} {state state' : State}
    (hfresh : ∀ test ∈ tests, Action.areFresh test.actions)
    (h : ofTests tests context state = .ok batch state') :
    (∀ test ∈ batch.tests, ∀ a ∈ test.actions, a.isFresh) ∧
      ∀ f ∈ batch.functions, f.isFresh := by
  induction tests generalizing state batch with
  | nil =>
    rw [ofTests, Lower.pure_ok] at h
    simp [← h.1]
  | cons test rest ih =>
    simp only [ofTests, ofTest, Lower.bind_ok, Lower.ofExcept_ok, Lower.pure_ok, Prod.exists,
      Prod.mk.injEq] at h
    obtain ⟨_, functions, next, ⟨map, _, _, actions, _, ⟨hrename, rfl⟩, ⟨rfl, rfl⟩, rfl⟩, more,
      _, hmore, rfl, rfl⟩ := h
    obtain ⟨hfirst, hrest⟩ := List.forall_mem_cons.1 hfresh
    have hsame := (Action.renameAll_pins hrename).1
    rw [hfirst] at hsame
    obtain ⟨hkept, hfunctions⟩ := Action.liftAll_fresh hsame
    obtain ⟨htests, hfurther⟩ := ih hrest hmore
    exact ⟨List.forall_mem_cons.2 ⟨hkept, htests⟩,
      List.forall_mem_append.2 ⟨hfunctions, hfurther⟩⟩

end Canonical
end PlanLowering
