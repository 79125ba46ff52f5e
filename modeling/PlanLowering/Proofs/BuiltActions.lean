import PlanLowering.Proofs.Numbering
import PlanLowering.Proofs.StepActions

/-!
# What steps become

The actions of a plan have the ids of its steps, in the order in which steps are built. An action
refers to nothing that its step does not refer to.
-/

namespace PlanLowering

section Except

variable {ε α β : Type}

@[simp] theorem toOption_bind (m : Except ε α) (k : α → Except ε β) :
    (m >>= k).toOption = m.toOption.bind fun a => (k a).toOption := by
  cases m <;> rfl

@[simp] theorem toOption_pure (a : α) : (pure a : Except ε α).toOption = some a := rfl

@[simp] theorem toOption_throw (e : ε) : (throw e : Except ε α).toOption = none := rfl

end Except

namespace Step

mutual

def ids : Step → List Id
  | { id, kind := _, inputs := _, code } => idsAll code ++ [id]

def idsAll : List Step → List Id
  | [] => []
  | step :: rest => step.ids ++ idsAll rest

end

mutual

def refs : Step → List Id
  | { id := _, kind := _, inputs, code } => inputs.filterMap StepInput.id? ++ refsAll code

def refsAll : List Step → List Id
  | [] => []
  | step :: rest => step.refs ++ refsAll rest

end

end Step

section References

variable {scope : StepScope} {inputs : List StepInput} {id x : Id}

theorem Arithmetic.ofInputs_refs {op : Option String} {a : Arithmetic}
    (h : ofInputs op inputs = .ok a) :
    a.src1.toList ++ a.src2.toList = inputs.filterMap StepInput.id? := by
  match inputs with
  | [] => cases h; rfl
  | [x] => cases x <;> cases h <;> rfl
  | [x, y] => cases x <;> cases y <;> cases h <;> rfl
  | x :: y :: z :: rest => cases x <;> cases y <;> cases h

theorem CsrWrite.ofStep_refs {csr : String} {value setMask clearMask : Option Int64} {direct : Bool}
    {w : CsrWrite} (h : ofStep csr value setMask clearMask direct inputs = .ok w) :
    w.src.toList = inputs.filterMap StepInput.id? := by
  cases setMask <;> cases clearMask <;> match inputs with
    | [] => cases h <;> rfl
    | [.imm v] => cases value <;> cases h <;> rfl
    | [.ref id] => cases h <;> rfl
    | x :: _ :: _ => cases x <;> cases h

theorem Access.mem_ids_ofStep {address : Option Address} {offset : Int64} {size : Option UInt8}
    {op : Option String} (h : x ∈ (ofStep address offset size op).ids) :
    ∃ found ∈ address, found.id = x := by
  match address with
  | none => simp [ofStep, Access.to, ids] at h
  | some (.page _) | some (.symbol _) | some (.value _) =>
    simpa [ofStep, Access.to, ids, Address.id, eq_comm] using h

theorem Access.ofLoadInputs_refs {address : Address}
    (h : ofLoadInputs scope inputs = .ok (some address)) :
    address.id ∈ inputs.filterMap StepInput.id? := by
  match inputs with
  | [] => cases h
  | [.imm v] => cases h
  | [.ref id] =>
    simp only [ofLoadInputs, except_pure_ok, Option.some.injEq, ofRef] at h
    split at h <;> simp [← h, Address.id, StepInput.id?]
  | x :: y :: rest => cases x <;> cases h

theorem Access.ofStoreInputs_refs {memory value memory' value' : Option Id}
    (h : ofStoreInputs scope memory value inputs = .ok (memory', value'))
    (hx : x ∈ memory'.toList ++ value'.toList) :
    x ∈ memory.toList ++ value.toList ++ inputs.filterMap StepInput.id? := by
  induction inputs generalizing memory value with
  | nil =>
    cases h
    simpa using hx
  | cons input rest ih =>
    cases input with
    | imm v => cases h
    | ref id =>
      have hcons : (StepInput.ref id :: rest).filterMap StepInput.id? =
          id :: rest.filterMap StepInput.id? := rfl
      rw [ofStoreInputs] at h
      rw [hcons]
      split at h
      next hpage =>
        have hmore := ih h
        grind
      next =>
        split at h
        next hvalue =>
          have hmore := ih h
          grind
        next => cases h

theorem PteTarget.refs_toOption {ids : List Id} (h : (refs inputs).toOption = some ids) :
    inputs.filterMap StepInput.id? = ids := by
  induction inputs generalizing ids with
  | nil => simpa [refs] using h
  | cons input rest ih =>
    cases input with
    | imm v => simp [refs] at h
    | ref id =>
      simp only [refs, toOption_bind, toOption_pure, Option.bind_eq_some_iff,
        Option.some.injEq] at h
      obtain ⟨more, hmore, rfl⟩ := h
      simp [StepInput.id?, ih hmore]

theorem PteTarget.ofInputs_refs {level : Option Nat} {values : Nat} {t : PteTarget}
    (h : ofInputs scope level values inputs = .ok t) (hx : x ∈ t.ids) :
    x ∈ inputs.filterMap StepInput.id? := by
  rw [ofInputs, except_bind_ok] at h
  obtain ⟨ids, hids, h⟩ := h
  rw [refs_toOption (except_toOption_eq_some.2 hids)]
  cases ids with
  | nil => cases h
  | cons memory rest =>
    simp only at h
    split at h
    · cases h
    · split at h
      · cases h
        have hsrc : ∀ y ∈ rest.head?, y ∈ rest := fun y => List.mem_of_mem_head?
        simp only [PteTarget.ids, List.mem_cons, Option.mem_toList] at hx ⊢
        exact hx.imp_right (hsrc x)
      · cases h

/-- What a step without nested ones becomes refers to what the step refers to. -/
theorem StepKind.action_simple {kind : StepKind} {code : List Action} {a : Action}
    (hcode : kind.acceptsCode = false) (h : kind.action scope id inputs code = .ok a) :
    ∃ op, a = .new id op ∧ ∀ x ∈ op.ids, x ∈ inputs.filterMap StepInput.id? := by
  obtain ⟨op, rfl, hgives⟩ := action_gives hcode h
  refine ⟨op, rfl, fun x hx => ?_⟩
  cases hgives with
  | arithmetic ha => exact Arithmetic.ofInputs_refs ha ▸ hx
  | load haddress =>
    obtain ⟨found, hfound, rfl⟩ := Access.mem_ids_ofStep hx
    cases hfound
    exact Access.ofLoadInputs_refs haddress
  | @store _ _ _ page value _ hinputs =>
    have hmem : x ∈ page.toList ++ value.toList := by
      rcases List.mem_append.1 hx with hx | hx
      · exact List.mem_append_right _ hx
      · obtain ⟨found, hfound, rfl⟩ := Access.mem_ids_ofStep hx
        obtain ⟨_, rfl, rfl⟩ := Option.map_eq_some_iff.1 hfound
        simp [Address.id]
    simpa using Access.ofStoreInputs_refs hinputs hmem
  | call htarget =>
    obtain ⟨input, hinput, hid⟩ := List.exists_of_findSome?_eq_some htarget
    obtain rfl : x = _ := by simpa [Op.ids] using hx
    exact List.mem_filterMap.2 ⟨input, hinput, hid⟩
  | csrWrite hw => exact CsrWrite.ofStep_refs hw ▸ hx
  | assertEqual hinputs | assertNotEqual hinputs | modifyPte hinputs =>
    simpa [hinputs, Op.ids, StepInput.id?] using hx
  | readPte ht | readLeafPte ht | writePte ht | writeLeafPte ht => exact PteTarget.ofInputs_refs ht hx
  | memory | csrRead | system | comment => simp [Op.ids] at hx

theorem StepKind.action_block {kind : StepKind} {code : List Action} {a : Action}
    (hcode : kind.acceptsCode) (h : kind.action scope id inputs code = .ok a) :
    ∃ owner, a = .block id false owner code := by
  obtain ⟨owner, rfl, _⟩ := action_heads hcode h
  exact ⟨owner, rfl⟩

end References

namespace StepBuilders

variable {scope : StepScope}

theorem build_standard (scope : StepScope) (id : Id) (kind : StepKind) (inputs : List StepInput)
    (code : List Step) : (standard.build scope { id, kind, inputs, code }).toOption =
      if !code.isEmpty && !kind.acceptsCode then none
      else (standard.buildAll scope code).toOption.bind fun actions =>
        (kind.action scope id inputs actions).toOption := by
  have hkind (actions : List Action) :
      (StepBuilder.ofKind { id, kind, inputs, code } scope actions).toOption =
        (kind.action scope id inputs actions).toOption := by
    rw [StepBuilder.ofKind]
    split
    next h => exact (congrArg Except.toOption h).symm
    next h => exact (congrArg Except.toOption h).symm
  rw [build]
  split
  · rfl
  · simp only [standard, toOption_bind]
    exact Option.bind_congr fun actions _ => hkind actions

mutual

theorem build_order {step : Step} {a : Action} (h : standard.build scope step = .ok a) :
    a.postorder.map Action.id = step.ids ∧ ∀ b ∈ a.postorder, ∀ x ∈ b.ids, x ∈ step.refs := by
  match step with
  | { id, kind, inputs, code } =>
    obtain ⟨actions, hactions, haction, hnested⟩ := build_ok h
    obtain ⟨hids, hrefs⟩ := buildAll_order hactions
    rw [Step.ids, Step.refs]
    cases haccepts : kind.acceptsCode with
    | true =>
      obtain ⟨owner, rfl⟩ := StepKind.action_block haccepts haction
      simp only [Action.postorder, List.map_append, hids, List.forall_mem_append,
        List.forall_mem_singleton]
      exact ⟨rfl, fun b hb x hx => List.mem_append_right _ (hrefs b hb x hx), nofun⟩
    | false =>
      obtain rfl := hnested haccepts
      obtain ⟨op, rfl, hop⟩ := StepKind.action_simple haccepts haction
      exact ⟨rfl, List.forall_mem_singleton.2 fun x hx => List.mem_append_left _ (hop x hx)⟩

theorem buildAll_order {steps : List Step} {actions : List Action}
    (h : standard.buildAll scope steps = .ok actions) :
    (Action.postorderAll actions).map Action.id = Step.idsAll steps ∧
      ∀ b ∈ Action.postorderAll actions, ∀ x ∈ b.ids, x ∈ Step.refsAll steps := by
  match steps with
  | [] =>
    cases h
    exact ⟨rfl, by simp [Action.postorderAll]⟩
  | step :: rest =>
    obtain ⟨a, more, ha, hmore, rfl⟩ := buildAll_cons_ok h
    obtain ⟨hids, hrefs⟩ := build_order ha
    obtain ⟨hmoreIds, hmoreRefs⟩ := buildAll_order hmore
    simp only [Action.postorderAll, Step.idsAll, Step.refsAll, List.map_append, hids, hmoreIds,
      List.forall_mem_append]
    exact ⟨trivial, fun b hb x hx => List.mem_append_left _ (hrefs b hb x hx),
      fun b hb x hx => List.mem_append_right _ (hmoreRefs b hb x hx)⟩

end

end StepBuilders

end PlanLowering
