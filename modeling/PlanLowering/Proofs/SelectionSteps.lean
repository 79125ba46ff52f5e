import PlanLowering.Action.Selection
import PlanLowering.Proofs.Complete

/-!
# Steps of selection

What each step of selection did where it succeeded. Results about selected instructions follow the
steps by these lemmas and by no definition of a step.
-/

namespace PlanLowering

def ExceptionCause.directive (cause : ExceptionCause) (fault resume : String) : Instruction where
  name := "OS_SETUP_CHECK_EXCP"
  category := .system
  form := .runtime
  sources := [
    { slot := .cause, type := .imm, value := .imm cause.code },
    { slot := .fault, type := .symbol, value := .symbol fault },
    { slot := .resume, type := .symbol, value := .symbol resume }]

section Outcomes

variable (context : Context) (id : Id) (action : String) (state : State)

/-- How an operation came to its instruction: the opcode that was found and each operand that was set.
Where a choice or a draw may be made, the run is kept as a whole. -/
inductive Op.SelectsBy : Op → Instruction → State → Prop where
  | arithmetic {a o next} (h : a.select action context state = .ok o next) :
      SelectsBy (.arithmetic a) o next
  | load {access o next} (h : access.selectLoad action context state = .ok o next) :
      SelectsBy (.load access) o next
  | store {access value o next}
      (h : access.selectStore value action context state = .ok o next) :
      SelectsBy (.store access value) o next
  | csrWrite {w o next} (h : w.select action context state = .ok o next) :
      SelectsBy (.csrWrite w) o next
  | li {v o} (h : selectLi v action context state = .ok o state) : SelectsBy (.li v) o state
  | liToT2 {v i₀ o} (h₀ : selectLi v action context state = .ok i₀ state)
      (ht2 : Lower.withDestination i₀ (.reg .t2) action context state = .ok o state) :
      SelectsBy (.liToT2 v) { o with clobbers := runtimeClobbers } state
  | moveToT2 {src i₀ i₁ o} (h₀ : Lower.instruction "mv" context state = .ok i₀ state)
      (ht2 : Lower.withDestination i₀ (.reg .t2) action context state = .ok i₁ state)
      (hsrc : Lower.withSource i₁ .rs1 (.virtual src) action context state = .ok o state) :
      SelectsBy (.moveToT2 src) { o with clobbers := runtimeClobbers } state
  | moveFromT2 {src i₀ o} (h₀ : Lower.instruction "mv" context state = .ok i₀ state)
      (hsrc : Lower.withSource i₀ .rs1 (.reg .t2) action context state = .ok o state) :
      SelectsBy (.moveFromT2 src) o state
  | call {target base i₀ i₁ i₂ o} (h₀ : Lower.instruction "jalr" context state = .ok i₀ state)
      (hra : Lower.withDestination i₀ (.reg .ra) action context state = .ok i₁ state)
      (hbase : Lower.withSource i₁ .rs1 (.virtual base) action context state = .ok i₂ state)
      (himm : Lower.withImmediate i₂ (.imm 0) action context state = .ok o state) :
      SelectsBy (.call target (some base)) { o with form := .call target } state
  | csrDirective {csr direct} (hruntime : context.environment.needsRuntime csr) :
      SelectsBy (.csrRead csr direct) (.csrDirective csr .read direct) state
  | csrRead {csr direct i₀ o} (hdirect : ¬ context.environment.needsRuntime csr)
      (h₀ : Lower.instruction "csrr" context state = .ok i₀ state)
      (hcsr : Lower.withSource i₀ .csr (.symbol csr) action context state = .ok o state) :
      SelectsBy (.csrRead csr direct) o state
  | compare {relation lhs rhs pass i₀ i₁ i₂ o}
      (h₀ : Lower.instruction (match relation with | .equal => "beq" | .different => "bne") context
        state = .ok i₀ state)
      (hlhs : Lower.withSource i₀ .rs1 (.virtual lhs) action context state = .ok i₁ state)
      (hrhs : Lower.withSource i₁ .rs2 (.virtual rhs) action context state = .ok i₂ state)
      (hoffset : Lower.withSource i₂ .offset (.symbol pass) action context state = .ok o state) :
      SelectsBy (.compare relation lhs rhs (some pass)) o state
  | jumpToFail {address i₀ o} (h₀ : Lower.instruction "jr" context state = .ok i₀ state)
      (hrs1 : Lower.withSource i₀ .rs1 (.virtual address) action context state = .ok o state) :
      SelectsBy (.jumpToFail (some address)) o state
  | ret {o} (h : Lower.instruction "ret" context state = .ok o state) : SelectsBy .ret o state
  | system {opcode o} (h : Lower.instruction opcode context state = .ok o state) :
      SelectsBy (.system opcode) o state
  | readPte {target} :
      SelectsBy (.readPte target) (target.directive false context.environment.paging) state
  | writePte {target} :
      SelectsBy (.writePte target) (target.directive true context.environment.paging) state
  | label {name pointer} : SelectsBy (.label name pointer) (.label id name pointer) state
  | comment {text} : SelectsBy (.comment text) (.comment id text) state

inductive Block.SelectsTo : Block → Instruction → Prop where
  | codePage {spec} : SelectsTo (.codePage spec) (.label id id false)
  | assertException {cause fault resume} :
      SelectsTo (.assertException cause (some fault) (some resume)) (cause.directive fault resume)

end Outcomes

variable {context : Context} {state state' : State} {i i' : Instruction} {slot : Slot}
variable {action : String}

theorem Lower.expect_ok {α : Type} {missing : ExpansionResult} {a? : Option α} {a : α}
    (h : Lower.expect action missing a? context state = .ok a state') :
    a? = some a ∧ state = state' := by
  cases a? with
  | none => simp [Lower.expect] at h
  | some b =>
    simp only [Lower.expect, Lower.pure_ok] at h
    exact ⟨congrArg some h.1, h.2⟩

namespace Arithmetic

/-- A slot gets what is given for it or a new value, unless the instruction does not have it. -/
theorem wireSource_ok {src : Option Id}
    (h : wireSource slot src action i context state = .ok i' state') :
    (∃ id ∈ src, Lower.withSource i slot (.virtual id) action context state = .ok i' state') ∨
    (∃ id next, Lower.freshValue context state = .ok id next ∧
      Lower.withSource i slot (.virtual id) action context next = .ok i' state') ∨
    i.source? slot = none ∧ i' = i ∧ state' = state := by
  unfold wireSource at h
  cases hsource : i.source? slot with
  | none =>
    cases src with
    | some id => simp [hsource] at h
    | none =>
      simp only [hsource, Lower.pure_ok] at h
      exact .inr (.inr ⟨rfl, h.1.symm, h.2.symm⟩)
  | some o =>
    cases src with
    | some id =>
      simp only [hsource] at h
      exact .inl ⟨id, rfl, h⟩
    | none =>
      simp only [hsource, Lower.bind_ok] at h
      exact .inr (.inl h)

theorem wireImmediate_ok {imm : Option Int}
    (h : wireImmediate imm action i context state = .ok i' state') :
    (∃ v random, Lower.withImmediate i (.imm v) action context { state with random } =
      .ok i' state') ∨ i.hasImmediate = false ∧ i' = i ∧ state' = state := by
  unfold wireImmediate at h
  cases himm : i.hasImmediate with
  | false =>
    cases imm with
    | some v => simp [himm] at h
    | none =>
      simp only [himm, Lower.pure_ok] at h
      exact .inr ⟨rfl, h.1.symm, h.2.symm⟩
  | true =>
    cases imm with
    | some v =>
      simp only [himm] at h
      exact .inl ⟨v, state.random, h⟩
    | none =>
      simp only [himm, Lower.bind_ok, Lower.draw_ok] at h
      obtain ⟨v, _, ⟨random, _, rfl⟩, h⟩ := h
      exact .inl ⟨v, random, h⟩

/-- The opcode asked for is taken if the catalog has it, and otherwise a candidate. -/
theorem template_chosen {a : Arithmetic} (h : a.template context state = .ok i state') :
    ∃ t, t.instruction = i ∧ state'.ids = state.ids ∧
      (a.op.bind context.catalog.find? = some t ∨
        a.op.bind context.catalog.find? = none ∧ t ∈ context.catalog.filter a.filter) := by
  simp only [template, Lower.bind_ok, Lower.read_ok] at h
  obtain ⟨_, _, ⟨rfl, rfl⟩, h⟩ := h
  cases hfind : a.op.bind context.catalog.find? with
  | some t =>
    simp only [hfind, Lower.pure_ok] at h
    exact ⟨t, h.1, by rw [h.2], .inl rfl⟩
  | none =>
    simp only [hfind, Lower.choose, Lower.bind_ok, Lower.read_ok] at h
    obtain ⟨_, _, ⟨rfl, rfl⟩, h⟩ := h
    obtain ⟨t, ht, rfl⟩ := Lower.chooseFrom_ok h
    exact ⟨t, rfl, Lower.chooseFrom_ids h, .inr ⟨rfl, ht⟩⟩

end Arithmetic

namespace Access

variable {a : Access}

theorem template_chosen {filter : TemplateFilter} {skip : List String}
    (h : a.template filter skip context state = .ok i state') :
    ∃ t, t.instruction = i ∧ state'.ids = state.ids ∧
      ((∃ opcode, a.op = some opcode ∧ context.catalog.find? opcode = some t) ∨
        a.op = none ∧ t ∈ context.catalog.filter filter) := by
  unfold template at h
  cases hop : a.op with
  | some opcode =>
    simp only [hop, Lower.instruction_ok] at h
    obtain ⟨t, hfind, rfl⟩ := Catalog.instruction_ok.1 h.1
    exact ⟨t, rfl, by rw [h.2], .inl ⟨opcode, rfl, hfind⟩⟩
  | none =>
    simp only [hop, candidates, Lower.bind_ok, Lower.read_ok, Lower.pure_ok] at h
    obtain ⟨_, _, ⟨_, _, ⟨rfl, rfl⟩, rfl, rfl⟩, h⟩ := h
    obtain ⟨t, ht, rfl⟩ := Lower.chooseFrom_ok h
    exact ⟨t, rfl, Lower.chooseFrom_ids h, .inr ⟨rfl, (List.mem_filter.1 ht).1⟩⟩

theorem wire_ok (h : a.wire action i context state = .ok i' state') :
    ∃ j base, a.base = some base ∧
      (Lower.withImmediate i (.imm a.offset) action context state = .ok j state ∨
        i.hasImmediate = false ∧ j = i) ∧
      Lower.withSource j .rs1 (.virtual base) action context state = .ok i' state' := by
  have hlast : ∀ {j : Instruction} {s : State},
      (do
        let base ← Lower.expect action .baseRegister a.base
        Lower.withSource j .rs1 (.virtual base) action : Lower Instruction) context s =
          .ok i' state' → ∃ base, a.base = some base ∧
            Lower.withSource j .rs1 (.virtual base) action context s = .ok i' state' := by
    intro j s hrun
    obtain ⟨base, _, hexpect, hrun⟩ := Lower.bind_ok.1 hrun
    obtain ⟨hbase, rfl⟩ := Lower.expect_ok hexpect
    exact ⟨base, hbase, hrun⟩
  unfold wire at h
  by_cases himm : i.hasImmediate
  · rw [if_pos himm] at h
    obtain ⟨j, next, hwired, h⟩ := Lower.bind_ok.1 h
    obtain ⟨_, rfl⟩ := Lower.ofExcept_ok.1 hwired
    obtain ⟨base, hbase, h⟩ := hlast h
    exact ⟨j, base, hbase, .inl hwired, h⟩
  · rw [if_neg himm] at h
    by_cases hoffset : a.offset ≠ 0
    · rw [if_pos hoffset] at h
      obtain ⟨_, _, hthrow, _⟩ := Lower.bind_ok.1 h
      exact (Lower.throw_ok.1 hthrow).elim
    · rw [if_neg hoffset] at h
      obtain ⟨j, next, hsame, h⟩ := Lower.bind_ok.1 h
      obtain ⟨rfl, rfl⟩ := Lower.pure_ok.1 hsame
      obtain ⟨base, hbase, h⟩ := hlast h
      exact ⟨i, base, hbase, .inr ⟨by simpa using himm, rfl⟩, h⟩

theorem selectStore_ok {stored : Option Id}
    (h : a.selectStore stored action context state = .ok i state') :
    ∃ i₀ s₀ i₁ s₁,
      a.template (a.filter .store (.union .atomic .svinval)) ["sp", "sc"] context state =
        .ok i₀ s₀ ∧
      a.wire action i₀ context s₀ = .ok i₁ s₁ ∧
      ((∃ id ∈ stored, Lower.withSource i₁ .rs2 (.virtual id) action context s₁ = .ok i state') ∨
        ∃ id next, Lower.freshValue context s₁ = .ok id next ∧
          Lower.withSource i₁ .rs2 (.virtual id) action context next = .ok i state') := by
  simp only [selectStore, Lower.bind_ok] at h
  obtain ⟨i₀, s₀, htemplate, i₁, s₁, hwire, h⟩ := h
  refine ⟨i₀, s₀, i₁, s₁, htemplate, hwire, ?_⟩
  cases stored with
  | some id =>
    simp only [Lower.bind_ok, Lower.pure_ok] at h
    obtain ⟨_, _, ⟨rfl, rfl⟩, h⟩ := h
    exact .inl ⟨id, rfl, h⟩
  | none =>
    simp only [Lower.bind_ok] at h
    exact .inr h

end Access

/-- A register out of reach goes through the runtime. Otherwise a value alone is an immediate, and
all else comes from a source. -/
theorem CsrWrite.select_ok {w : CsrWrite} (h : w.select action context state = .ok i state') :
    (context.environment.needsRuntime w.csr ∧
      i = .csrDirective w.csr (.update w.how) w.direct ∧ state' = state) ∨
    ¬ context.environment.needsRuntime w.csr ∧ ∃ i₀ i₁,
      Lower.withSource i₀ .csr (.symbol w.csr) action context state = .ok i₁ state ∧
      ((∃ v, Lower.instruction (w.how.mnemonic true) context state = .ok i₀ state ∧
          Lower.withImmediate i₁ (.imm v) action context state = .ok i state') ∨
        ∃ src ∈ w.src, Lower.instruction (w.how.mnemonic false) context state = .ok i₀ state ∧
          Lower.withSource i₁ .rs1 (.virtual src) action context state = .ok i state') := by
  simp only [select, Lower.bind_ok, Lower.environment_ok] at h
  obtain ⟨_, _, ⟨rfl, rfl⟩, h⟩ := h
  split at h
  next hruntime =>
    obtain ⟨rfl, rfl⟩ := Lower.pure_ok.1 h
    exact .inl ⟨hruntime, rfl, rfl⟩
  next hdirect =>
    rcases hvalue : w.value with _ | v <;> rcases hsrc : w.src with _ | src
    case some.none =>
      simp only [hvalue, hsrc, Lower.bind_ok] at h
      obtain ⟨i₀, _, h₀, i₁, _, hcsr, himm⟩ := h
      obtain ⟨_, rfl⟩ := Lower.instruction_ok.1 h₀
      obtain ⟨_, rfl⟩ := Lower.ofExcept_ok.1 hcsr
      exact .inr ⟨hdirect, i₀, i₁, hcsr, .inl ⟨v, h₀, himm⟩⟩
    all_goals
      simp only [hvalue, hsrc, Lower.bind_ok] at h
      obtain ⟨i₀, _, h₀, i₁, _, hcsr, src, _, hexpect, hrs1⟩ := h
      obtain ⟨_, rfl⟩ := Lower.instruction_ok.1 h₀
      obtain ⟨_, rfl⟩ := Lower.ofExcept_ok.1 hcsr
      obtain ⟨hread, rfl⟩ := Lower.expect_ok hexpect
      exact .inr ⟨hdirect, i₀, i₁, hcsr, .inr ⟨src, hread, h₀, hrs1⟩⟩

namespace Op

variable {id : Id} {op : Op}

theorem selectLi_ok {v : Immediate} (h : selectLi v action context state = .ok i state') :
    state = state' ∧ ∃ i₀, Lower.instruction "li" context state = .ok i₀ state ∧
      Lower.withImmediate i₀ v.operand action context state = .ok i state := by
  obtain ⟨i₀, _, h₀, himm⟩ := Lower.bind_ok.1 h
  obtain ⟨_, rfl⟩ := Lower.instruction_ok.1 h₀
  obtain ⟨_, rfl⟩ := Lower.ofExcept_ok.1 himm
  exact ⟨rfl, i₀, h₀, himm⟩

theorem selectCall_ok {target : Id} {base : Option Id}
    (h : selectCall target base action context state = .ok i state') :
    (call target base).SelectsBy context id action state i state' := by
  simp only [selectCall, Lower.bind_ok, Lower.pure_ok] at h
  obtain ⟨address, _, hexpect, i₀, _, h₀, i₁, _, hra, i₂, _, hbase, i₃, _, himm, rfl, rfl⟩ := h
  obtain ⟨rfl, rfl⟩ := Lower.expect_ok hexpect
  obtain ⟨_, rfl⟩ := Lower.instruction_ok.1 h₀
  obtain ⟨_, rfl⟩ := Lower.ofExcept_ok.1 hra
  obtain ⟨_, rfl⟩ := Lower.ofExcept_ok.1 hbase
  obtain ⟨_, rfl⟩ := Lower.ofExcept_ok.1 himm
  exact .call h₀ hra hbase himm

theorem selectCsrRead_ok {csr : String} {direct : Bool}
    (h : selectCsrRead csr direct action context state = .ok i state') :
    (csrRead csr direct).SelectsBy context id action state i state' := by
  simp only [selectCsrRead, Lower.bind_ok, Lower.environment_ok] at h
  obtain ⟨_, _, ⟨rfl, rfl⟩, h⟩ := h
  split at h
  next hruntime =>
    obtain ⟨rfl, rfl⟩ := Lower.pure_ok.1 h
    exact .csrDirective hruntime
  next hdirect =>
    obtain ⟨i₀, _, h₀, hcsr⟩ := Lower.bind_ok.1 h
    obtain ⟨_, rfl⟩ := Lower.instruction_ok.1 h₀
    obtain ⟨_, rfl⟩ := Lower.ofExcept_ok.1 hcsr
    exact .csrRead hdirect h₀ hcsr

theorem selectCompare_ok {relation : Relation} {lhs rhs : Id} {pass : Option String}
    (h : selectCompare relation lhs rhs pass action context state = .ok i state') :
    (compare relation lhs rhs pass).SelectsBy context id action state i state' := by
  simp only [selectCompare, Lower.bind_ok] at h
  obtain ⟨label, _, hexpect, i₀, _, h₀, i₁, _, hlhs, i₂, _, hrhs, hoffset⟩ := h
  obtain ⟨rfl, rfl⟩ := Lower.expect_ok hexpect
  obtain ⟨_, rfl⟩ := Lower.instruction_ok.1 h₀
  obtain ⟨_, rfl⟩ := Lower.ofExcept_ok.1 hlhs
  obtain ⟨_, rfl⟩ := Lower.ofExcept_ok.1 hrhs
  obtain ⟨_, rfl⟩ := Lower.ofExcept_ok.1 hoffset
  exact .compare h₀ hlhs hrhs hoffset

theorem select_ok (h : op.select id action context state = .ok i state') :
    op.SelectsBy context id action state i state' := by
  cases op with
  | arithmetic a => exact .arithmetic h
  | load access => exact .load h
  | store access value => exact .store h
  | csrWrite w => exact .csrWrite h
  | call target base => exact selectCall_ok h
  | csrRead csr direct => exact selectCsrRead_ok h
  | compare relation lhs rhs pass => exact selectCompare_ok h
  | li v =>
    obtain ⟨rfl, _⟩ := selectLi_ok h
    exact .li h
  | liToT2 v =>
    simp only [select, Lower.bind_ok, Lower.pure_ok] at h
    obtain ⟨i₀, _, h₀, i₁, _, ht2, rfl, rfl⟩ := h
    obtain ⟨rfl, _⟩ := selectLi_ok h₀
    obtain ⟨_, rfl⟩ := Lower.ofExcept_ok.1 ht2
    exact .liToT2 h₀ ht2
  | moveToT2 src =>
    simp only [select, Lower.bind_ok, Lower.pure_ok] at h
    obtain ⟨i₀, _, h₀, i₁, _, ht2, i₂, _, hsrc, rfl, rfl⟩ := h
    obtain ⟨_, rfl⟩ := Lower.instruction_ok.1 h₀
    obtain ⟨_, rfl⟩ := Lower.ofExcept_ok.1 ht2
    obtain ⟨_, rfl⟩ := Lower.ofExcept_ok.1 hsrc
    exact .moveToT2 h₀ ht2 hsrc
  | moveFromT2 src =>
    obtain ⟨i₀, _, h₀, hsrc⟩ := Lower.bind_ok.1 h
    obtain ⟨_, rfl⟩ := Lower.instruction_ok.1 h₀
    obtain ⟨_, rfl⟩ := Lower.ofExcept_ok.1 hsrc
    exact .moveFromT2 h₀ hsrc
  | jumpToFail address =>
    simp only [select, Lower.bind_ok] at h
    obtain ⟨target, _, hexpect, i₀, _, h₀, hrs1⟩ := h
    obtain ⟨rfl, rfl⟩ := Lower.expect_ok hexpect
    obtain ⟨_, rfl⟩ := Lower.instruction_ok.1 h₀
    obtain ⟨_, rfl⟩ := Lower.ofExcept_ok.1 hrs1
    exact .jumpToFail h₀ hrs1
  | ret =>
    obtain ⟨_, rfl⟩ := Lower.instruction_ok.1 h
    exact .ret h
  | system opcode =>
    obtain ⟨_, rfl⟩ := Lower.instruction_ok.1 h
    exact .system h
  | readPte target =>
    simp only [select, Lower.bind_ok, Lower.environment_ok, Lower.pure_ok] at h
    obtain ⟨_, _, ⟨rfl, rfl⟩, rfl, rfl⟩ := h
    exact .readPte
  | writePte target =>
    simp only [select, Lower.bind_ok, Lower.environment_ok, Lower.pure_ok] at h
    obtain ⟨_, _, ⟨rfl, rfl⟩, rfl, rfl⟩ := h
    exact .writePte
  | label name pointer =>
    obtain ⟨rfl, rfl⟩ := Lower.pure_ok.1 h
    exact .label
  | comment text =>
    obtain ⟨rfl, rfl⟩ := Lower.pure_ok.1 h
    exact .comment
  | memory | modifyPte => simp [select] at h

end Op

theorem Block.select_ok {owner : Block} {id : Id}
    (h : owner.select id action context state = .ok i state') :
    owner.SelectsTo id i ∧ state = state' := by
  cases owner with
  | codePage spec =>
    obtain ⟨rfl, rfl⟩ := Lower.pure_ok.1 h
    exact ⟨.codePage, rfl⟩
  | assertException cause fault resume =>
    cases fault <;> cases resume <;> simp only [select, Lower.throw_ok, Lower.pure_ok] at h
    obtain ⟨rfl, rfl⟩ := h
    exact ⟨.assertException, rfl⟩

namespace Action

variable {id : Id} {expanded : Bool} {a : Action} {actions nested : List Action}
variable {code : List Instruction}

theorem select_simple_ok {op : Op}
    (h : (simple id expanded op).select context state = .ok i state') :
    ∃ j, op.select id (simple id expanded op).describe context state = .ok j state' ∧
      i = { j with id } := by
  simp only [select, Lower.bind_ok, Lower.pure_ok] at h
  obtain ⟨j, _, hj, rfl, rfl⟩ := h
  exact ⟨j, hj, rfl⟩

theorem select_block_ok {owner : Block}
    (h : (block id expanded owner nested).select context state = .ok i state') :
    ∃ j, owner.SelectsTo id j ∧ state = state' ∧ i = { j with id } := by
  simp only [select, Lower.bind_ok, Lower.pure_ok] at h
  obtain ⟨j, _, hj, rfl, rfl⟩ := h
  obtain ⟨hto, rfl⟩ := Block.select_ok hj
  exact ⟨j, hto, rfl, rfl⟩

theorem selectAll_nil_ok (h : selectAll [] context state = .ok code state') :
    code = [] ∧ state = state' := by
  obtain ⟨rfl, rfl⟩ := Lower.pure_ok.1 h
  exact ⟨rfl, rfl⟩

theorem selectAll_cons_ok (h : selectAll (a :: actions) context state = .ok code state') :
    ∃ i next more, a.select context state = .ok i next ∧
      selectAll actions context next = .ok more state' ∧ code = openDestination a.id i :: more := by
  simp only [selectAll, Lower.bind_ok, Lower.pure_ok] at h
  obtain ⟨i, next, hi, more, _, hmore, rfl, rfl⟩ := h
  exact ⟨i, next, more, hi, hmore, rfl⟩

theorem selectAll_each (h : selectAll actions context state = .ok code state') :
    List.Forall₂ (fun a o => ∃ i s t, a.select context s = .ok i t ∧ openDestination a.id i = o)
      actions code := by
  induction actions generalizing state code with
  | nil =>
    obtain ⟨rfl, _⟩ := selectAll_nil_ok h
    exact .nil
  | cons a rest ih =>
    obtain ⟨i, next, more, hi, hmore, rfl⟩ := selectAll_cons_ok h
    exact .cons ⟨i, state, next, hi, rfl⟩ (ih hmore)

end Action

end PlanLowering
