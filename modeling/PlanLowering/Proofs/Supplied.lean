import PlanLowering.Proofs.Drawn
import PlanLowering.Proofs.Machine
import PlanLowering.Proofs.Selected
import PlanLowering.Proofs.Spawned

/-!
# What selection wires

Where the operands of a selected instruction come from: ids that the action reads, ids that
selection makes up, and few registers that are hard-wired.
-/

namespace PlanLowering

def Op.ownOpcodes : List String :=
  ["li", "mv", "ret", "beq", "bne", "jr", "csrr", "csrrw", "csrrs", "csrrc", "csrrwi", "csrrsi",
    "csrrci"]

def Op.Takes (catalog : Catalog) (op : Op) (opcode : String) : Prop :=
  (∃ t ∈ op.templates catalog, t.name = opcode) ∨ opcode ∈ ownOpcodes

/-- What may be wired into a source slot of an opcode. Selection numbers the ids that it makes up
from `low` to `high`. -/
inductive Op.Supplies (op : Op) (low high : Nat) (opcode : String) : Slot → OperandValue → Prop where
  | unset {slot} : Supplies op low high opcode slot .unset
  | imm {slot v} : Supplies op low high opcode slot (.imm v)
  | read {slot id} (h : id ∈ op.reads) : Supplies op low high opcode slot (.virtual id)
  | fresh {slot id} (h : FreshIds.Numbers low high id) :
      Supplies op low high opcode slot (.virtual id)
  | t2 (h : opcode = "mv") : Supplies op low high opcode .rs1 (.reg .t2)
  | symbol {slot s} (h : slot = .imm ∨ slot = .csr) : Supplies op low high opcode slot (.symbol s)
  | pass {relation lhs rhs s} (h : op = .compare relation lhs rhs (some s)) :
      Supplies op low high opcode .offset (.symbol s)

theorem Op.Supplies.mono {op : Op} {low low' high high' : Nat} {opcode : String} {slot : Slot}
    {value : OperandValue} (h : op.Supplies low high opcode slot value) (hlow : low' ≤ low)
    (hhigh : high ≤ high') : op.Supplies low' high' opcode slot value := by
  cases h with
  | unset => exact .unset
  | imm => exact .imm
  | read h => exact .read h
  | fresh h => exact .fresh (h.mono hlow hhigh)
  | t2 h => exact .t2 h
  | symbol h => exact .symbol h
  | pass h => exact .pass h

namespace Instruction

/-- A template in which the operands of an action were wired, with the numbers of the ids that
selection made up meanwhile. -/
structure Draws (catalog : Catalog) (op : Op) (opcode : String) (target : OperandValue)
    (low high : Nat) (i : Instruction) : Prop
    extends i.Drawn catalog opcode target (op.Supplies low high opcode) where
  ordered : low ≤ high

/-- What selection makes of an action without nested code. -/
inductive Selected (catalog : Catalog) (op : Op) (low high : Nat) : Instruction → Prop where
  | plain {opcode i} (htakes : op.Takes catalog opcode)
      (h : Draws catalog op opcode .unset low high i) :
      Selected catalog op low high i
  | toT2 {opcode i} (hname : opcode = "li" ∨ opcode = "mv")
      (h : Draws catalog op opcode (.reg .t2) low high i) :
      Selected catalog op low high { i with clobbers := runtimeClobbers }
  | call {i target} (h : Draws catalog op "jalr" (.reg .ra) low high i)
      (htarget : i.target? = some .ra) :
      Selected catalog op low high { i with form := .call target }
  | csr {csr access direct} : Selected catalog op low high (.csrDirective csr access direct)
  | pte {target : PteTarget} {write paging} :
      Selected catalog op low high (target.directive write paging)
  | label {id name pointer} (h : op = .label name pointer) :
      Selected catalog op low high (.label id name pointer)
  | comment {id text} : Selected catalog op low high (.comment id text)

end Instruction

open Instruction (Draws Selected)

variable {context : Context} {state state' : State} {t : Template} {i i' : Instruction}
variable {op : Op} {low low' high high' : Nat} {slot : Slot} {value target : OperandValue}
variable {id : Id} {action name opcode : String} {catalog : Catalog}

namespace Instruction

theorem draws_instruction (ht : t ∈ catalog.templates) :
    t.instruction.Draws catalog op t.name .unset low low :=
  ⟨t.drawn_instruction _ ht fun _ => .unset, Nat.le_refl low⟩

theorem Draws.widen (h : i.Draws catalog op opcode target low high) (hlow : low' ≤ low)
    (hhigh : high ≤ high') : i.Draws catalog op opcode target low' high' :=
  ⟨h.mono fun _ _ hvalue => hvalue.mono hlow hhigh,
    Nat.le_trans hlow (Nat.le_trans h.ordered hhigh)⟩

theorem Draws.grow (h : i.Draws catalog op opcode target low high) (hle : high ≤ high') :
    i.Draws catalog op opcode target low high' := h.widen (Nat.le_refl low) hle

theorem Selected.widen (h : i.Selected catalog op low high) (hlow : low' ≤ low)
    (hhigh : high ≤ high') : i.Selected catalog op low' high' := by
  cases h with
  | plain htakes h => exact .plain htakes (h.widen hlow hhigh)
  | toT2 hname h => exact .toT2 hname (h.widen hlow hhigh)
  | call h htarget => exact .call (h.widen hlow hhigh) htarget
  | csr => exact .csr
  | pte => exact .pte
  | label h => exact .label h
  | comment => exact .comment

end Instruction

section Select

variable (htyped : ∀ t ∈ context.catalog.templates, t.Typed)

theorem Lower.instruction_draws (op : Op)
    (h : Lower.instruction name context state = .ok i state') :
    i.Draws context.catalog op name .unset state.ids.values state'.ids.values := by
  obtain ⟨hi, rfl⟩ := Lower.instruction_ok.1 h
  obtain ⟨t, ht, rfl, rfl⟩ := Catalog.instruction_template hi
  exact Instruction.draws_instruction ht

theorem Instruction.Draws.withSource
    (h : i.Draws context.catalog op opcode target low state.ids.values)
    (hrun : Lower.withSource i slot value action context state = .ok i' state')
    (hvalue : op.Supplies low state.ids.values opcode slot value) :
    i'.Draws context.catalog op opcode target low state'.ids.values := by
  rw [Lower.withSource, Lower.ofExcept_ok] at hrun
  obtain ⟨hset, rfl⟩ := hrun
  exact ⟨h.setSource hset hvalue, h.ordered⟩

theorem Instruction.Draws.withDestination
    (h : i.Draws context.catalog op opcode target low state.ids.values)
    (hrun : Lower.withDestination i value action context state = .ok i' state') :
    i'.Draws context.catalog op opcode value low state'.ids.values := by
  rw [Lower.withDestination, Lower.ofExcept_ok] at hrun
  obtain ⟨hset, rfl⟩ := hrun
  exact ⟨h.setDestination hset, h.ordered⟩

theorem Arithmetic.wireSource_draws {src : Option Id}
    (hreads : ∀ id ∈ src, id ∈ op.reads)
    (h : i.Draws context.catalog op opcode target low state.ids.values)
    (hrun : wireSource slot src action i context state = .ok i' state') :
    i'.Draws context.catalog op opcode target low state'.ids.values := by
  rcases wireSource_ok hrun with ⟨id, hid, hrun⟩ | ⟨id, next, hid, hrun⟩ | ⟨_, rfl, rfl⟩
  · exact h.withSource hrun (.read (hreads id hid))
  · obtain ⟨rfl, hnext⟩ := Lower.freshValue_ok hid
    have hgrown := h.grow (show state.ids.values ≤ next.ids.values by omega)
    exact hgrown.withSource hrun (.fresh ⟨_, h.ordered, by omega, rfl⟩)
  · exact h

include htyped

theorem Instruction.Draws.withImmediate
    (h : i.Draws context.catalog op opcode target low state.ids.values)
    (hrun : Lower.withImmediate i value action context state = .ok i' state')
    (hvalue : op.Supplies low state.ids.values opcode .imm value) :
    i'.Draws context.catalog op opcode target low state'.ids.values := by
  rw [Lower.withImmediate, Lower.ofExcept_ok] at hrun
  obtain ⟨hset, rfl⟩ := hrun
  exact ⟨h.setImmediate htyped hset hvalue, h.ordered⟩

theorem Arithmetic.wireImmediate_draws {imm : Option Int}
    (h : i.Draws context.catalog op opcode target low state.ids.values)
    (hrun : wireImmediate imm action i context state = .ok i' state') :
    i'.Draws context.catalog op opcode target low state'.ids.values := by
  rcases wireImmediate_ok hrun with ⟨v, random, hrun⟩ | ⟨_, rfl, rfl⟩
  · have hdrawn : i.Draws context.catalog op opcode target low
      ({ state with random } : State).ids.values := h
    exact hdrawn.withImmediate htyped hrun .imm
  · exact h

theorem Arithmetic.select_draws {a : Arithmetic}
    (h : a.select action context state = .ok i state') :
    ∃ opcode, (Op.arithmetic a).Takes context.catalog opcode ∧
      i.Draws context.catalog (.arithmetic a) opcode .unset state.ids.values
        state'.ids.values := by
  simp only [select, Lower.bind_ok] at h
  obtain ⟨i₀, s₀, htemplate, i₁, _, h₁, i₂, _, h₂, i₃, _, h₃, h₄⟩ := h
  have hdrawn : ∃ t ∈ (Op.arithmetic a).templates context.catalog, t ∈ context.catalog.templates ∧
      t.instruction = i₀ ∧ s₀.ids = state.ids := by
    obtain ⟨t, rfl, hids, hfind | ⟨hfind, ht⟩⟩ := template_chosen htemplate
    · obtain ⟨opcode, _, ht⟩ := Option.bind_eq_some_iff.1 hfind
      exact ⟨t, by simp [Op.templates, hfind], Catalog.mem_of_find? ht, rfl, hids⟩
    · exact ⟨t, by simpa [Op.templates, hfind] using ht, (List.mem_filter.1 ht).1, rfl, hids⟩
  obtain ⟨t, htakes, ht, rfl, hids⟩ := hdrawn
  rw [← hids]
  have hdraws : t.instruction.Draws context.catalog (.arithmetic a) t.name .unset s₀.ids.values
      s₀.ids.values := Instruction.draws_instruction ht
  have hdraws := wireSource_draws (by simp [Op.reads]; tauto) hdraws h₁
  have hdraws := wireSource_draws (by simp [Op.reads]; tauto) hdraws h₂
  have hdraws := wireImmediate_draws htyped hdraws h₃
  have hdraws := wireSource_draws (by simp) hdraws h₄
  exact ⟨t.name, .inl ⟨t, htakes, rfl⟩, hdraws⟩

theorem Access.wire_draws {a : Access} (hreads : ∀ id ∈ a.base, id ∈ op.reads)
    (h : i.Draws context.catalog op opcode target low state.ids.values)
    (hrun : a.wire action i context state = .ok i' state') :
    i'.Draws context.catalog op opcode target low state'.ids.values := by
  obtain ⟨j, base, hbase, hwired, hrun⟩ := wire_ok hrun
  have hj : j.Draws context.catalog op opcode target low state.ids.values := by
    rcases hwired with hwired | ⟨_, rfl⟩
    · exact h.withImmediate htyped hwired .imm
    · exact h
  exact hj.withSource hrun (.read (hreads base hbase))

omit htyped in
theorem Access.template_draws (op : Op) {a : Access} {filter : TemplateFilter}
    {category : Category} {skip : List String} (hfilter : filter.category = some category)
    (h : a.template filter skip context state = .ok i state') :
    ∃ t ∈ a.templates context.catalog category,
      i.Draws context.catalog op t.name .unset state.ids.values state'.ids.values := by
  obtain ⟨t, rfl, hids, ⟨opcode, hop, hfind⟩ | ⟨hop, ht⟩⟩ := template_chosen h
  · rw [hids]
    have ht := Catalog.mem_of_find? hfind
    exact ⟨t, by simp [templates, hop, hfind], Instruction.draws_instruction ht⟩
  · rw [hids]
    obtain ⟨hmem, hcategory⟩ := Catalog.mem_filter_category hfilter ht
    exact ⟨t, by simp [templates, hop, hmem, hcategory], Instruction.draws_instruction hmem⟩

theorem Access.selectLoad_draws {a : Access}
    (h : a.selectLoad action context state = .ok i state') :
    ∃ opcode, (Op.load a).Takes context.catalog opcode ∧
      i.Draws context.catalog (.load a) opcode .unset state.ids.values state'.ids.values := by
  simp only [selectLoad, Lower.bind_ok] at h
  obtain ⟨i₀, _, htemplate, hwire⟩ := h
  obtain ⟨t, htakes, hdraws⟩ := template_draws (.load a) rfl htemplate
  have hdraws := wire_draws htyped (by simp [Op.reads]) hdraws hwire
  exact ⟨t.name, .inl ⟨t, htakes, rfl⟩, hdraws⟩

theorem Access.selectStore_draws {a : Access} {stored : Option Id}
    (h : a.selectStore stored action context state = .ok i state') :
    ∃ opcode, (Op.store a stored).Takes context.catalog opcode ∧
      i.Draws context.catalog (.store a stored) opcode .unset state.ids.values
        state'.ids.values := by
  obtain ⟨i₀, s₀, i₁, s₁, htemplate, hwire, hlast⟩ := selectStore_ok h
  obtain ⟨t, htakes, hdraws⟩ := template_draws (.store a stored) rfl htemplate
  have hbase : ∀ id ∈ a.base, id ∈ (Op.store a stored).reads := by
    intro id hid
    exact List.mem_append_right _ (Option.mem_toList.2 hid)
  have hdraws := wire_draws htyped hbase hdraws hwire
  refine ⟨t.name, .inl ⟨t, htakes, rfl⟩, ?_⟩
  rcases hlast with ⟨id, hid, h⟩ | ⟨id, next, hid, h⟩
  · exact hdraws.withSource h (.read (List.mem_append_left _ (Option.mem_toList.2 hid)))
  · obtain ⟨rfl, hnext⟩ := Lower.freshValue_ok hid
    have hgrown := hdraws.grow (show s₁.ids.values ≤ next.ids.values by omega)
    exact hgrown.withSource h (.fresh ⟨_, hdraws.ordered, by omega, rfl⟩)

theorem Op.selectLi_draws {v : Immediate} (h : selectLi v action context state = .ok i state') :
    i.Draws context.catalog op "li" .unset state.ids.values state'.ids.values := by
  obtain ⟨rfl, i₀, h₀, himm⟩ := selectLi_ok h
  refine (Lower.instruction_draws op h₀).withImmediate htyped himm ?_
  cases v with
  | value v => exact .imm
  | symbol s => exact .symbol (.inl rfl)

theorem CsrWrite.select_selected {w : CsrWrite}
    (h : w.select action context state = .ok i state') :
    i.Selected context.catalog (.csrWrite w) state.ids.values state'.ids.values := by
  have hown (immediate : Bool) : w.how.mnemonic immediate ∈ Op.ownOpcodes := by
    cases immediate <;> cases w.how <;> simp [CsrUpdate.mnemonic, Op.ownOpcodes]
  rcases select_ok h with ⟨_, rfl, rfl⟩ |
    ⟨_, i₀, i₁, hcsr, ⟨v, h₀, himm⟩ | ⟨src, hsrc, h₀, hrs1⟩⟩
  · exact .csr
  · have hdraws := (Lower.instruction_draws (.csrWrite w) h₀).withSource hcsr (.symbol (.inr rfl))
    exact .plain (.inr (hown _)) (hdraws.withImmediate htyped himm .imm)
  · have hdraws := (Lower.instruction_draws (.csrWrite w) h₀).withSource hcsr (.symbol (.inr rfl))
    exact .plain (.inr (hown _)) (hdraws.withSource hrs1 (.read (Option.mem_toList.2 hsrc)))

theorem Op.select_selected (h : op.select id action context state = .ok i state') :
    i.Selected context.catalog op state.ids.values state'.ids.values := by
  cases select_ok h with
  | arithmetic hrun =>
    obtain ⟨_, htakes, hdraws⟩ := Arithmetic.select_draws htyped hrun
    exact .plain htakes hdraws
  | load hrun =>
    obtain ⟨_, htakes, hdraws⟩ := Access.selectLoad_draws htyped hrun
    exact .plain htakes hdraws
  | store hrun =>
    obtain ⟨_, htakes, hdraws⟩ := Access.selectStore_draws htyped hrun
    exact .plain htakes hdraws
  | csrWrite hrun => exact CsrWrite.select_selected htyped hrun
  | li hrun => exact .plain (.inr (by simp [ownOpcodes])) (selectLi_draws htyped hrun)
  | liToT2 h₀ ht2 => exact .toT2 (.inl rfl) ((selectLi_draws htyped h₀).withDestination ht2)
  | @moveToT2 src _ _ _ h₀ ht2 hsrc =>
    have hdraws := (Lower.instruction_draws (.moveToT2 src) h₀).withDestination ht2
    exact .toT2 (.inr rfl) (hdraws.withSource hsrc (.read (by simp [reads])))
  | moveFromT2 h₀ hsrc =>
    exact .plain (.inr (by simp [ownOpcodes]))
      ((Lower.instruction_draws _ h₀).withSource hsrc (.t2 rfl))
  | @call target base _ _ _ o h₀ hra hbase himm =>
    have hdraws := (Lower.instruction_draws (.call target (some base)) h₀).withDestination hra
    have hdraws := hdraws.withSource hbase (.read (by simp [reads]))
    refine .call (hdraws.withImmediate htyped himm .imm) ?_
    simp only [Lower.withDestination, Lower.withSource, Lower.withImmediate, Lower.ofExcept_ok,
      Instruction.setDestination_ok, Instruction.setSource_ok, Instruction.setImmediate_ok]
      at hra hbase himm
    obtain ⟨⟨o, _, rfl⟩, _⟩ := hra
    obtain ⟨⟨_, _, rfl⟩, _⟩ := hbase
    obtain ⟨⟨_, _, rfl⟩, _⟩ := himm
    rfl
  | csrDirective => exact .csr
  | csrRead _ h₀ hcsr =>
    exact .plain (.inr (by simp [ownOpcodes]))
      ((Lower.instruction_draws _ h₀).withSource hcsr (.symbol (.inr rfl)))
  | @compare relation lhs rhs pass _ _ _ _ h₀ hlhs hrhs hoffset =>
    have hdraws := (Lower.instruction_draws (.compare relation lhs rhs (some pass)) h₀).withSource
      hlhs (.read (by simp [reads]))
    have hdraws := hdraws.withSource hrhs (.read (by simp [reads]))
    exact .plain (.inr (by cases relation <;> simp [ownOpcodes]))
      (hdraws.withSource hoffset (.pass rfl))
  | jumpToFail h₀ hrs1 =>
    exact .plain (.inr (by simp [ownOpcodes]))
      ((Lower.instruction_draws _ h₀).withSource hrs1 (.read (by simp [reads])))
  | ret hrun => exact .plain (.inr (by simp [ownOpcodes])) (Lower.instruction_draws _ hrun)
  | @system opcode _ hrun =>
    have hdraws := Lower.instruction_draws (.system opcode) hrun
    obtain ⟨t, hfind, rfl⟩ := Catalog.instruction_ok.1 (Lower.instruction_ok.1 hrun).1
    exact .plain (.inl ⟨t, by simp [templates, hfind], hdraws.name⟩) hdraws
  | readPte | writePte => exact .pte
  | label => exact .label rfl
  | comment => exact .comment

end Select

namespace Action

/-- What selection makes of an action, under the action's id. -/
inductive Selects (catalog : Catalog) (low high : Nat) : Action → Instruction → Prop where
  | simple {id expanded op} {i : Instruction} (h : i.Selected catalog op low high) :
      Selects catalog low high (.simple id expanded op) (openDestination id { i with id })
  | codePage {id expanded spec code} :
      Selects catalog low high (.block id expanded (.codePage spec) code) (.label id id false)
  | assertException {id expanded cause fault resume code} :
      Selects catalog low high
        (.block id expanded (.assertException cause (some fault) (some resume)) code)
        { cause.directive fault resume with id }

theorem Selects.widen {a : Action} (h : a.Selects catalog low high i) (hlow : low' ≤ low)
    (hhigh : high ≤ high') : a.Selects catalog low' high' i := by
  cases h with
  | simple h => exact .simple (h.widen hlow hhigh)
  | codePage => exact .codePage
  | assertException => exact .assertException

variable (htyped : ∀ t ∈ context.catalog.templates, t.Typed)
include htyped

theorem select_selects {a : Action} (h : a.select context state = .ok i state') :
    a.Selects context.catalog state.ids.values state'.ids.values (openDestination a.id i) := by
  cases a with
  | simple id expanded op =>
    obtain ⟨j, hj, rfl⟩ := select_simple_ok h
    exact .simple (Op.select_selected htyped hj)
  | block id expanded owner code =>
    obtain ⟨j, hj, _, rfl⟩ := select_block_ok h
    cases hj with
    | codePage => exact .codePage
    | assertException => exact .assertException

theorem selectAll_selects {actions : List Action} {code : List Instruction}
    (h : selectAll actions context state = .ok code state') :
    List.Forall₂ (Selects context.catalog state.ids.values state'.ids.values) actions code := by
  induction actions generalizing state code with
  | nil =>
    obtain ⟨rfl, _⟩ := selectAll_nil_ok h
    exact .nil
  | cons a rest ih =>
    obtain ⟨i, next, more, hi, hmore, rfl⟩ := selectAll_cons_ok h
    have hearly : state.ids.values ≤ next.ids.values :=
      Lower.select_moves (R := Lower.CountsOn) a _ _ _ _ hi
    have hlate : next.ids.values ≤ _ :=
      Lower.selectAll_moves (R := Lower.CountsOn) rest _ _ _ _ hmore
    refine .cons ((select_selects htyped hi).widen (Nat.le_refl _) hlate) ?_
    exact (ih hmore).imp fun _ _ hselects => hselects.widen hearly (Nat.le_refl _)

end Action
end PlanLowering
