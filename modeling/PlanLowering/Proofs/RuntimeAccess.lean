import PlanLowering.Proofs.Handover

/-!
# Actions that reach the runtime

Expansion puts what fills t2 in front of the action whose directive takes it, and what fetches t2
behind the one whose directive leaves it. The pair is not torn apart again: both are done when they
appear, and of all that is expanded later only a label comes between them.
-/

namespace PlanLowering

/-- The form of the instruction that is selected for an action. -/
def Op.form (env : Environment) : Op → InstructionForm
  | .label _ pointer => .label pointer
  | .comment text => .comment text
  | .call target _ => .call target
  | .csrRead csr direct => if env.needsRuntime csr then .csrAccess csr .read direct else .native
  | .csrWrite w =>
    if env.needsRuntime w.csr then .csrAccess w.csr (.update w.how) w.direct else .native
  | .readPte target =>
    .pteAccess target.memory env.paging (target.level.getD env.paging.leafLevel) false
  | .writePte target =>
    .pteAccess target.memory env.paging (target.level.getD env.paging.leafLevel) true
  | _ => .native

namespace Action

/-- What the instructions of an action make of t2. An action that is still to be expanded brings
all that its directive needs. -/
inductive Hands (env : Environment) : Action → Handover → Handover → Prop where
  | mark {s id expanded name pointer} (hname : name ≠ "ret") :
      Hands env (.simple id expanded (.label name pointer)) s s
  | due {id op} : Hands env (.simple id false op) .idle .idle
  | pass {id op} (hform : (op.form env).passesT2) : Hands env (.simple id true op) .idle .idle
  | block {id expanded owner code} (hcode : expanded = false → areFresh code) :
      Hands env (.block id expanded owner code) .idle .idle
  | load {id expanded v} : Hands env (.simple id expanded (.liToT2 v)) .idle .operand
  | move {id expanded src} : Hands env (.simple id expanded (.moveToT2 src)) .idle .operand
  | csrWrite {id w} (hruntime : env.needsRuntime w.csr) :
      Hands env (.simple id true (.csrWrite w)) .operand .idle
  | writePte {id target} : Hands env (.simple id true (.writePte target)) .operand .idle
  | csrRead {id csr direct} (hruntime : env.needsRuntime csr) :
      Hands env (.simple id true (.csrRead csr direct)) .idle .result
  | readPte {id target} : Hands env (.simple id true (.readPte target)) .idle .result
  | fetch {id expanded src} : Hands env (.simple id expanded (.moveFromT2 src)) .result .idle

end Action

open PlanLowering.Action (Hands)

variable {context : Context} {state state' : State} {env : Environment} {id : Id} {op : Op}
variable {before actions out code body : List Action} {a : Action} {e : Expansion} {s t : Handover}

section Expand

theorem Action.hands_of_fresh (h : a.isFresh) : Hands env a .idle .idle := by
  cases a with
  | simple id expanded op =>
    simp only [isFresh, Bool.and_eq_true, Bool.not_eq_true'] at h
    obtain ⟨rfl, _⟩ := h
    exact .due
  | block id expanded owner code =>
    simp only [isFresh, Bool.and_eq_true] at h
    exact .block fun _ => h.2

theorem Access.widen_before {P : Action → Prop} (hli : ∀ id v, P (.li id v))
    (hsum : ∀ id a, P (.new id (.arithmetic a))) {address : List Action} {access access' : Access}
    (haddress : ∀ b ∈ address, P b)
    (h : access.widen address context state = .ok (before, access') state') : ∀ b ∈ before, P b := by
  obtain ⟨_, rfl, _⟩ | ⟨base, offset, sum, _, _, _, _, _, rfl, _⟩ := widen_ok h
  · exact haddress
  · simp only [List.forall_mem_append, List.forall_mem_cons]
    exact ⟨haddress, hli _ _, hsum _ _, by simp⟩

theorem Access.expand_before {P : Action → Prop} (hli : ∀ id v, P (.li id v))
    (hsum : ∀ id a, P (.new id (.arithmetic a))) {flags : PageFlags} {access access' : Access}
    (h : access.expand flags context state = .ok (before, access') state') : ∀ b ∈ before, P b := by
  obtain ⟨_, _, _, _, ⟨_, h⟩ | ⟨_, _, _, _, _, h⟩⟩ := expand_ok h
  · exact widen_before hli hsum (by simp) h
  · exact widen_before hli hsum (List.forall_mem_singleton.2 (hli _ _)) h

theorem Access.expand_new {flags : PageFlags} {access access' : Access}
    (h : access.expand flags context state = .ok (before, access') state') :
    ∀ b ∈ before, ∃ id op, b = .new id op :=
  expand_before (fun _ _ => ⟨_, _, rfl⟩) (fun _ _ => ⟨_, _, rfl⟩) h

theorem Op.behind_hands (hbefore : ∀ b ∈ before, ∃ id op, b = .new id op)
    (hform : (op.form env).passesT2) :
    Along (Hands env) (behind id op before).actions .idle .idle := by
  rw [behind_actions]
  refine (Along.stay fun b hb => ?_).append (.single (.pass hform))
  obtain ⟨_, _, rfl⟩ := hbefore b hb
  exact .due

theorem Op.fetched_hands {read : Id} (hread : Hands env (.simple read true op) .idle .result) :
    Along (Hands env) (fetched id op read).actions .idle .idle :=
  .cons hread (.single .fetch)

theorem Op.FillsT2.hands {src : Option Id} (h : op.FillsT2 src) (load : Id) :
    Along (Hands env) [.new load op] .idle .operand := by
  cases h with
  | move => exact .single .move
  | load => exact .single .load

theorem Op.passesT2_of_standsAlone (h : op.standsAlone env) : (op.form env).passesT2 := by
  cases op with
  | csrRead csr direct =>
    have hdirect : env.needsRuntime csr = false := by simpa [standsAlone] using h
    simp [form, hdirect, InstructionForm.passesT2, InstructionForm.takesT2, InstructionForm.leavesT2]
  | _ => first | rfl | cases h

theorem CsrWrite.expand_hands {w w' : CsrWrite}
    (h : w.expand context state = .ok (before, w') state') :
    Along (Hands context.environment) (Op.behind id (.csrWrite w') before).actions
      .idle .idle := by
  have hform (hdirect : context.environment.needsRuntime w.csr = false) :
      ∀ w'' : CsrWrite, w''.csr = w.csr → ((Op.csrWrite w'').form context.environment).passesT2 := by
    intro w'' hcsr
    simp [Op.form, hcsr, hdirect, InstructionForm.passesT2, InstructionForm.takesT2,
      InstructionForm.leavesT2]
  obtain ⟨_, _, ⟨hdirect, rfl, rfl, _⟩ | ⟨op, load, ⟨hruntime, hfills⟩ | ⟨hdirect, v, rfl⟩, _, rfl, rfl⟩⟩ :=
    expand_ok h
  · exact Op.behind_hands (by simp) (hform hdirect _ rfl)
  · rw [Op.behind_actions]
    exact (hfills.hands load).append (.single (.csrWrite hruntime))
  · exact Op.behind_hands (List.forall_mem_singleton.2 ⟨_, _, rfl⟩) (hform hdirect _ rfl)

theorem Op.expand_hands (h : op.expand id context state = .ok e state') :
    Along (Hands context.environment) e.actions .idle .idle := by
  cases expand_ok h with
  | alone halone => exact behind_hands (by simp) (passesT2_of_standsAlone halone)
  | load haccess | store haccess => exact behind_hands (Access.expand_new haccess) rfl
  | call => exact behind_hands (List.forall_mem_singleton.2 ⟨_, _, rfl⟩) rfl
  | csrRead hruntime => exact fetched_hands (.csrRead hruntime)
  | readPte => exact fetched_hands .readPte
  | csrWrite hwrite => exact CsrWrite.expand_hands hwrite
  | writePte hwrite =>
    obtain ⟨_, load, _, hfills, _, rfl, _⟩ := PteTarget.expandWrite_ok hwrite
    rw [behind_actions]
    exact (hfills.hands load).append (.single .writePte)
  | compare => exact .cons (.pass rfl) (.cons .due (.single .due))
  | jumpToFail => exact .cons .due (.cons .due (.single (.pass rfl)))
  | modifyPte => exact .cons .due (.single .due)

theorem Along.insertBeforeLast {α σ : Type} {M : α → σ → σ → Prop} {x : α} {xs : List α} {s t : σ}
    (h : Along M xs s t) (hx : ∀ s, M x s s) : Along M (insertBeforeLast x xs) s t := by
  induction h with
  | nil => exact .single (hx _)
  | @cons a rest _ _ _ ha hrest ih =>
    cases rest with
    | nil => exact .cons (hx _) (.cons ha hrest)
    | cons b more => exact .cons ha ih

namespace Action

mutual

theorem expand_hands {a : Action} {e : Expansion} {state state' : State} {s t : Handover}
    (ha : Hands context.environment a s t) (h : a.expand context state = .ok e state') :
    Along (Hands context.environment) e.actions s t := by
  match a with
  | .simple id true op | .block id true owner code =>
    obtain ⟨rfl, _⟩ := expand_of_expanded rfl h
    exact .single ha
  | .simple id false op =>
    rw [expand] at h
    cases ha with
    | due => exact Op.expand_hands h
    | mark hname =>
      simp only [Op.expand, Lower.pure_ok] at h
      exact h.1 ▸ .single (.mark hname)
    | load =>
      simp only [Op.expand, Lower.pure_ok] at h
      exact h.1 ▸ .single .load
    | move =>
      simp only [Op.expand, Lower.pure_ok] at h
      exact h.1 ▸ .single .move
    | fetch =>
      simp only [Op.expand, Lower.pure_ok] at h
      exact h.1 ▸ .single .fetch
  | .block id false (.codePage spec) code =>
    obtain ⟨_, _, rfl⟩ := codePage_ok h
    cases ha with
    | block hcode =>
      have hinner : Along (Hands context.environment) code .idle .idle :=
        .stay fun b hb => hands_of_fresh (areFresh_iff.1 (hcode rfl) b hb)
      exact .cons (.block (by simp)) (hinner.append (.single .due))
  | .block id false (.assertException cause old old') code =>
    obtain ⟨_, body, _, _, label, _, _, _, _, _, _, _, hbody, hfault, _, _, _, _, rfl⟩ :=
      assertException_ok h
    cases ha with
    | block hcode =>
      have hinner : Along (Hands context.environment) code .idle .idle :=
        .stay fun b hb => hands_of_fresh (areFresh_iff.1 (hcode rfl) b hb)
      obtain ⟨hname, _⟩ := Lower.freshNamed_ok (by simp [FreshIds.labelStems]) hfault
      have hmark : ∀ s, Hands context.environment (new label (.label _ true)) s s :=
        fun _ => .mark (FreshIds.ne_ret_of_label (.inl hname))
      have hbody := (expandEach_hands hinner hbody).insertBeforeLast hmark
      exact .cons (.block (by simp)) (hbody.append (.cons .due (.single .due)))

theorem expandEach_hands {code body : List Action} {state state' : State} {s t : Handover}
    (hcode : Along (Hands context.environment) code s t)
    (h : expandEach code context state = .ok body state') :
    Along (Hands context.environment) body s t := by
  match code with
  | [] =>
    obtain ⟨rfl, _⟩ := expandEach_nil_ok.1 h
    exact hcode
  | a :: rest =>
    obtain ⟨e, _, more, ha, hmore, rfl⟩ := expandEach_cons_ok h
    cases hcode with
    | cons hfirst hrest => exact (expand_hands hfirst ha).append (expandEach_hands hrest hmore)

end

theorem Worked.hands (h : Worked context actions state out state')
    (hactions : Along (Hands context.environment) actions s t) :
    Along (Hands context.environment) out s t := by
  induction h generalizing s with
  | done => exact hactions
  | kept _ _ ih =>
    cases hactions with
    | cons ha hrest => exact .cons ha (ih hrest)
  | next _ he _ ih =>
    cases hactions with
    | cons ha hrest => exact ih ((expand_hands ha he).append hrest)

theorem expandAll_hands (hactions : Along (Hands context.environment) actions s t)
    (h : expandAll actions context state = .ok out state') :
    Along (Hands context.environment) out s t :=
  (expandAll_ok.1 h).hands hactions

end Action

end Expand

section Select

variable {i i' : Instruction} {slot : Slot} {value : OperandValue} {action name : String}

theorem Lower.instruction_form (h : Lower.instruction name context state = .ok i state') :
    i.form = .native :=
  Catalog.instruction_form (instruction_ok.1 h).1

theorem Lower.withSource_form
    (h : Lower.withSource i slot value action context state = .ok i' state') :
    i'.form = i.form :=
  Instruction.setSource_form (ofExcept_ok.1 h).1

theorem Lower.withImmediate_form
    (h : Lower.withImmediate i value action context state = .ok i' state') :
    i'.form = i.form :=
  Instruction.setImmediate_form (ofExcept_ok.1 h).1

theorem Lower.withSource_ok
    (h : Lower.withSource i slot value action context state = .ok i' state') :
    ∃ sources, Instruction.setFirst (·.slot = slot) value i.sources = some sources ∧
      i' = { i with sources } := by
  obtain ⟨sources, hfirst, rfl⟩ := Instruction.setSource_ok.1 (ofExcept_ok.1 h).1
  exact ⟨sources, hfirst, rfl⟩

theorem Lower.withDestination_ok
    (h : Lower.withDestination i value action context state = .ok i' state') :
    ∃ op, i.destination = some op ∧ i' = { i with destination := some { op with value } } := by
  obtain ⟨op, hop, rfl⟩ := Instruction.setDestination_ok.1 (ofExcept_ok.1 h).1
  exact ⟨op, hop, rfl⟩

theorem Op.selectLi_form {v : Immediate} (h : selectLi v action context state = .ok i state') :
    i.form = .native := by
  obtain ⟨_, _, h₀, himm⟩ := selectLi_ok h
  rw [Lower.withImmediate_form himm, Lower.instruction_form h₀]

theorem CsrWrite.select_form {w : CsrWrite}
    (h : w.select action context state = .ok i state') :
    i.form = (Op.csrWrite w).form context.environment := by
  rcases select_ok h with ⟨hruntime, rfl, _⟩ |
    ⟨hdirect, _, _, hcsr, ⟨_, h₀, himm⟩ | ⟨_, _, h₀, hrs1⟩⟩
  · rw [Op.form, if_pos hruntime]
    rfl
  · rw [Op.form, if_neg hdirect, Lower.withImmediate_form himm, Lower.withSource_form hcsr,
      Lower.instruction_form h₀]
  · rw [Op.form, if_neg hdirect, Lower.withSource_form hrs1, Lower.withSource_form hcsr,
      Lower.instruction_form h₀]

namespace Arithmetic

theorem template_form {a : Arithmetic} (h : a.template context state = .ok i state') :
    i.form = .native := by
  obtain ⟨t, rfl, _⟩ := template_chosen h
  rfl

theorem wireSource_form {src : Option Id}
    (h : wireSource slot src action i context state = .ok i' state') : i'.form = i.form := by
  rcases wireSource_ok h with ⟨_, _, h⟩ | ⟨_, _, _, h⟩ | ⟨_, rfl, _⟩
  · exact Lower.withSource_form h
  · exact Lower.withSource_form h
  · rfl

theorem wireImmediate_form {imm : Option Int}
    (h : wireImmediate imm action i context state = .ok i' state') : i'.form = i.form := by
  rcases wireImmediate_ok h with ⟨_, _, h⟩ | ⟨_, rfl, _⟩
  · exact Lower.withImmediate_form h
  · rfl

theorem select_form {a : Arithmetic} (h : a.select action context state = .ok i state') :
    i.form = .native := by
  simp only [select, Lower.bind_ok] at h
  obtain ⟨_, _, ht, _, _, hrs1, _, _, hrs2, _, _, himm, hrs3⟩ := h
  rw [wireSource_form hrs3, wireImmediate_form himm, wireSource_form hrs2, wireSource_form hrs1,
    template_form ht]

end Arithmetic

namespace Access

theorem template_form {a : Access} {filter : TemplateFilter} {skip : List String}
    (h : a.template filter skip context state = .ok i state') : i.form = .native := by
  obtain ⟨t, rfl, _⟩ := template_chosen h
  rfl

theorem wire_form {a : Access} (h : a.wire action i context state = .ok i' state') :
    i'.form = i.form := by
  obtain ⟨_, _, _, hwired | ⟨_, rfl⟩, hrs1⟩ := wire_ok h
  · rw [Lower.withSource_form hrs1, Lower.withImmediate_form hwired]
  · exact Lower.withSource_form hrs1

theorem selectLoad_form {a : Access} (h : a.selectLoad action context state = .ok i state') :
    i.form = .native := by
  simp only [selectLoad, Lower.bind_ok] at h
  obtain ⟨_, _, ht, hwire⟩ := h
  rw [wire_form hwire, template_form ht]

theorem selectStore_form {a : Access} {stored : Option Id}
    (h : a.selectStore stored action context state = .ok i state') : i.form = .native := by
  obtain ⟨_, _, _, _, ht, hwire, ⟨_, _, hrs2⟩ | ⟨_, _, _, hrs2⟩⟩ := selectStore_ok h
  all_goals rw [Lower.withSource_form hrs2, wire_form hwire, template_form ht]

end Access

theorem Op.select_form (h : op.select id action context state = .ok i state') :
    i.form = op.form context.environment := by
  cases select_ok h with
  | arithmetic hrun => exact Arithmetic.select_form hrun
  | load hrun => exact Access.selectLoad_form hrun
  | store hrun => exact Access.selectStore_form hrun
  | csrWrite hrun => exact CsrWrite.select_form hrun
  | li hrun => exact selectLi_form hrun
  | liToT2 h₀ ht2 =>
    obtain ⟨_, _, rfl⟩ := Lower.withDestination_ok ht2
    have hform := selectLi_form h₀
    exact hform
  | moveToT2 h₀ ht2 hsrc =>
    obtain ⟨_, _, rfl⟩ := Lower.withDestination_ok ht2
    have hform := Lower.instruction_form h₀
    exact (Lower.withSource_form hsrc).trans hform
  | moveFromT2 h₀ hsource | jumpToFail h₀ hsource =>
    exact (Lower.withSource_form hsource).trans (Lower.instruction_form h₀)
  | csrDirective hruntime =>
    rw [form, if_pos hruntime]
    rfl
  | csrRead hdirect h₀ hcsr =>
    rw [form, if_neg hdirect, Lower.withSource_form hcsr, Lower.instruction_form h₀]
  | compare h₀ hlhs hrhs hoffset =>
    rw [Lower.withSource_form hoffset, Lower.withSource_form hrhs, Lower.withSource_form hlhs,
      Lower.instruction_form h₀]
    rfl
  | ret hrun | system hrun => exact Lower.instruction_form hrun
  | call | readPte | writePte | label | comment => rfl

theorem Instruction.Hands.openDestination (h : i.Hands s t) (id id' : Id) :
    (Action.openDestination id { i with id := id' }).Hands s t := by
  cases h with
  | mark hname => exact .mark hname
  | pass hform => exact .pass hform
  | fill hform htarget => exact .fill hform ((target_openDestination id _).trans htarget)
  | take hform hname hids => exact .take hform hname hids
  | leave hform htarget => exact .leave hform ((target_openDestination id _).trans htarget)
  | fetch hform hname hids hreads => exact .fetch hform hname hids hreads

namespace Instruction.Hands

theorem csrUpdate (csr : String) (how : CsrUpdate) (direct : Bool) :
    (csrDirective csr (.update how) direct).Hands .operand .idle :=
  .take rfl (by simp [csrDirective]) rfl

theorem csrRead (csr : String) (direct : Bool) :
    (csrDirective csr .read direct).Hands .idle .result :=
  .leave rfl rfl

theorem pteWrite (target : PteTarget) (paging : Paging) :
    (target.directive true paging).Hands .operand .idle :=
  .take rfl (by simp [PteTarget.directive]) rfl

theorem pteRead (target : PteTarget) (paging : Paging) :
    (target.directive false paging).Hands .idle .result :=
  .leave rfl rfl

end Instruction.Hands

theorem Op.select_load {v : Immediate}
    (h : (liToT2 v).select id action context state = .ok i state') : i.Hands .idle .operand := by
  have hform : i.form = .native := select_form h
  cases select_ok h with
  | liToT2 h₀ ht2 =>
    obtain ⟨_, _, rfl⟩ := Lower.withDestination_ok ht2
    exact .fill hform rfl

theorem Op.select_move {src : Id}
    (h : (moveToT2 src).select id action context state = .ok i state') :
    i.Hands .idle .operand := by
  have hform : i.form = .native := select_form h
  cases select_ok h with
  | moveToT2 h₀ ht2 hsrc =>
    obtain ⟨_, _, rfl⟩ := Lower.withDestination_ok ht2
    obtain ⟨_, _, rfl⟩ := Lower.withSource_ok hsrc
    exact .fill hform rfl

theorem Op.select_fetch {src : Id}
    (h : (moveFromT2 src).select id action context state = .ok i state') :
    i.Hands .result .idle := by
  have hform : i.form = .native := select_form h
  cases select_ok h with
  | moveFromT2 h₀ hsrc =>
    have hdrawn := Catalog.drawn_instruction (fun _ value => ∀ id, value ≠ .virtual id)
      (Lower.instruction_ok.1 h₀).1 (by simp)
    have hdrawn := hdrawn.setSource (Lower.ofExcept_ok.1 hsrc).1 (by simp)
    obtain ⟨sources, hfirst, rfl⟩ := Lower.withSource_ok hsrc
    refine .fetch hform ?_ ?_ ?_
    · rw [hdrawn.name]
      decide
    · rw [Instruction.virtualSources, List.filterMap_eq_nil_iff]
      exact fun op hop => Operand.virtual?_eq_none (hdrawn.sources op hop)
    · obtain ⟨front, op, back, _, _, _, rfl⟩ := Instruction.setFirst_eq_some hfirst
      exact ⟨_, List.mem_append_right _ List.mem_cons_self, rfl⟩

theorem Action.select_hands {a : Action} (ha : Hands context.environment a s t)
    (hexpanded : a.isExpanded) (h : a.select context state = .ok i state') :
    (openDestination a.id i).Hands s t := by
  cases a with
  | simple id expanded op =>
    obtain ⟨j, hj, rfl⟩ := select_simple_ok h
    refine Instruction.Hands.openDestination ?_ _ _
    have hform := Op.select_form hj
    cases ha with
    | due => cases hexpanded
    | pass hpass => exact .pass (hform ▸ hpass)
    | load => exact Op.select_load hj
    | move => exact Op.select_move hj
    | fetch => exact Op.select_fetch hj
    | mark hname =>
      cases Op.select_ok hj with
      | label => exact .mark hname
    | csrWrite hruntime =>
      cases Op.select_ok hj with
      | csrWrite hrun =>
        rcases CsrWrite.select_ok hrun with ⟨_, rfl, _⟩ | ⟨hdirect, _⟩
        · exact .csrUpdate _ _ _
        · exact absurd hruntime hdirect
    | csrRead hruntime =>
      cases Op.select_ok hj with
      | csrDirective => exact .csrRead _ _
      | csrRead hdirect => exact absurd hruntime hdirect
    | writePte =>
      cases Op.select_ok hj with
      | writePte => exact .pteWrite _ _
    | readPte =>
      cases Op.select_ok hj with
      | readPte => exact .pteRead _ _
  | block id expanded owner code =>
    obtain ⟨j, hj, _, rfl⟩ := select_block_ok h
    refine Instruction.Hands.openDestination ?_ _ _
    cases ha
    cases hj <;> exact .pass rfl

theorem Action.selectAll_hands {code : List Instruction}
    (hactions : Along (Hands context.environment) actions s t)
    (hexpanded : ∀ a ∈ actions, a.isExpanded)
    (h : selectAll actions context state = .ok code state') : Along Instruction.Hands code s t := by
  induction hactions generalizing state code with
  | nil =>
    obtain ⟨rfl, _⟩ := selectAll_nil_ok h
    exact .nil
  | cons ha _ ih =>
    obtain ⟨i, _, more, hi, hmore, rfl⟩ := selectAll_cons_ok h
    obtain ⟨hfirst, hrest⟩ := List.forall_mem_cons.1 hexpanded
    exact .cons (select_hands ha hfirst hi) (ih hrest hmore)

/-- The code of a list of actions hands nothing over at its ends. -/
theorem lowerRoutine_hands (htyped : ∀ t ∈ context.catalog.templates, t.Typed) {code : List Instruction}
    (hactions : ∀ a ∈ actions, Hands context.environment a .idle .idle)
    (h : lowerRoutine actions context state = .ok code state') :
    Along Instruction.Hands code .idle .idle := by
  obtain ⟨expanded, _, selected, _, legal, _, hexpand, hselect, hlegal, hallocate⟩ :=
    lowerRoutine_passes h
  have hexpanded := Action.expandAll_hands (.stay hactions) hexpand
  have hselected :=
    Action.selectAll_hands hexpanded (Action.expandAll_covers hexpand).2 hselect
  exact allocate_hands hallocate (legalize_hands htyped hlegal hselected)

end Select
end PlanLowering
