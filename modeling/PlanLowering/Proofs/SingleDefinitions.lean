import PlanLowering.Proofs.ArithmeticWiring
import PlanLowering.Proofs.ExpansionOrder

/-!
# Single definitions

Selection makes one instruction of each action. It defines nothing but the value of its own id, and
reads what the action reads or ids that are made up for this one place.
-/

namespace PlanLowering

def OperandValue.id? (slot : Slot) : OperandValue → Option Id
  | .virtual id => some id
  | .symbol s => if slot = .csr then none else some s
  | _ => none

def Operand.id? (op : Operand) : Option Id := op.value.id? op.slot

def OperandValue.From (reads held : List Id) (slot : Slot) : OperandValue → Prop
  | .virtual id => id ∈ reads ∧ id ∈ held
  | .symbol s => slot = .csr ∨ s ∈ held
  | _ => True

theorem OperandValue.From.held {reads held : List Id} {slot : Slot} {value : OperandValue} {x : Id}
    (h : value.From reads held slot) (hx : value.id? slot = some x) : x ∈ held := by
  cases value with
  | virtual id => exact Option.some.inj hx ▸ h.2
  | symbol s =>
    rw [id?] at hx
    split at hx
    · cases hx
    · next hslot => exact Option.some.inj hx ▸ h.resolve_left hslot
  | _ => cases hx

namespace Instruction

def sourceIds (i : Instruction) : List Id := i.sources.filterMap Operand.id?

/-- The label that the instruction is, or the page that it works on. -/
def formIds (i : Instruction) : List Id :=
  match i.form with
  | .label _ => [i.name]
  | .call target => [target]
  | .pteAccess memory _ _ _ => [memory]
  | _ => []

/-- All ids of an instruction, with its own one. -/
def mentions (i : Instruction) : List Id :=
  i.id :: ((i.destination.bind Operand.id?).toList ++ i.sourceIds ++ i.formIds)

theorem mem_mentions {i : Instruction} {o : Operand} {x : Id} (ho : o ∈ i.sources)
    (hx : o.id? = some x) : x ∈ i.mentions := by
  refine List.mem_cons_of_mem _ (List.mem_append_left _ (List.mem_append_right _ ?_))
  exact List.mem_filterMap.2 ⟨o, ho, hx⟩

end Instruction

/-- Labels and symbols that an action names. -/
def Op.symbols : Op → List Id
  | .li (.symbol s) => [s]
  | .liToT2 (.symbol s) => [s]
  | .label name _ => [name]
  | .compare _ _ _ pass => pass.toList
  | .jumpToFail address => address.toList
  | _ => []

/-- Ids that an action holds: in its fields, or set by its expansion. A code page is its own
label. -/
def Action.held : Action → List Id
  | .simple _ _ op => op.ids ++ op.symbols
  | .block id _ (.codePage _) _ => [id]
  | .block _ _ (.assertException _ fault resume) _ => fault.toList ++ resume.toList

variable {context : Context} {state state' : State} {action : String} {i i' : Instruction}
variable {reads held held' : List Id} {ids ids' : FreshIds} {id : Id} {slot : Slot}
  {value : OperandValue}
variable {t : Template} {op : Op}

/-- What is wired so far comes from the ids that are held, in registers from those that are read, and
each id that was made up meanwhile is wired once at most. The destination is left open or is a fixed
register. -/
structure Instruction.Fed (reads held : List Id) (ids ids' : FreshIds) (i : Instruction) : Prop where
  sources : ∃ new, ids.Adds ids' new ∧ (∀ x ∉ held, i.sourceIds.count x ≤ new.count x) ∧
    ∀ o ∈ i.sources, ∀ x, o.value = .virtual x → x ∈ reads ∨ x ∈ new
  target : ∀ o ∈ i.destination, o.type.isRegister ∧ (o.value = .unset ∨ ∃ r, o.value = .reg r)
  form : ∀ x ∈ i.formIds, x ∈ held

namespace Instruction

theorem count_setFirst {p : Operand → Bool} {ops ops' : List Operand}
    (h : setFirst p value ops = some ops') : ∃ o, p o ∧ ∀ x,
      (ops'.filterMap Operand.id?).count x ≤
        (ops.filterMap Operand.id?).count x + (value.id? o.slot).toList.count x := by
  obtain ⟨front, o, back, rfl, _, ho, rfl⟩ := setFirst_eq_some h
  refine ⟨o, ho, fun x => ?_⟩
  have hid : Operand.id? { o with value } = value.id? o.slot := rfl
  simp only [List.filterMap_append, List.filterMap_cons, hid, List.count_append]
  cases value.id? o.slot <;> cases o.id? <;> simp [List.count_cons] <;> omega

namespace Fed

theorem instruction (t : Template) (reads held : List Id) (ids : FreshIds) :
    t.instruction.Fed reads held ids ids := by
  refine ⟨⟨[], .refl ids, fun x _ => ?_, ?_⟩, ?_, by simp [formIds, Template.instruction]⟩
  · have hnone : t.instruction.sourceIds = [] := by
      simp [sourceIds, Template.instruction, Operand.id?, OperandValue.id?]
    simp [hnone]
  · intro o ho x hx
    obtain ⟨field, _, rfl⟩ := List.mem_map.1 ho
    cases hx
  · intro o ho
    obtain ⟨file, _, rfl⟩ := Option.map_eq_some_iff.1 ho
    exact ⟨rfl, .inl rfl⟩

theorem set {p : Operand → Bool} {sources : List Operand} (h : i.Fed reads held ids ids')
    (hset : setFirst p value i.sources = some sources)
    (hvalue : ∀ o, p o → value.From reads held o.slot) :
    Fed reads held ids ids' { i with sources } := by
  obtain ⟨new, hnew, hcount, hvirtual⟩ := h.sources
  obtain ⟨o, ho, hadded⟩ := count_setFirst hset
  refine ⟨⟨new, hnew, fun x hx => ?_, ?_⟩, h.target, h.form⟩
  · have hnone : (value.id? o.slot).toList.count x = 0 :=
      List.count_eq_zero.2 fun hmem => hx ((hvalue o ho).held (Option.mem_toList.1 hmem))
    refine (hadded x).trans ?_
    rw [hnone, Nat.add_zero]
    exact hcount x hx
  · refine forall_setFirst hset hvirtual fun o _ ho x hx => .inl ?_
    have hfrom := hvalue o ho
    rw [show value = .virtual x from hx] at hfrom
    exact hfrom.1

theorem withSource (h : i.Fed reads held ids state.ids)
    (hrun : Lower.withSource i slot value action context state = .ok i' state')
    (hvalue : value.From reads held slot) : i'.Fed reads held ids state'.ids := by
  obtain ⟨hset, rfl⟩ := Lower.ofExcept_ok.1 hrun
  obtain ⟨sources, hsources, rfl⟩ := setSource_ok.1 hset
  refine h.set hsources fun o ho => ?_
  rwa [of_decide_eq_true ho]

theorem withFresh {next : State} (h : i.Fed reads held ids state.ids)
    (hid : Lower.freshValue context state = .ok id next)
    (hrun : Lower.withSource i slot (.virtual id) action context next = .ok i' state') :
    i'.Fed reads held ids state'.ids := by
  obtain ⟨rfl, rfl⟩ := Lower.fresh_ok.1 hid
  obtain ⟨hset, rfl⟩ := Lower.ofExcept_ok.1 hrun
  obtain ⟨sources, hsources, rfl⟩ := setSource_ok.1 hset
  obtain ⟨new, hnew, hcount, hvirtual⟩ := h.sources
  obtain ⟨o, _, hadded⟩ := count_setFirst hsources
  refine ⟨⟨_, hnew.append (.next .value state.ids), fun x hx => ?_, ?_⟩, h.target, h.form⟩
  · have hone : (OperandValue.virtual (FreshIds.value state.ids).1).id? o.slot =
        some (FreshIds.value state.ids).1 := rfl
    refine (hadded x).trans ?_
    rw [hone, List.count_append]
    exact Nat.add_le_add_right (hcount x hx) _
  · refine forall_setFirst hsources (fun o ho x hx => ?_) fun o _ _ x hx => .inr ?_
    · exact (hvirtual o ho x hx).imp_right (List.mem_append_left _)
    · obtain rfl := OperandValue.virtual.inj hx
      exact List.mem_append_right _ (List.mem_singleton_self _)

theorem withImmediate (h : i.Fed reads held ids state.ids)
    (hrun : Lower.withImmediate i value action context state = .ok i' state')
    (hvalue : ∀ slot, value.From reads held slot) : i'.Fed reads held ids state'.ids := by
  obtain ⟨hset, rfl⟩ := Lower.ofExcept_ok.1 hrun
  obtain ⟨sources, hsources, rfl⟩ := setImmediate_ok.1 hset
  exact h.set hsources fun o _ => hvalue o.slot

theorem withDestination {r : Register} (h : i.Fed reads held ids state.ids)
    (hrun : Lower.withDestination i (.reg r) action context state = .ok i' state') :
    i'.Fed reads held ids state'.ids := by
  obtain ⟨hset, rfl⟩ := Lower.ofExcept_ok.1 hrun
  obtain ⟨o, ho, rfl⟩ := setDestination_ok.1 hset
  refine ⟨h.sources, fun o' ho' => ?_, h.form⟩
  obtain rfl := Option.some.inj ho'
  exact ⟨(h.target o ho).1, .inr ⟨r, rfl⟩⟩

theorem mono (h : i.Fed reads held ids ids') (hsub : ∀ x ∈ held, x ∈ held') :
    i.Fed reads held' ids ids' := by
  obtain ⟨new, hnew, hcount, hvirtual⟩ := h.sources
  exact ⟨⟨new, hnew, fun x hx => hcount x fun hheld => hx (hsub x hheld), hvirtual⟩, h.target,
    fun x hx => hsub x (h.form x hx)⟩

theorem clobber (h : i.Fed reads held ids ids') (clobbers : List Register) :
    Fed reads held ids ids' { i with clobbers } := ⟨h.sources, h.target, h.form⟩

theorem made (hsources : ∀ o ∈ i.sources, o.value.From reads held o.slot)
    (hform : ∀ x ∈ i.formIds, x ∈ held)
    (htarget : ∀ o ∈ i.destination, o.type.isRegister ∧ ∃ r, o.value = .reg r) :
    i.Fed reads held ids ids := by
  refine ⟨⟨[], .refl ids, fun x hx => ?_, fun o ho x hx => .inl ?_⟩,
    fun o ho => (htarget o ho).imp_right .inr, hform⟩
  · rw [List.count_eq_zero.2 ?_]
    · exact Nat.zero_le _
    · intro hmem
      obtain ⟨o, ho, hid⟩ := List.mem_filterMap.1 hmem
      exact hx ((hsources o ho).held hid)
  · have hfrom := hsources o ho
    rw [hx] at hfrom
    exact hfrom.1

theorem label {name : String} (hname : name ∈ held) (id : Id) (pointer : Bool) (reads : List Id)
    (ids : FreshIds) : (Instruction.label id name pointer).Fed reads held ids ids :=
  made (by simp [Instruction.label]) (by simp [Instruction.label, formIds, hname])
    (by simp [Instruction.label])

theorem comment (id : Id) (text : String) (reads held : List Id) (ids : FreshIds) :
    (Instruction.comment id text).Fed reads held ids ids :=
  made (by simp [Instruction.comment]) (by simp [Instruction.comment, formIds])
    (by simp [Instruction.comment])

theorem csrDirective (csr : String) (access : CsrAccess) (direct : Bool) (reads held : List Id)
    (ids : FreshIds) : (Instruction.csrDirective csr access direct).Fed reads held ids ids := by
  cases access <;> exact made
    (by simp [Instruction.csrDirective, OperandValue.From])
    (by simp [Instruction.csrDirective, formIds])
    (by simp [Instruction.csrDirective, OperandType.isRegister, OperandType.file?])

theorem pteDirective {page : PteTarget} (hpage : page.memory ∈ held) (write : Bool)
    (paging : Paging) (reads : List Id) (ids : FreshIds) :
    (page.directive write paging).Fed reads held ids ids := by
  cases write <;> exact made
    (by simp [PteTarget.directive, OperandValue.From])
    (by simp [PteTarget.directive, formIds, hpage])
    (by simp [PteTarget.directive, OperandType.isRegister, OperandType.file?])

end Fed

end Instruction

open Instruction (Fed)

theorem Lower.instruction_fed {name : String} (reads held : List Id)
    (h : Lower.instruction name context state = .ok i state') :
    i.Fed reads held state.ids state'.ids := by
  obtain ⟨hi, rfl⟩ := Lower.instruction_ok.1 h
  obtain ⟨t, _, rfl⟩ := Catalog.instruction_ok.1 hi
  exact .instruction t reads held _

namespace Arithmetic

theorem wireSource_fed {src : Option Id} (h : i.Fed reads held ids state.ids)
    (hrun : wireSource slot src action i context state = .ok i' state')
    (hsrc : ∀ x ∈ src, x ∈ reads ∧ x ∈ held) : i'.Fed reads held ids state'.ids := by
  rcases wireSource_ok hrun with ⟨id, hid, hrun⟩ | ⟨id, next, hid, hrun⟩ | ⟨_, rfl, rfl⟩
  · exact h.withSource hrun (hsrc id hid)
  · exact h.withFresh hid hrun
  · exact h

theorem wireImmediate_fed {imm : Option Int} (h : i.Fed reads held ids state.ids)
    (hrun : wireImmediate imm action i context state = .ok i' state') :
    i'.Fed reads held ids state'.ids := by
  rcases wireImmediate_ok hrun with ⟨v, random, hrun⟩ | ⟨_, rfl, rfl⟩
  · have hdrawn : i.Fed reads held ids ({ state with random } : State).ids := h
    exact hdrawn.withImmediate hrun fun _ => trivial
  · exact h

theorem select_fed {a : Arithmetic} (h : a.select action context state = .ok i state') :
    i.Fed (Op.arithmetic a).reads (Op.arithmetic a).ids state.ids state'.ids := by
  simp only [select, Lower.bind_ok] at h
  obtain ⟨i₀, s₀, h₀, i₁, _, h₁, i₂, _, h₂, i₃, _, h₃, h₄⟩ := h
  have hstart : i₀.Fed (Op.arithmetic a).reads (Op.arithmetic a).ids state.ids s₀.ids := by
    obtain ⟨t, rfl, hids, _⟩ := template_chosen h₀
    exact hids ▸ .instruction t _ _ _
  have hfed := wireSource_fed hstart h₁ fun x hx => by simp [Op.reads, Op.ids, Option.mem_def.1 hx]
  have hfed := wireSource_fed hfed h₂ fun x hx => by simp [Op.reads, Op.ids, Option.mem_def.1 hx]
  exact wireSource_fed (wireImmediate_fed hfed h₃) h₄ (by simp)

end Arithmetic

namespace Access

variable {a : Access}

theorem template_fed {filter : TemplateFilter} {skip : List String} (reads held : List Id)
    (h : a.template filter skip context state = .ok i state') :
    i.Fed reads held state.ids state'.ids := by
  obtain ⟨t, rfl, hids, _⟩ := template_chosen h
  exact hids ▸ .instruction t reads held _

theorem wire_fed (h : i.Fed reads held ids state.ids) (hbase : ∀ x ∈ a.base, x ∈ reads ∧ x ∈ held)
    (hrun : a.wire action i context state = .ok i' state') : i'.Fed reads held ids state'.ids := by
  obtain ⟨j, base, hsome, hwired, hrun⟩ := wire_ok hrun
  have hj : j.Fed reads held ids state.ids := by
    rcases hwired with hwired | ⟨_, rfl⟩
    · exact h.withImmediate hwired fun _ => trivial
    · exact h
  exact hj.withSource hrun (hbase base hsome)

theorem selectLoad_fed (h : a.selectLoad action context state = .ok i state') :
    i.Fed (Op.load a).reads (Op.load a).ids state.ids state'.ids := by
  obtain ⟨i₀, _, h₀, hwire⟩ := Lower.bind_ok.1 h
  exact wire_fed (template_fed _ _ h₀)
    (fun x hx => by simp [Op.reads, Op.ids, Access.ids, Option.mem_def.1 hx]) hwire

theorem selectStore_fed {stored : Option Id}
    (h : a.selectStore stored action context state = .ok i state') :
    i.Fed (Op.store a stored).reads (Op.store a stored).ids state.ids state'.ids := by
  obtain ⟨i₀, _, i₁, _, h₀, hwire, hlast⟩ := selectStore_ok h
  have hfed := wire_fed (template_fed (Op.store a stored).reads (Op.store a stored).ids h₀)
    (fun x hx => by simp [Op.reads, Op.ids, Access.ids, Option.mem_def.1 hx]) hwire
  rcases hlast with ⟨id, hid, hrun⟩ | ⟨id, next, hid, hrun⟩
  · exact hfed.withSource hrun
      (by simp [OperandValue.From, Op.reads, Op.ids, Option.mem_def.1 hid])
  · exact hfed.withFresh hid hrun

end Access

theorem CsrWrite.select_fed {w : CsrWrite} (h : w.select action context state = .ok i state') :
    i.Fed (Op.csrWrite w).reads (Op.csrWrite w).ids state.ids state'.ids := by
  rcases select_ok h with ⟨_, rfl, rfl⟩ |
    ⟨_, i₀, i₁, hcsr, ⟨v, h₀, himm⟩ | ⟨src, hsrc, h₀, hrs1⟩⟩
  · exact .csrDirective _ _ _ _ _ _
  · have hfed := (Lower.instruction_fed (Op.csrWrite w).reads (Op.csrWrite w).ids h₀).withSource
      hcsr (.inl rfl)
    exact hfed.withImmediate himm fun _ => trivial
  · have hfed := (Lower.instruction_fed (Op.csrWrite w).reads (Op.csrWrite w).ids h₀).withSource
      hcsr (.inl rfl)
    exact hfed.withSource hrs1
      (by simp [OperandValue.From, Op.reads, Op.ids, Option.mem_def.1 hsrc])

namespace Op

theorem selectLi_fed {v : Immediate} (h : selectLi v action context state = .ok i state') :
    i.Fed [] (Op.li v).symbols state.ids state'.ids := by
  obtain ⟨rfl, i₀, h₀, himm⟩ := selectLi_ok h
  refine (Lower.instruction_fed _ _ h₀).withImmediate himm ?_
  cases v <;> simp [Immediate.operand, OperandValue.From, symbols]

theorem select_fed (h : op.select id action context state = .ok i state') :
    i.Fed op.reads (op.ids ++ op.symbols) state.ids state'.ids := by
  have hids : ∀ x ∈ op.ids, x ∈ op.ids ++ op.symbols := fun x => List.mem_append_left _
  have hsymbols : ∀ x ∈ op.symbols, x ∈ op.ids ++ op.symbols := fun x => List.mem_append_right _
  cases select_ok h with
  | arithmetic hrun => exact (Arithmetic.select_fed hrun).mono hids
  | load hrun => exact (Access.selectLoad_fed hrun).mono hids
  | store hrun => exact (Access.selectStore_fed hrun).mono hids
  | csrWrite hrun => exact (CsrWrite.select_fed hrun).mono hids
  | li hrun => exact (selectLi_fed hrun).mono hsymbols
  | @liToT2 v _ _ h₀ ht2 =>
    have hsame : (li v).symbols = (liToT2 v).symbols := by cases v <;> rfl
    have hfed := (selectLi_fed h₀).withDestination ht2
    exact (hfed.mono (hsame ▸ hsymbols)).clobber _
  | @moveToT2 src _ _ _ h₀ ht2 hsrc =>
    have hfed := (Lower.instruction_fed (moveToT2 src).reads (moveToT2 src).ids h₀).withDestination
      ht2
    have hfed := hfed.withSource hsrc (by simp [OperandValue.From, reads, ids])
    exact (hfed.mono hids).clobber _
  | moveFromT2 h₀ hsource => exact (Lower.instruction_fed _ _ h₀).withSource hsource trivial
  | csrRead _ h₀ hsource => exact (Lower.instruction_fed _ _ h₀).withSource hsource (.inl rfl)
  | @call target base _ _ _ _ h₀ hra hbase himm =>
    have hfed := (Lower.instruction_fed (call target (some base)).reads
      (call target (some base)).ids h₀).withDestination hra
    have hfed := hfed.withSource hbase (by simp [OperandValue.From, reads, ids])
    have hfed := (hfed.withImmediate himm fun _ => trivial).mono hids
    exact ⟨hfed.sources, hfed.target, by simp [Instruction.formIds, ids]⟩
  | @compare relation lhs rhs pass _ _ _ _ h₀ hlhs hrhs hoffset =>
    have hfed := Lower.instruction_fed (compare relation lhs rhs (some pass)).reads
      ((compare relation lhs rhs (some pass)).ids ++
        (compare relation lhs rhs (some pass)).symbols) h₀
    have hfed := hfed.withSource hlhs (by simp [OperandValue.From, reads, ids])
    have hfed := hfed.withSource hrhs (by simp [OperandValue.From, reads, ids])
    exact hfed.withSource hoffset (by simp [OperandValue.From, symbols])
  | @jumpToFail target _ _ h₀ hrs1 =>
    have hfed := Lower.instruction_fed (jumpToFail (some target)).reads
      (jumpToFail (some target)).symbols h₀
    exact (hfed.withSource hrs1 (by simp [OperandValue.From, reads, symbols])).mono hsymbols
  | csrDirective => exact .csrDirective _ _ _ _ _ _
  | readPte | writePte => exact .pteDirective (by simp [ids, PteTarget.ids]) _ _ _ _
  | label => exact .label (by simp [symbols]) _ _ _ _
  | comment => exact .comment _ _ _ _ _
  | ret hrun | system hrun => exact Lower.instruction_fed _ _ hrun

end Op

theorem Block.SelectsTo.fed {owner : Block} {expanded : Bool} {code : List Action}
    (h : owner.SelectsTo id i) : i.Fed [] (Action.block id expanded owner code).held ids ids := by
  cases h with
  | codePage => exact .label (by simp [Action.held]) _ _ _ _
  | assertException =>
    refine .made ?_ (by simp [ExceptionCause.directive, Instruction.formIds])
      (by simp [ExceptionCause.directive])
    simp [ExceptionCause.directive, OperandValue.From, Action.held]

namespace Action

variable {a : Action} {new new' : List Id} {actions : List Action} {code : List Instruction}

/-- What an action comes to: an instruction under its id that defines no other value and reads what
the action reads or ids that were made up. All its ids are known but those made up, and each of them
is there once at most. -/
structure Elaborates (new : List Id) (a : Action) (i : Instruction) : Prop where
  id : i.id = a.id
  target : ∀ o ∈ i.destination, o.type.isRegister ∧
    ((∃ r, o.value = .reg r) ∨ o.value = .virtual i.id)
  sources : ∀ o ∈ i.sources, ∀ x, o.value = .virtual x → x ∈ a.reads ∨ x ∈ new
  mentions : ∀ x ∉ a.id :: a.held, i.mentions.count x ≤ new.count x

theorem Elaborates.mono (h : Elaborates new a i) (hsub : new.Sublist new') :
    Elaborates new' a i where
  id := h.id
  target := h.target
  sources o ho x hx := (h.sources o ho x hx).imp_right fun hnew => hsub.subset hnew
  mentions x hx := (h.mentions x hx).trans (hsub.count_le x)

theorem openDestination_target (h : i.Fed reads held ids ids') {o : Operand}
    (ho : o ∈ (openDestination id { i with id }).destination) :
    o.type.isRegister ∧ ((∃ r, o.value = .reg r) ∨ o.value = .virtual id) := by
  obtain ⟨o, hdest, rfl⟩ := Option.map_eq_some_iff.1 ho
  obtain ⟨htype, hvalue⟩ := h.target o hdest
  split
  next => exact ⟨htype, .inr rfl⟩
  next hclosed => exact ⟨htype, .inl (hvalue.resolve_left fun hunset => hclosed ⟨htype, hunset⟩)⟩

theorem elaborates_of_fed (h : i.Fed a.reads a.held ids ids') : ∃ new, ids.Adds ids' new ∧
    Elaborates new a (openDestination a.id { i with id := a.id }) := by
  obtain ⟨new, hnew, hcount, hvirtual⟩ := h.sources
  refine ⟨new, hnew, rfl, fun o ho => openDestination_target h ho, hvirtual, fun x hx => ?_⟩
  rw [List.mem_cons, not_or] at hx
  have htarget : x ∉ ((openDestination a.id { i with id := a.id }).destination.bind
      Operand.id?).toList := by
    intro hmem
    obtain ⟨o, ho, hid⟩ := Option.bind_eq_some_iff.1 (Option.mem_toList.1 hmem)
    rcases (openDestination_target h ho).2 with ⟨r, hvalue⟩ | hvalue
    all_goals
      rw [Operand.id?, hvalue] at hid
      cases hid
    exact hx.1 rfl
  have hform : x ∉ i.formIds := fun hmem => hx.2 (h.form x hmem)
  have hmentions : (openDestination a.id { i with id := a.id }).mentions =
      a.id :: (((openDestination a.id { i with id := a.id }).destination.bind
        Operand.id?).toList ++ i.sourceIds ++ i.formIds) := rfl
  rw [hmentions, List.count_cons_of_ne (Ne.symm hx.1), List.count_append, List.count_append,
    List.count_eq_zero.2 htarget, List.count_eq_zero.2 hform, Nat.zero_add, Nat.add_zero]
  exact hcount x hx.2

theorem select_elaborates (h : a.select context state = .ok i state') :
    ∃ new, state.ids.Adds state'.ids new ∧ Elaborates new a (openDestination a.id i) := by
  cases a with
  | simple id expanded op =>
    obtain ⟨j, hj, rfl⟩ := select_simple_ok h
    exact elaborates_of_fed (Op.select_fed hj)
  | block id expanded owner nested =>
    obtain ⟨j, hj, rfl, rfl⟩ := select_block_ok h
    exact elaborates_of_fed hj.fed

/-- The ids that are made up along the list are distinct, and each is in the code once at most. -/
theorem selectAll_elaborates (h : selectAll actions context state = .ok code state') :
    ∃ new, state.ids.Adds state'.ids new ∧ List.Forall₂ (Elaborates new) actions code ∧
      ∀ x, (∀ a ∈ actions, x ∉ a.id :: a.held) →
        (code.flatMap Instruction.mentions).count x ≤ new.count x := by
  induction actions generalizing state code with
  | nil =>
    obtain ⟨rfl, rfl⟩ := selectAll_nil_ok h
    exact ⟨[], .refl _, .nil, by simp⟩
  | cons a rest ih =>
    obtain ⟨i, next, more, hi, hmore, rfl⟩ := selectAll_cons_ok h
    obtain ⟨new, hnew, hfirst⟩ := select_elaborates hi
    obtain ⟨later, hlater, hrest, hcount⟩ := ih hmore
    refine ⟨new ++ later, hnew.append hlater, ?_, fun x hx => ?_⟩
    · exact .cons (hfirst.mono (List.sublist_append_left _ _))
        (hrest.imp fun _ _ h => h.mono (List.sublist_append_right _ _))
    · obtain ⟨hown, hothers⟩ := List.forall_mem_cons.1 hx
      rw [List.flatMap_cons, List.count_append, List.count_append]
      exact Nat.add_le_add (hfirst.mentions x hown) (hcount x hothers)

theorem virtualDestinations_sublist (h : ∀ i ∈ code, ∀ o ∈ i.destination,
    (∃ r, o.value = .reg r) ∨ o.value = .virtual i.id) :
    (code.filterMap Instruction.virtualDestination?).Sublist (code.map Instruction.id) := by
  induction code with
  | nil => exact .slnil
  | cons i rest ih =>
    obtain ⟨hfirst, hrest⟩ := List.forall_mem_cons.1 h
    cases hvirtual : i.virtualDestination? with
    | none =>
      rw [List.filterMap_cons_none hvirtual]
      exact (ih hrest).cons _
    | some x =>
      obtain ⟨o, ho, hx⟩ := Option.bind_eq_some_iff.1 hvirtual
      have hvalue := Operand.value_of_virtual hx
      have hown : x = i.id := by
        rcases hfirst o ho with ⟨r, hreg⟩ | hown
        · rw [hvalue] at hreg
          cases hreg
        · rw [hvalue] at hown
          exact OperandValue.virtual.inj hown
      rw [List.filterMap_cons_some hvirtual, List.map_cons, hown]
      exact (ih hrest).cons_cons _

/-- Selection is one to one and defines each id once. Whatever the catalog gives, an instruction has
the id of its action, defines at most the value of this id, and reads what the action reads or new
ids, each of which is in the code nowhere else. -/
theorem selectAll_single_definitions
    (hsettled : ∀ a ∈ actions, ∀ x ∈ a.id :: a.held, state.ids.Settled x)
    (h : selectAll actions context state = .ok code state') :
    code.map Instruction.id = actions.map Action.id ∧
      (∀ i ∈ code, ∀ o ∈ i.destination, o.type.isRegister ∧
        ((∃ r, o.value = .reg r) ∨ o.value = .virtual i.id)) ∧
      ((actions.map Action.id).Nodup →
        (code.filterMap Instruction.virtualDestination?).Nodup) ∧
      List.Forall₂ (fun a i => ∀ o ∈ i.sources, ∀ x, o.value = .virtual x → x ∈ a.reads ∨
        (¬ state.ids.Given x ∧ state'.ids.Given x ∧
          (code.flatMap Instruction.mentions).count x = 1)) actions code := by
  obtain ⟨new, hnew, hall, hcount⟩ := selectAll_elaborates h
  have hids : code.map Instruction.id = actions.map Action.id := by
    refine List.forall₂_eq_eq_eq ▸ List.forall₂_map_left_iff.2 (List.forall₂_map_right_iff.2 ?_)
    exact hall.flip.imp fun _ _ hone => hone.id
  have htargets : ∀ i ∈ code, ∀ o ∈ i.destination, o.type.isRegister ∧
      ((∃ r, o.value = .reg r) ∨ o.value = .virtual i.id) := by
    intro i hi
    obtain ⟨a, _, hone⟩ := exists_of_forall₂ hall hi
    exact hone.target
  -- A settled id that is given in the end was given before, and so none of the new ones.
  have hforeign : ∀ x ∈ new, ∀ a ∈ actions, x ∉ a.id :: a.held := fun x hx a ha hmem =>
    hnew.fresh x hx ((hsettled a ha x hmem).given (hnew.given x hx))
  refine ⟨hids, htargets, fun hnodup => ?_, ?_⟩
  · exact (hids ▸ hnodup).sublist
      (virtualDestinations_sublist fun i hi o ho => (htargets i hi o ho).2)
  · refine List.forall₂_iff_zip.2 ⟨hall.length_eq, fun hpair o ho x hx => ?_⟩
    obtain ⟨_, hi⟩ := List.of_mem_zip hpair
    refine (((List.forall₂_iff_zip.1 hall).2 hpair).sources o ho x hx).imp_right fun hmem => ?_
    refine ⟨hnew.fresh x hmem, hnew.given x hmem, le_antisymm ?_ ?_⟩
    · exact (hcount x (hforeign x hmem)).trans (List.nodup_iff_count_le_one.1 hnew.nodup x)
    · refine List.count_pos_iff.2 (List.mem_flatMap.2 ⟨_, hi, Instruction.mem_mentions ho ?_⟩)
      rw [Operand.id?, hx]
      rfl

/-- A sum and a store that are each given one input only, and a comparison of what they read. -/
def sharedBase : List Action :=
  [.li "base" (.value 4096),
   .new "sum" (.arithmetic { op := some "add", src1 := some "base" }),
   .new "kept" (.store { offset := 8, memory := none, base := some "base", op := some "sw" } none),
   .new "check" (.compare .equal "base" "sum" (some "pass"))]

theorem sharedBase_single_definitions : ∃ code s',
    selectAll sharedBase (standardContext .rv64) zeroState = .ok code s' ∧
    code.map Instruction.id = ["base", "sum", "kept", "check"] ∧
    (code.filterMap Instruction.virtualDestination?).Nodup ∧
    List.Forall₂ (fun a i => ∀ o ∈ i.sources, ∀ x, o.value = .virtual x → x ∈ a.reads ∨
      (¬ zeroState.ids.Given x ∧ s'.ids.Given x ∧
        (code.flatMap Instruction.mentions).count x = 1)) sharedBase code := by
  have hok : ((selectAll sharedBase).result? (standardContext .rv64) zeroState).isSome := by
    decide +kernel
  obtain ⟨code, hcode⟩ := Option.isSome_iff_exists.1 hok
  obtain ⟨s', hrun⟩ := Lower.result?_eq_some.1 hcode
  have hletters : ∀ a ∈ sharedBase, ∀ x ∈ a.id :: a.held,
      x.toList.getLast?.any (!·.isDigit) := by decide
  have hsettled : ∀ a ∈ sharedBase, ∀ x ∈ a.id :: a.held, zeroState.ids.Settled x := by
    intro a ha x hx
    obtain ⟨last, hlast, hdigit⟩ := (Option.any_eq_true _ _).1 (hletters a ha x hx)
    obtain ⟨front, hfront⟩ := List.getLast?_eq_some_iff.1 hlast
    exact FreshIds.settled_of_not_spelled _ (FreshIds.not_spelled hfront (by simpa using hdigit))
  obtain ⟨hids, _, hnodup, hsources⟩ := selectAll_single_definitions hsettled hrun
  exact ⟨code, s', hrun, hids, hnodup (by decide), hsources⟩

end Action

end PlanLowering
