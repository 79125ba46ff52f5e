import PlanLowering.Proofs.Pins
import PlanLowering.Proofs.SelectionSteps

/-!
# Selected instructions

What selection leaves open. Opcodes that it names or draws come out with every source wired. An
opcode pinned by the plan is wired like one of its step's kind, whatever its template asks for.
-/

namespace PlanLowering

abbrev Instruction.Settles (t : Template) (slots : List Slot) (i : Instruction) : Prop :=
  i.Wired Operand.isSettled t slots

variable {context : Context} {state state' : State} {t : Template} {i i' : Instruction}
variable {slot : Slot} {slots : List Slot} {id : Id} {action name : String}

theorem settles_instruction : t.instruction.Settles t [] :=
  Instruction.wired_instruction fun _ => Operand.not_isSettled_of_unset

theorem openDestination_of_closed
    (h : ∀ op, i.destination = some op → op.value ≠ .unset) : Action.openDestination id i = i := by
  have hsame : i.destination.map (fun op =>
      if op.type.isRegister ∧ op.value = .unset then { op with value := .virtual id } else op) =
      i.destination := by
    cases hdest : i.destination with
    | none => rfl
    | some op => simp [h op hdest]
  rw [Action.openDestination, hsame]

theorem settled_openDestination (h : i.Settles t slots) (ht : t.Typed) :
    (Action.openDestination id i).isSettled ↔ t.slots ⊆ .rd :: slots := by
  have hwired : (Action.openDestination id i).Settles t (.rd :: slots) := by
    cases hdest : i.destination with
    | none =>
      have hopen : Action.openDestination id i = i :=
        openDestination_of_closed (by simp [hdest])
      have hnone := h.destination
      rw [hdest, Option.map_none, eq_comm, Option.map_eq_none_iff] at hnone
      rw [hopen]
      refine h.absent ?_
      intro hrd
      simp only [Template.slots, Template.fields, hnone, Option.map_none, Option.toList_none,
        List.nil_append, List.mem_map] at hrd
      obtain ⟨source, hsource, hslot⟩ := hrd
      have hadmits := ht source hsource
      rw [hslot] at hadmits
      cases hadmits
    | some op =>
      obtain ⟨hslot, htype⟩ := h.target hdest
      have hops : i.operands = [] ++ op :: i.sources := by simp [Instruction.operands, hdest]
      rw [← hslot]
      by_cases hunset : op.value = .unset
      · have hopen : (Action.openDestination id i).destination =
            some { op with value := .virtual id } := by
          simp [Action.openDestination, hdest, htype, hunset]
        have hsettled : Operand.isSettled { op with value := .virtual id } :=
          Operand.isSettled_of_register htype (by simp)
        refine h.replace ht rfl (by simp [hopen, hdest]) hops ?_ hsettled
        rw [Instruction.operands, hopen]
        rfl
      · have hopen : Action.openDestination id i = i :=
          openDestination_of_closed (by simpa [hdest] using hunset)
        have hsettled : Operand.isSettled { op with value := op.value } :=
          Operand.isSettled_of_register htype hunset
        rw [hopen]
        exact h.replace ht rfl rfl hops hops hsettled
  rw [Instruction.isSettled_iff, hwired.good_iff]

theorem openDestination_of_allocated (h : i.isAllocated) :
    (Action.openDestination id i).isSettled := by
  have hopen : Action.openDestination id i = i := by
    apply openDestination_of_closed
    intro op hdest hunset
    have hconcrete := Instruction.isAllocated_iff.1 h op (by simp [Instruction.operands, hdest])
    rw [Operand.not_isConcrete_of_unset hunset] at hconcrete
    cases hconcrete
  rw [hopen]
  exact Instruction.isSettled_of_allocated h

section Wiring

theorem settles_withSource (h : i.Settles t slots) (ht : t.Typed) (hslot : slot ∈ Slot.registers)
    (hset : Lower.withSource i slot (.virtual id) action context state = .ok i' state') :
    i'.Settles t (slot :: slots) := by
  rw [Lower.withSource, Lower.ofExcept_ok] at hset
  refine h.setSource ht hset.1 fun op hadmits => ?_
  exact Operand.isSettled_of_register (Slot.isRegister_of_admits hslot hadmits) (by simp)

theorem Arithmetic.settles_wireSource {src : Option Id} (h : i.Settles t slots) (ht : t.Typed)
    (hslot : slot ∈ Slot.registers)
    (hrun : wireSource slot src action i context state = .ok i' state') :
    i'.Settles t (slot :: slots) := by
  rcases wireSource_ok hrun with ⟨_, _, hrun⟩ | ⟨_, _, _, hrun⟩ | ⟨hsource, rfl, _⟩
  · exact settles_withSource h ht hslot hrun
  · exact settles_withSource h ht hslot hrun
  · refine h.absent fun hmem => ?_
    have hrd : slot ≠ .rd := by
      rintro rfl
      simp [Slot.registers] at hslot
    obtain ⟨op, hop, rfl⟩ := h.source_slot hrd hmem
    simpa using List.find?_eq_none.1 hsource op hop

theorem absent_immediate (h : i.Settles t slots) (ht : t.Typed) (himm : i.hasImmediate = false) :
    i.Settles t (.imm :: slots) := by
  refine h.absent fun hmem => ?_
  obtain ⟨op, hop, hslot⟩ := h.source_slot (by simp) hmem
  have hadmits := h.admits ht hop
  have htype := List.any_eq_false.1 himm op hop
  rw [hslot] at hadmits
  revert hadmits htype
  cases op.type <;> simp [Slot.admits]

theorem settles_withImmediate {v : Int} (h : i.Settles t slots) (ht : t.Typed)
    (hset : Lower.withImmediate i (.imm v) action context state = .ok i' state') :
    i'.Settles t (.imm :: slots) := by
  rw [Lower.withImmediate, Lower.ofExcept_ok] at hset
  exact h.setImmediate ht hset.1 fun _ => rfl

theorem Arithmetic.settles_wireImmediate {imm : Option Int} (h : i.Settles t slots)
    (ht : t.Typed) (hrun : wireImmediate imm action i context state = .ok i' state') :
    i'.Settles t (.imm :: slots) := by
  rcases wireImmediate_ok hrun with ⟨_, _, hrun⟩ | ⟨himm, rfl, _⟩
  · exact settles_withImmediate h ht hrun
  · exact absent_immediate h ht himm

theorem Access.settles_wire {a : Access} (h : i.Settles t slots) (ht : t.Typed)
    (hrun : a.wire action i context state = .ok i' state') :
    i'.Settles t (.rs1 :: .imm :: slots) := by
  obtain ⟨j, base, _, hwired, hrun⟩ := wire_ok hrun
  refine settles_withSource ?_ ht (by simp [Slot.registers]) hrun
  rcases hwired with hwired | ⟨himm, rfl⟩
  · exact settles_withImmediate h ht hwired
  · exact absent_immediate h ht himm

end Wiring

theorem compare_named (relation : Relation) :
    ((match relation with | .equal => "beq" | .different => "bne"), [.rs1, .rs2, .offset]) ∈
      Catalog.namedOpcodes := by
  cases relation <;> simp [Catalog.namedOpcodes]

section Select

variable (hcomplete : context.catalog.Complete)

include hcomplete

theorem Arithmetic.template_ok {a : Arithmetic} (h : a.template context state = .ok i state') :
    ∃ t : Template, t.Typed ∧ t.instruction = i ∧ (t.slots ⊆ Category.arithmetic.wired ↔
      ∀ pin ∈ (Op.arithmetic a).pin?, pin.fits context.catalog) := by
  obtain ⟨t, rfl, _, hfind | ⟨hfind, ht⟩⟩ := template_chosen h
  · obtain ⟨opcode, hop, htemplate⟩ := Option.bind_eq_some_iff.1 hfind
    have hfits : Pin.fits ⟨opcode, .arithmetic⟩ context.catalog ↔
        t.slots ⊆ Category.arithmetic.wired := Pin.fits_iff htemplate
    exact ⟨t, hcomplete.typed_of_find? htemplate, rfl, by simp [Op.pin?, hop, hfits]⟩
  · have hfilter : a.filter.category = some .arithmetic := rfl
    obtain ⟨hmem, hcategory⟩ := Catalog.mem_filter_category hfilter ht
    have hdrawn := hcomplete.drawn t hmem (by simp [hcategory, Category.drawn])
    rw [hcategory] at hdrawn
    refine ⟨t, hcomplete.typed t hmem, rfl, iff_of_true hdrawn ?_⟩
    intro pin hpin
    obtain ⟨opcode, hop, rfl⟩ := Option.map_eq_some_iff.1 hpin
    rw [hop, Option.bind_some] at hfind
    simp [Pin.fits, hfind]

theorem Arithmetic.select_settled {a : Arithmetic}
    (h : a.select action context state = .ok i state') :
    (Action.openDestination id i).isSettled ↔
      ∀ pin ∈ (Op.arithmetic a).pin?, pin.fits context.catalog := by
  simp only [select, Lower.bind_ok] at h
  obtain ⟨i₀, _, htemplate, i₁, _, h₁, i₂, _, h₂, i₃, _, h₃, h₄⟩ := h
  obtain ⟨t, ht, rfl, hpins⟩ := template_ok hcomplete htemplate
  have hwired := settles_wireSource settles_instruction ht (by simp [Slot.registers]) h₁
  have hwired := settles_wireSource hwired ht (by simp [Slot.registers]) h₂
  have hwired := settles_wireImmediate hwired ht h₃
  have hwired := settles_wireSource hwired ht (by simp [Slot.registers]) h₄
  rw [settled_openDestination hwired ht, ← hpins]
  rfl

theorem Access.template_ok {a : Access} {filter : TemplateFilter} {category : Category}
    {skip : List String} (hfilter : filter.category = some category)
    (hdrawn : category ∈ Category.drawn)
    (h : a.template filter skip context state = .ok i state') :
    ∃ t : Template, t.Typed ∧ t.instruction = i ∧ (t.slots ⊆ category.wired ↔
      ∀ opcode, a.op = some opcode → Pin.fits ⟨opcode, category⟩ context.catalog) := by
  obtain ⟨t, rfl, _, ⟨opcode, hop, hfind⟩ | ⟨hop, ht⟩⟩ := template_chosen h
  · have hfits : Pin.fits ⟨opcode, category⟩ context.catalog ↔ t.slots ⊆ category.wired :=
      Pin.fits_iff hfind
    exact ⟨t, hcomplete.typed_of_find? hfind, rfl, by simp [hop, hfits]⟩
  · obtain ⟨hmem, hcategory⟩ := Catalog.mem_filter_category hfilter ht
    have hslots := hcomplete.drawn t hmem (hcategory ▸ hdrawn)
    rw [hcategory] at hslots
    exact ⟨t, hcomplete.typed t hmem, rfl, by simpa [hop] using hslots⟩

theorem Access.selectLoad_settled {a : Access}
    (h : a.selectLoad action context state = .ok i state') :
    (Action.openDestination id i).isSettled ↔
      ∀ pin ∈ (Op.load a).pin?, pin.fits context.catalog := by
  simp only [selectLoad, Lower.bind_ok] at h
  obtain ⟨i₀, _, htemplate, hwire⟩ := h
  have hfilter : (a.filter .load .none).category = some .load := rfl
  obtain ⟨t, ht, rfl, hpins⟩ :=
    template_ok hcomplete hfilter (by simp [Category.drawn]) htemplate
  have hwired := settles_wire settles_instruction ht hwire
  rw [settled_openDestination hwired ht]
  refine Iff.trans hpins ?_
  simp [Op.pin?]

theorem Access.selectStore_settled {a : Access} {value : Option Id}
    (h : a.selectStore value action context state = .ok i state') :
    (Action.openDestination id i).isSettled ↔
      ∀ pin ∈ (Op.store a value).pin?, pin.fits context.catalog := by
  obtain ⟨i₀, _, i₁, _, htemplate, hwire, hlast⟩ := selectStore_ok h
  have hfilter : (a.filter .store (.union .atomic .svinval)).category = some .store := rfl
  obtain ⟨t, ht, rfl, hpins⟩ :=
    template_ok hcomplete hfilter (by simp [Category.drawn]) htemplate
  have hwired := settles_wire settles_instruction ht hwire
  have hvalue : i.Settles t (.rs2 :: .rs1 :: .imm :: []) := by
    rcases hlast with ⟨_, _, h⟩ | ⟨_, _, _, h⟩
    all_goals exact settles_withSource hwired ht (by simp [Slot.registers]) h
  rw [settled_openDestination hvalue ht]
  refine Iff.trans hpins ?_
  simp [Op.pin?]

theorem settles_named (hname : (name, slots) ∈ Catalog.namedOpcodes)
    (h : Lower.instruction name context state = .ok i state') :
    ∃ t : Template, t.Typed ∧ t.slots ⊆ slots ∧ i.Settles t [] := by
  obtain ⟨t, ht, hslots, rfl⟩ := hcomplete.instruction hname (Lower.instruction_ok.1 h).1
  exact ⟨t, ht, hslots, settles_instruction⟩

theorem Op.selectLi_settles {v : Immediate} (h : selectLi v action context state = .ok i state') :
    ∃ t : Template, t.Typed ∧ t.slots ⊆ [.rd, .imm] ∧ i.Settles t [.imm] := by
  obtain ⟨rfl, i₀, h₀, himm⟩ := selectLi_ok h
  obtain ⟨t, ht, hslots, hwired⟩ :=
    settles_named hcomplete (show ("li", [.rd, .imm]) ∈ _ by simp [Catalog.namedOpcodes]) h₀
  refine ⟨t, ht, hslots, hwired.setImmediate ht (Lower.ofExcept_ok.1 himm).1 fun op => ?_⟩
  cases v <;> rfl

theorem CsrWrite.select_settled {w : CsrWrite}
    (h : w.select action context state = .ok i state') :
    (Action.openDestination id i).isSettled := by
  rcases select_ok h with ⟨_, rfl, rfl⟩ |
    ⟨_, i₀, i₁, hcsr, ⟨v, h₀, himm⟩ | ⟨src, _, h₀, hrs1⟩⟩
  · exact openDestination_of_allocated rfl
  · have hname : (w.how.mnemonic true, [.rd, .imm, .csr]) ∈ Catalog.namedOpcodes := by
      cases w.how <;> simp [CsrUpdate.mnemonic, Catalog.namedOpcodes]
    obtain ⟨t, ht, hslots, hwired⟩ := settles_named hcomplete hname h₀
    have hwired := hwired.setSource ht (Lower.ofExcept_ok.1 hcsr).1 fun _ _ => rfl
    have hwired := hwired.setImmediate ht (Lower.ofExcept_ok.1 himm).1 fun _ => rfl
    exact (settled_openDestination hwired ht).2 hslots
  · have hname : (w.how.mnemonic false, [.rd, .rs1, .csr]) ∈ Catalog.namedOpcodes := by
      cases w.how <;> simp [CsrUpdate.mnemonic, Catalog.namedOpcodes]
    obtain ⟨t, ht, hslots, hwired⟩ := settles_named hcomplete hname h₀
    have hwired := hwired.setSource ht (Lower.ofExcept_ok.1 hcsr).1 fun _ _ => rfl
    have hwired := settles_withSource hwired ht (by simp [Slot.registers]) hrs1
    exact (settled_openDestination hwired ht).2 hslots

/-- Selection leaves a source open exactly where the plan pinned an opcode that does not fit. -/
theorem Op.select_settled {op : Op} (h : op.select id action context state = .ok i state') :
    (Action.openDestination id i).isSettled ↔ ∀ pin ∈ op.pin?, pin.fits context.catalog := by
  cases select_ok h with
  | arithmetic hrun => exact Arithmetic.select_settled hcomplete hrun
  | load hrun => exact Access.selectLoad_settled hcomplete hrun
  | store hrun => exact Access.selectStore_settled hcomplete hrun
  | @system opcode _ hrun =>
    simp only [Lower.instruction_ok, Catalog.instruction_ok] at hrun
    obtain ⟨⟨t, hfind, rfl⟩, _⟩ := hrun
    have hfits : Pin.fits ⟨opcode, .system⟩ context.catalog ↔ t.slots ⊆ Category.system.wired :=
      Pin.fits_iff hfind
    rw [settled_openDestination settles_instruction (hcomplete.typed_of_find? hfind)]
    simp only [pin?, Option.mem_some_iff, forall_eq', hfits]
    rfl
  | csrWrite hrun => exact iff_of_true (CsrWrite.select_settled hcomplete hrun) (by simp [pin?])
  | li hrun =>
    refine iff_of_true ?_ (by simp [pin?])
    obtain ⟨t, ht, hslots, hwired⟩ := selectLi_settles hcomplete hrun
    exact (settled_openDestination hwired ht).2 hslots
  | @liToT2 _ _ o h₀ ht2 =>
    refine iff_of_true ?_ (by simp [pin?])
    obtain ⟨t, ht, hslots, hwired⟩ := selectLi_settles hcomplete h₀
    have hwired := hwired.setDestination ht (Lower.ofExcept_ok.1 ht2).1 fun _ _ => rfl
    have hmoved : Instruction.Settles t [.rd, .imm] { o with clobbers := runtimeClobbers } :=
      ⟨hwired.sources, hwired.destination, hwired.wired⟩
    exact (settled_openDestination hmoved ht).2 (List.subset_cons_of_subset _ hslots)
  | @moveToT2 _ _ _ o h₀ ht2 hsrc =>
    refine iff_of_true ?_ (by simp [pin?])
    obtain ⟨t, ht, hslots, hwired⟩ :=
      settles_named hcomplete (show ("mv", [.rd, .rs1]) ∈ _ by simp [Catalog.namedOpcodes]) h₀
    have hwired := hwired.setDestination ht (Lower.ofExcept_ok.1 ht2).1 fun _ _ => rfl
    have hwired := settles_withSource hwired ht (by simp [Slot.registers]) hsrc
    have hmoved : Instruction.Settles t [.rs1, .rd] { o with clobbers := runtimeClobbers } :=
      ⟨hwired.sources, hwired.destination, hwired.wired⟩
    refine (settled_openDestination hmoved ht).2 (List.Subset.trans hslots ?_)
    simp
  | moveFromT2 h₀ hsrc =>
    refine iff_of_true ?_ (by simp [pin?])
    obtain ⟨t, ht, hslots, hwired⟩ :=
      settles_named hcomplete (show ("mv", [.rd, .rs1]) ∈ _ by simp [Catalog.namedOpcodes]) h₀
    have hwired := hwired.setSource ht (Lower.ofExcept_ok.1 hsrc).1 fun _ _ => rfl
    exact (settled_openDestination hwired ht).2 hslots
  | jumpToFail h₀ hrs1 =>
    refine iff_of_true ?_ (by simp [pin?])
    obtain ⟨t, ht, hslots, hwired⟩ :=
      settles_named hcomplete (show ("jr", [.rs1]) ∈ _ by simp [Catalog.namedOpcodes]) h₀
    have hwired := settles_withSource hwired ht (by simp [Slot.registers]) hrs1
    exact (settled_openDestination hwired ht).2 (List.subset_cons_of_subset _ hslots)
  | ret hrun =>
    refine iff_of_true ?_ (by simp [pin?])
    obtain ⟨t, ht, hslots, hwired⟩ :=
      settles_named hcomplete (show ("ret", []) ∈ _ by simp [Catalog.namedOpcodes]) hrun
    exact (settled_openDestination hwired ht).2 (List.subset_cons_of_subset _ hslots)
  | @call target _ _ _ _ o h₀ hra hbase himm =>
    refine iff_of_true ?_ (by simp [pin?])
    obtain ⟨t, ht, hslots, hwired⟩ := settles_named hcomplete
      (show ("jalr", [.rd, .rs1, .imm]) ∈ _ by simp [Catalog.namedOpcodes]) h₀
    have hwired := hwired.setDestination ht (Lower.ofExcept_ok.1 hra).1 fun _ _ => rfl
    have hwired := settles_withSource hwired ht (by simp [Slot.registers]) hbase
    have hwired := settles_withImmediate hwired ht himm
    have hcall : Instruction.Settles t [.imm, .rs1, .rd] { o with form := .call target } :=
      ⟨hwired.sources, hwired.destination, hwired.wired⟩
    refine (settled_openDestination hcall ht).2 (List.Subset.trans hslots ?_)
    simp
  | @compare relation _ _ _ _ _ _ _ h₀ hlhs hrhs hoffset =>
    refine iff_of_true ?_ (by simp [pin?])
    obtain ⟨t, ht, hslots, hwired⟩ := settles_named hcomplete (compare_named relation) h₀
    have hwired := settles_withSource hwired ht (by simp [Slot.registers]) hlhs
    have hwired := settles_withSource hwired ht (by simp [Slot.registers]) hrhs
    have hwired := hwired.setSource ht (Lower.ofExcept_ok.1 hoffset).1 fun _ _ => rfl
    refine (settled_openDestination hwired ht).2 (List.Subset.trans hslots ?_)
    simp
  | csrRead _ h₀ hcsr =>
    refine iff_of_true ?_ (by simp [pin?])
    obtain ⟨t, ht, hslots, hwired⟩ :=
      settles_named hcomplete (show ("csrr", [.rd, .csr]) ∈ _ by simp [Catalog.namedOpcodes]) h₀
    have hwired := hwired.setSource ht (Lower.ofExcept_ok.1 hcsr).1 fun _ _ => rfl
    exact (settled_openDestination hwired ht).2 hslots
  | csrDirective | readPte | writePte | label | comment =>
    exact iff_of_true (openDestination_of_allocated rfl) (by simp [pin?])

omit hcomplete in
theorem Block.SelectsTo.settled {owner : Block} (h : owner.SelectsTo id i) :
    (Action.openDestination id { i with id }).isSettled := by
  cases h <;> exact openDestination_of_allocated rfl

theorem Action.select_settled {a : Action} (hexpanded : a.isExpanded)
    (h : a.select context state = .ok i state') :
    (openDestination a.id i).isSettled ↔ ∀ pin ∈ a.pins, pin.fits context.catalog := by
  cases a with
  | simple id expanded op =>
    obtain ⟨j, hj, rfl⟩ := select_simple_ok h
    have hop := Op.select_settled hcomplete hj
    simp only [pins, Option.mem_toList]
    exact hop
  | block id expanded owner code =>
    obtain ⟨j, hj, _, rfl⟩ := select_block_ok h
    rw [isExpanded] at hexpanded
    subst hexpanded
    exact iff_of_true hj.settled (by simp [pins])

theorem Action.selectAll_settled {actions : List Action} {code : List Instruction}
    (hexpanded : ∀ a ∈ actions, a.isExpanded)
    (h : selectAll actions context state = .ok code state') :
    (∀ i ∈ code, i.isSettled) ↔ ∀ pin ∈ pinsAll actions, pin.fits context.catalog := by
  induction actions generalizing state code with
  | nil =>
    obtain ⟨rfl, _⟩ := selectAll_nil_ok h
    simp [pinsAll]
  | cons a rest ih =>
    obtain ⟨i, next, more, hi, hmore, rfl⟩ := selectAll_cons_ok h
    rw [List.forall_mem_cons, select_settled hcomplete (hexpanded a List.mem_cons_self) hi,
      ih (fun b hb => hexpanded b (List.mem_cons_of_mem _ hb)) hmore, pinsAll,
      List.forall_mem_append]

end Select

end PlanLowering
