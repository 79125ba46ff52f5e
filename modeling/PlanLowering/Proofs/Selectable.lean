import PlanLowering.Proofs.Spawned
import PlanLowering.Proofs.Stock

/-!
# When selection succeeds

An operation that pins no opcode asks the catalog for one of a kind, and wires what it has into the
answer. In a stocked catalog there is an answer, and it has the slots.
-/

namespace PlanLowering

structure Arithmetic.Plain (a : Arithmetic) : Prop where
  unpinned : a.op = none
  inputs : a.src2.isSome → a.src1.isSome ∧ a.imm = none

/-- No opcode is pinned, and an address in a value is in the base register. -/
structure Access.Plain (a : Access) : Prop where
  unpinned : a.op = none
  width : a.size ∈ Catalog.accessSizes
  based : ∀ id, a.memory = some (.value id) → a.base ≠ none

def Op.Plain : Op → Prop
  | .arithmetic a => a.Plain ∨ ∃ x y, a = .binary "add" x y
  | .li _ => True
  | .load access => access.Plain
  | .store access _ => access.Plain
  | _ => False

def Op.Based : Op → Prop
  | .load access => access.base ≠ none
  | .store access _ => access.base ≠ none
  | _ => True

def Op.Makes : Op → Prop
  | .arithmetic _ => True
  | .li _ => True
  | .load _ => True
  | _ => False

variable {context : Context} {s : State} {pages : Id → Prop} {i : Instruction} {t : Template}
variable {slot : Slot} {value : OperandValue} {action : String} {xlen : Xlen}

open Lower

section Wire

theorem Lower.withSource_succeeds (h : s.Offers pages) (hi : i.Shaped t)
    (hslot : slot ∈ t.sourceSlots) : (withSource i slot value action).Succeeds context s
      fun i s' => s'.Offers pages ∧ i.Shaped t :=
  succeeds_of_returns ((hi.setSource hslot).mono fun _ hi => ⟨h, hi⟩)

theorem Lower.withImmediate_succeeds (h : s.Offers pages) (hi : i.Shaped t)
    (himm : t.instruction.hasImmediate) : (withImmediate i value action).Succeeds context s
      fun i s' => s'.Offers pages ∧ i.Shaped t :=
  succeeds_of_returns ((hi.setImmediate himm).mono fun _ hi => ⟨h, hi⟩)

end Wire

section Arithmetic

variable {a : Arithmetic}

structure Arithmetic.Suits (a : Arithmetic) (t : Template) : Prop where
  destination : t.destination.isSome
  first : a.src1.isSome → .rs1 ∈ t.sourceSlots
  second : a.src2.isSome → .rs2 ∈ t.sourceSlots
  immediate : a.imm.isSome → t.instruction.hasImmediate

theorem Arithmetic.filter_mem (h : a.Plain) : a.filter ∈ Catalog.arithmeticFilters := by
  obtain ⟨_, hinputs⟩ := h
  cases hfirst : a.src1 <;> cases hsecond : a.src2 <;> cases himm : a.imm <;>
    simp_all [filter, Catalog.arithmeticFilters]

theorem Arithmetic.suits_of_accepts (h : a.Plain) (ht : t.fits) (haccepts : a.filter.accepts t) :
    a.Suits t := by
  simp only [TemplateFilter.accepts, Bool.and_eq_true] at haccepts
  obtain ⟨⟨⟨⟨⟨hcategory, hsources⟩, himm⟩, _⟩, _⟩, _⟩ := haccepts
  have hcategory : t.category = .arithmetic := (of_decide_eq_true hcategory).symm
  simp only [Template.fits, hcategory, Bool.and_eq_true, Bool.or_eq_true, decide_eq_true_eq] at ht
  obtain ⟨⟨⟨hdest, hone⟩, htwo⟩, _⟩ := ht
  have hcount : ∀ n, a.filter.registerSources = some n → t.instruction.registerSources = n := by
    intro n hn
    rw [hn] at hsources
    exact (of_decide_eq_true hsources).symm
  constructor
  case destination => exact hdest
  case first =>
    intro hfirst
    obtain ⟨x, hx⟩ := Option.isSome_iff_exists.1 hfirst
    refine hone.resolve_left ?_
    cases hsecond : a.src2 with
    | none => rw [hcount 1 (by simp [filter, hx, hsecond])]; decide
    | some y => rw [hcount 2 (by simp [filter, hx, hsecond])]; decide
  case second =>
    intro hsecond
    obtain ⟨x, hx⟩ := Option.isSome_iff_exists.1 (h.inputs hsecond).1
    obtain ⟨y, hy⟩ := Option.isSome_iff_exists.1 hsecond
    refine htwo.resolve_left ?_
    rw [hcount 2 (by simp [filter, hx, hy])]
    decide
  case immediate =>
    intro hsome
    have hfilter : a.filter.hasImmediate = some true := by simp [filter, hsome]
    rw [hfilter] at himm
    exact (of_decide_eq_true himm).symm

theorem Arithmetic.template_succeeds (hstock : context.catalog.Stocked xlen)
    (ha : a.Plain ∨ ∃ x y, a = binary "add" x y) (h : s.Offers pages) :
    a.template.Succeeds context s fun i s' => s'.Offers pages ∧
      ∃ t, i.Shaped t ∧ a.Suits t := by
  rcases ha with ha | ⟨x, y, rfl⟩
  · have hcandidates : context.catalog.filter a.filter ≠ [] :=
      hstock.answers _ (List.mem_append_left _ (filter_mem ha))
    simp only [template, ha.unpinned, Option.bind_none, choose, succeeds_bind, succeeds_read]
    refine succeeds_chooseFrom hcandidates fun t ht random => ⟨h.random random, t, ?_, ?_⟩
    · exact t.shaped_instruction
    · obtain ⟨hmem, haccepts⟩ := List.mem_filter.1 ht
      exact suits_of_accepts ha (hstock.fits t hmem) haccepts
  · obtain ⟨t, hfind, hslots⟩ := hstock.named "add" [.rd, .rs1, .rs2]
      (by simp [Catalog.namedOpcodes]) (.inr (by decide))
    have hslot : ∀ slot ∈ [Slot.rs1, .rs2], slot ∈ t.sourceSlots := by
      intro slot hslot
      refine (Template.mem_slots.1 (hslots (List.mem_cons_of_mem _ hslot))).resolve_left ?_
      rintro ⟨rfl, _⟩
      simp at hslot
    simp only [template, binary, succeeds_bind, succeeds_read, Option.bind_some, hfind,
      succeeds_pure]
    have ht := hstock.typed t (Catalog.mem_of_find? hfind)
    have hdest := ht.destination_isSome (hslots (by simp))
    exact ⟨h, t, t.shaped_instruction, hdest, fun _ => hslot _ (by simp),
      fun _ => hslot _ (by simp), by simp⟩

theorem Arithmetic.wireSource_succeeds {src : Option Id} (h : s.Offers pages) (hi : i.Shaped t)
    (hslot : src.isSome → slot ∈ t.sourceSlots) :
    (wireSource slot src action i).Succeeds context s fun i s' => s'.Offers pages ∧ i.Shaped t := by
  unfold wireSource
  cases hsource : i.source? slot with
  | some op =>
    have hmem : slot ∈ t.sourceSlots := hi.source?_isSome.1 (by simp [hsource])
    cases src with
    | some id => exact withSource_succeeds h hi hmem
    | none =>
      simp only [freshValue, succeeds_bind, succeeds_fresh]
      exact withSource_succeeds (h.next .value) hi hmem
  | none =>
    cases src with
    | some id =>
      have hsome := hi.source?_isSome.2 (hslot rfl)
      simp [hsource] at hsome
    | none => exact succeeds_pure.2 ⟨h, hi⟩

theorem Arithmetic.wireImmediate_succeeds {imm : Option Int} (h : s.Offers pages)
    (hi : i.Shaped t) (himm : imm.isSome → t.instruction.hasImmediate) :
    (wireImmediate imm action i).Succeeds context s fun i s' => s'.Offers pages ∧ i.Shaped t := by
  unfold wireImmediate
  rw [hi.hasImmediate]
  cases htemplate : t.instruction.hasImmediate with
  | true =>
    cases imm with
    | some v => exact withImmediate_succeeds h hi htemplate
    | none =>
      have hbits : ∀ bits, bits = 5 ∨ bits = 11 → (Draw.width bits 2).Total fun _ => True := by
        rintro bits (rfl | rfl) <;> exact Draw.width_total (by decide) (by decide)
      simp only [succeeds_bind]
      refine succeeds_draw (hbits _ ?_) fun v random _ => ?_
      · split <;> simp
      · exact withImmediate_succeeds (h.random random) hi htemplate
  | false =>
    cases imm with
    | some v => simp [himm rfl] at htemplate
    | none => exact succeeds_pure.2 ⟨h, hi⟩

theorem Arithmetic.select_succeeds (hstock : context.catalog.Stocked xlen)
    (ha : a.Plain ∨ ∃ x y, a = binary "add" x y) (h : s.Offers pages) :
    (a.select action).Succeeds context s fun i s' =>
      s'.Offers pages ∧ i.destination.isSome := by
  simp only [select, succeeds_bind]
  refine (template_succeeds hstock ha h).mono ?_
  rintro i s ⟨h, t, hi, hsuits⟩
  refine (wireSource_succeeds h hi hsuits.first).mono ?_
  rintro i s ⟨h, hi⟩
  refine (wireSource_succeeds h hi hsuits.second).mono ?_
  rintro i s ⟨h, hi⟩
  refine (wireImmediate_succeeds h hi hsuits.immediate).mono ?_
  rintro i s ⟨h, hi⟩
  exact (wireSource_succeeds h hi (by simp)).mono fun _ _ h => ⟨h.1, h.2.makes hsuits.destination⟩

end Arithmetic

section Access

variable {access : Access}

theorem Access.template_succeeds {category : Category} {excluded : Extensions} {skip : List String}
    (hanswers : Catalog.answersAccess context.catalog.templates category excluded skip)
    (ha : access.Plain) (h : s.Offers pages) :
    (access.template (access.filter category excluded) skip).Succeeds context s fun i s' =>
      s'.Offers pages ∧ ∃ t ∈ context.catalog.templates, i.Shaped t ∧ t.category = category ∧
        (access.offset ≠ 0 → t.instruction.hasImmediate) := by
  simp only [Catalog.answersAccess, List.all_eq_true, decide_eq_true_eq] at hanswers
  have hcandidates := hanswers access.size ha.width (access.filter category excluded).hasImmediate
    (by by_cases hzero : access.offset = 0 <;> simp [filter, hzero])
  simp only [template, ha.unpinned, candidates, succeeds_bind, succeeds_read, succeeds_pure]
  refine succeeds_chooseFrom hcandidates fun t ht random => ⟨h.random random, t, ?_⟩
  have hfilter : (access.filter category excluded).category = some category := rfl
  obtain ⟨hmem, hcategory⟩ := Catalog.mem_filter_category hfilter (List.mem_filter.1 ht).1
  refine ⟨hmem, t.shaped_instruction, hcategory, fun hoffset => ?_⟩
  have haccepts := (List.mem_filter.1 (List.mem_filter.1 ht).1).2
  simp only [TemplateFilter.accepts, Bool.and_eq_true] at haccepts
  obtain ⟨⟨⟨⟨⟨_, _⟩, himm⟩, _⟩, _⟩, _⟩ := haccepts
  rw [filter, if_neg hoffset] at himm
  exact (of_decide_eq_true himm).symm

theorem Access.wire_succeeds (h : s.Offers pages) (hi : i.Shaped t) (hbase : access.base ≠ none)
    (hslot : .rs1 ∈ t.sourceSlots) (himm : access.offset ≠ 0 → t.instruction.hasImmediate) :
    (access.wire action i).Succeeds context s fun i s' => s'.Offers pages ∧ i.Shaped t := by
  obtain ⟨base, hbase⟩ := Option.ne_none_iff_exists'.1 hbase
  have hrest : ∀ {i : Instruction} {s : State}, s.Offers pages → i.Shaped t →
      (do
        let base ← expect action .baseRegister access.base
        withSource i .rs1 (.virtual base) action).Succeeds context s
          fun i s' => s'.Offers pages ∧ i.Shaped t := by
    intro i s h hi
    simp only [hbase, expect, succeeds_bind, succeeds_pure]
    exact withSource_succeeds h hi hslot
  unfold wire
  by_cases himmediate : i.hasImmediate
  · rw [if_pos himmediate, succeeds_bind]
    exact (withImmediate_succeeds h hi (hi.hasImmediate ▸ himmediate)).mono
      fun _ _ h => hrest h.1 h.2
  · have hzero : ¬ access.offset ≠ 0 := fun hoffset =>
      himmediate (hi.hasImmediate.trans (himm hoffset))
    rw [if_neg himmediate, if_neg hzero]
    exact hrest h hi

theorem Access.selectLoad_succeeds (hstock : context.catalog.Stocked xlen) (ha : access.Plain)
    (hbase : access.base ≠ none) (h : s.Offers pages) :
    (access.selectLoad action).Succeeds context s fun i s' =>
      s'.Offers pages ∧ i.destination.isSome := by
  simp only [selectLoad, succeeds_bind]
  refine (template_succeeds hstock.loads ha h).mono ?_
  rintro i s ⟨h, t, ht, hi, hcategory, himm⟩
  have hfits := hstock.fits t ht
  simp only [Template.fits, hcategory, Bool.and_eq_true, decide_eq_true_eq] at hfits
  exact (wire_succeeds h hi hbase hfits.1.2 himm).mono fun _ _ h => ⟨h.1, h.2.makes hfits.1.1⟩

theorem Access.selectStore_succeeds {stored : Option Id} (hstock : context.catalog.Stocked xlen)
    (ha : access.Plain) (hbase : access.base ≠ none) (h : s.Offers pages) :
    (access.selectStore stored action).Succeeds context s fun _ s' => s'.Offers pages := by
  simp only [selectStore, succeeds_bind]
  refine (template_succeeds hstock.stores ha h).mono ?_
  rintro i s ⟨h, t, ht, hi, hcategory, himm⟩
  have hfits := hstock.fits t ht
  simp only [Template.fits, hcategory, Bool.and_eq_true, decide_eq_true_eq] at hfits
  refine (wire_succeeds h hi hbase hfits.1.1 himm).mono ?_
  rintro i s ⟨h, hi⟩
  cases stored with
  | some id => exact (withSource_succeeds h hi hfits.1.2).mono fun _ _ h => h.1
  | none =>
    simp only [freshValue, succeeds_bind, succeeds_fresh]
    exact (withSource_succeeds (h.next .value) hi hfits.1.2).mono fun _ _ h => h.1

end Access

theorem Op.select_succeeds {op : Op} {id : Id} (hstock : context.catalog.Stocked xlen)
    (hop : op.Plain) (hbased : op.Based) (h : s.Offers pages) :
    (op.select id action).Succeeds context s fun i s' =>
      s'.Offers pages ∧ (op.Makes → i.destination.isSome) := by
  cases op with
  | arithmetic a =>
    exact (Arithmetic.select_succeeds hstock hop h).mono fun _ _ h => ⟨h.1, fun _ => h.2⟩
  | load access =>
    exact (Access.selectLoad_succeeds hstock hop hbased h).mono
      fun _ _ h => ⟨h.1, fun _ => h.2⟩
  | store access value =>
    exact (Access.selectStore_succeeds hstock hop hbased h).mono fun _ _ h => ⟨h, False.elim⟩
  | li v =>
    obtain ⟨i, hi, hoffers⟩ : Returns (context.catalog.instruction "li") (·.Offers [.rd, .imm]) :=
      hstock.instruction (by simp [Catalog.namedOpcodes]) (.inr (by decide))
    simp only [select, selectLi, succeeds_bind, succeeds_instruction]
    refine ⟨i, hi, succeeds_of_returns (hoffers.setImmediate (by simp) fun i hi => ?_)⟩
    exact ⟨h, fun _ => hi.destination_isSome (by simp)⟩
  | _ => exact hop.elim

end PlanLowering
