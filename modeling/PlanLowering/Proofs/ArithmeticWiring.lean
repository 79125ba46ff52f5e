import Mathlib.Logic.Function.Basic
import PlanLowering.Proofs.DeclaredCatalogs
import PlanLowering.Proofs.OpenSources

/-!
# Wired arithmetic

An arithmetic action is selected as the template of its opcode or as one that takes its inputs. Each
input goes to the slot that it is for, each register slot without an input gets a value of its own,
and an immediate that is not given is drawn. Selection fails if no template takes the inputs, or if
the one that was taken lacks the slot of one of them.
-/

namespace PlanLowering

variable {context : Context} {state : State} {action : String} {t : Template} {slot : Slot}
variable {values : Slot → OperandValue} {value : OperandValue}

section Wired

/-- Sources of a template, each with the value of its slot. -/
def operandsOf (values : Slot → OperandValue) (sources : List (Slot × OperandType)) :
    List Operand :=
  sources.map fun source => { slot := source.1, type := source.2, value := values source.1 }

theorem setFirst_operandsOf {p : Operand → Bool} {sources : List (Slot × OperandType)}
    (hp : ∀ source ∈ sources, ∀ v, p ⟨source.1, source.2, v⟩ = decide (source.1 = slot))
    (hnodup : (sources.map Prod.fst).Nodup) :
    Instruction.setFirst p value (operandsOf values sources) =
      if slot ∈ sources.map Prod.fst then
        some (operandsOf (Function.update values slot value) sources)
      else none := by
  induction sources with
  | nil => rfl
  | cons source rest ih =>
    obtain ⟨hsource, hrest⟩ := List.forall_mem_cons.1 hp
    obtain ⟨hnew, hnodup⟩ := List.nodup_cons.1 hnodup
    have hmore := ih hrest hnodup
    simp only [operandsOf, List.map_cons, Instruction.setFirst, hsource] at hmore ⊢
    by_cases hslot : source.1 = slot
    · subst hslot
      have hsame : operandsOf (Function.update values source.1 value) rest =
          operandsOf values rest := by
        refine List.map_congr_left fun other hother => ?_
        have hne : other.1 ≠ source.1 := fun h => hnew (h ▸ List.mem_map_of_mem hother)
        rw [Function.update_of_ne hne]
      simp only [operandsOf] at hsame
      simp [hsame]
    · rw [if_neg (by simpa using hslot), hmore]
      simp only [List.mem_cons, Ne.symm hslot, false_or, Function.update_of_ne hslot]
      split <;> rfl

namespace Template

/-- The instruction of a template with a value in each source slot. -/
def wired (t : Template) (values : Slot → OperandValue) : Instruction :=
  { t.instruction with sources := operandsOf values t.sources }

theorem instruction_eq_wired : t.instruction = t.wired fun _ => .unset := rfl

theorem setSource_wired : (t.wired values).setSource slot value action =
    if slot ∈ t.sourceSlots then .ok (t.wired (Function.update values slot value))
    else .error (.operandSlotMissing t.name slot.name action) := by
  have hset : Instruction.setFirst (·.slot = slot) value (t.wired values).sources =
      if slot ∈ t.sourceSlots then some (t.wired (Function.update values slot value)).sources
      else none :=
    setFirst_operandsOf (fun _ _ _ => rfl) t.nodup
  rw [Instruction.setSource, Instruction.setSource?, hset]
  by_cases hslot : slot ∈ t.sourceSlots
  · simp only [if_pos hslot]
    rfl
  · simp only [if_neg hslot]
    rfl

theorem Typed.type_imm_iff (ht : t.Typed) {source : Slot × OperandType} (h : source ∈ t.sources) :
    source.2 = .imm ↔ source.1 = .imm := by
  have hadmits := ht source h
  obtain ⟨slot, type⟩ := source
  cases slot <;> cases type <;> simp_all [Slot.admits]

theorem setImmediate_wired (ht : t.Typed) : (t.wired values).setImmediate value action =
    if .imm ∈ t.sourceSlots then .ok (t.wired (Function.update values .imm value))
    else .error (.operandSlotMissing t.name "imm" action) := by
  have hset : Instruction.setFirst (·.type = .imm) value (t.wired values).sources =
      if .imm ∈ t.sourceSlots then some (t.wired (Function.update values .imm value)).sources
      else none :=
    setFirst_operandsOf (fun source hsource _ => decide_eq_decide.2 (ht.type_imm_iff hsource))
      t.nodup
  rw [Instruction.setImmediate, Instruction.setImmediate?, hset]
  by_cases hslot : .imm ∈ t.sourceSlots
  · simp only [if_pos hslot]
    rfl
  · simp only [if_neg hslot]
    rfl

theorem source?_wired : ((t.wired values).source? slot).isSome ↔ slot ∈ t.sourceSlots := by
  simp [Instruction.source?, wired, operandsOf, sourceSlots]

theorem hasImmediate_wired (ht : t.Typed) :
    (t.wired values).hasImmediate ↔ .imm ∈ t.sourceSlots := by
  simp only [Instruction.hasImmediate, wired, operandsOf, sourceSlots, List.any_map,
    List.any_eq_true, Function.comp, decide_eq_true_eq, List.mem_map]
  exact exists_congr fun source => and_congr_right fun h => ht.type_imm_iff h

end Template

end Wired

namespace Arithmetic

variable {a : Arithmetic} {src : Option Id}

/-- What an action wires into a slot itself. -/
def given (a : Arithmetic) : Slot → Option OperandValue
  | .rs1 => a.src1.map .virtual
  | .rs2 => a.src2.map .virtual
  | .imm => a.imm.map .imm
  | _ => none

/-- Slots that are wired, in the order in which they are. -/
def wiredSlots : List Slot := [.rs1, .rs2, .imm, .rs3]

def Lacks (a : Arithmetic) (t : Template) (slot : Slot) : Prop :=
  (a.given slot).isSome ∧ slot ∉ t.sourceSlots

instance : Decidable (a.Lacks t slot) := inferInstanceAs (Decidable (_ ∧ _))

/-- Slots of inputs that the template does not have. -/
def lacking (a : Arithmetic) (t : Template) : List Slot := wiredSlots.filter (a.Lacks t ·)

/-- A register slot of the template for which the action has nothing. -/
def Opens (a : Arithmetic) (t : Template) (slot : Slot) : Prop :=
  slot ≠ .imm ∧ slot ∈ t.sourceSlots ∧ a.given slot = none

instance : Decidable (a.Opens t slot) := inferInstanceAs (Decidable (_ ∧ _))

/-- The greatest immediate that is drawn for a template. -/
def greatestDrawn (t : Template) : Int := if t.name ∈ shiftImmediates then 31 else 2047

/-- How far the slots are wired: those that are done hold the inputs, new values and a drawn
immediate, and all others are open. -/
structure Wires (a : Arithmetic) (t : Template) (done : List Slot) (ids ids' : FreshIds)
    (values : Slot → OperandValue) : Prop where
  given : ∀ slot ∈ done, ∀ value ∈ a.given slot, slot ∈ t.sourceSlots ∧ values slot = value
  fresh : ∃ name : Slot → Id, ids.Adds ids' ((done.filter (a.Opens t ·)).map name) ∧
    ∀ slot ∈ done, a.Opens t slot → values slot = .virtual (name slot)
  drawn : .imm ∈ done → .imm ∈ t.sourceSlots → a.imm = none →
    ∃ v, values .imm = .imm v ∧ 3 ≤ v ∧ v ≤ greatestDrawn t
  unset : ∀ slot ∉ done, values slot = .unset

/-- The template is that of the opcode asked for. If the catalog has none of that name, or no opcode
was asked for, it is any that satisfies the constraints. -/
inductive Uses (catalog : Catalog) (a : Arithmetic) (t : Template) : Prop
  | pinned (ht : t ∈ catalog.templates) (hop : a.op = some t.name)
  | drawn (hop : ∀ u ∈ catalog.templates, a.op ≠ some u.name) (ht : t ∈ catalog.templates)
      (hmatches : a.filter.Matches t.instruction)

section Slots

theorem wireSource_given {id : Id} (hslot : slot ∈ t.sourceSlots) :
    wireSource slot (some id) action (t.wired values) context state =
      .ok (t.wired (Function.update values slot (.virtual id))) state := by
  have hsome : ((t.wired values).source? slot).isSome := Template.source?_wired.2 hslot
  obtain ⟨op, hop⟩ := Option.isSome_iff_exists.1 hsome
  simp only [wireSource, hop, Lower.withSource, Template.setSource_wired, if_pos hslot]
  rfl

theorem wireSource_open (hslot : slot ∈ t.sourceSlots) :
    wireSource slot none action (t.wired values) context state =
      .ok (t.wired (Function.update values slot (.virtual (IdRequest.value.next state.ids).1)))
        { state with ids := (IdRequest.value.next state.ids).2 } := by
  have hsome : ((t.wired values).source? slot).isSome := Template.source?_wired.2 hslot
  obtain ⟨op, hop⟩ := Option.isSome_iff_exists.1 hsome
  simp only [wireSource, hop, Lower.withSource, Template.setSource_wired, if_pos hslot]
  rfl

theorem wireSource_lacking {id : Id} (hslot : slot ∉ t.sourceSlots) :
    wireSource slot (some id) action (t.wired values) context state =
      .error (.operandSlotMissing t.name slot.name action) state := by
  have hop : (t.wired values).source? slot = none := by
    simpa using mt Template.source?_wired.1 hslot
  simp only [wireSource, hop]
  rfl

theorem wireSource_absent (hslot : slot ∉ t.sourceSlots) :
    wireSource slot none action (t.wired values) context state = .ok (t.wired values) state := by
  have hop : (t.wired values).source? slot = none := by
    simpa using mt Template.source?_wired.1 hslot
  simp only [wireSource, hop]
  rfl

theorem wireImmediate_given (ht : t.Typed) {v : Int} (hslot : .imm ∈ t.sourceSlots) :
    wireImmediate (some v) action (t.wired values) context state =
      .ok (t.wired (Function.update values .imm (.imm v))) state := by
  simp only [wireImmediate, (Template.hasImmediate_wired ht).2 hslot, Lower.withImmediate,
    Template.setImmediate_wired ht, if_pos hslot]
  rfl

/-- A shift amount has five bits, any other immediate eleven, and both have two at least. -/
theorem wireImmediate_open (ht : t.Typed) (hslot : .imm ∈ t.sourceSlots) :
    ∃ v random, 3 ≤ v ∧ v ≤ greatestDrawn t ∧
      wireImmediate none action (t.wired values) context state =
        .ok (t.wired (Function.update values .imm (.imm v))) { state with random } := by
  have hdraw : (Draw.width (if t.name ∈ shiftImmediates then 5 else 11) 2).Total
      fun v => 3 ≤ v ∧ v ≤ greatestDrawn t := by
    unfold greatestDrawn
    split <;> exact Draw.width_between (by decide) (by decide)
  obtain ⟨v, random, hrun, hlow, hhigh⟩ := hdraw state.random
  refine ⟨v, random, hlow, hhigh, ?_⟩
  simp only [wireImmediate, (Template.hasImmediate_wired ht).2 hslot]
  refine (Lower.bind_of_ok (Lower.draw_ok.2 ⟨random, hrun, rfl⟩)).trans ?_
  simp only [Lower.withImmediate, Template.setImmediate_wired ht, if_pos hslot]
  rfl

theorem wireImmediate_lacking (ht : t.Typed) {v : Int} (hslot : .imm ∉ t.sourceSlots) :
    wireImmediate (some v) action (t.wired values) context state =
      .error (.operandSlotMissing t.name Slot.imm.name action) state := by
  have hnone : (t.wired values).hasImmediate = false := by
    simpa using mt (Template.hasImmediate_wired ht).1 hslot
  simp only [wireImmediate, hnone]
  rfl

theorem wireImmediate_absent (ht : t.Typed) (hslot : .imm ∉ t.sourceSlots) :
    wireImmediate none action (t.wired values) context state = .ok (t.wired values) state := by
  have hnone : (t.wired values).hasImmediate = false := by
    simpa using mt (Template.hasImmediate_wired ht).1 hslot
  simp only [wireImmediate, hnone]
  rfl

end Slots

namespace Wires

variable {done : List Slot} {ids ids' : FreshIds}

theorem start (a : Arithmetic) (t : Template) (ids : FreshIds) :
    a.Wires t [] ids ids fun _ => .unset where
  given := by simp
  fresh := ⟨fun _ => "", .refl ids, by simp⟩
  drawn := by simp
  unset _ _ := rfl

/-- What is wired already stays when one more slot is. The new values are told apart by slot. -/
theorem wire {last : FreshIds} (h : a.Wires t done ids ids' values) (hslot : slot ∉ done)
    (hgiven : ∀ v ∈ a.given slot, slot ∈ t.sourceSlots ∧ value = v)
    (hdrawn : slot = .imm → .imm ∈ t.sourceSlots → a.imm = none →
      ∃ v, value = .imm v ∧ 3 ≤ v ∧ v ≤ greatestDrawn t)
    (hfresh : ∃ name : Slot → Id,
      ids.Adds last (((done ++ [slot]).filter (a.Opens t ·)).map name) ∧
        (∀ other ∈ done, a.Opens t other → values other = .virtual (name other)) ∧
        (a.Opens t slot → value = .virtual (name slot))) :
    a.Wires t (done ++ [slot]) ids last (Function.update values slot value) := by
  have hkeeps : ∀ other ∈ done, Function.update values slot value other = values other :=
    fun other hother => Function.update_of_ne (by rintro rfl; exact hslot hother) _ _
  constructor
  · intro other hother v hv
    rcases List.mem_append.1 hother with hother | hother
    · rw [hkeeps other hother]
      exact h.given other hother v hv
    · obtain rfl := List.mem_singleton.1 hother
      rw [Function.update_self]
      exact hgiven v hv
  · obtain ⟨name, hadds, hbefore, hlast⟩ := hfresh
    refine ⟨name, hadds, fun other hother hopen => ?_⟩
    rcases List.mem_append.1 hother with hother | hother
    · rw [hkeeps other hother]
      exact hbefore other hother hopen
    · obtain rfl := List.mem_singleton.1 hother
      rw [Function.update_self]
      exact hlast hopen
  · intro himm hsource hnone
    rcases List.mem_append.1 himm with himm | himm
    · rw [hkeeps _ himm]
      exact h.drawn himm hsource hnone
    · obtain rfl := List.mem_singleton.1 himm
      rw [Function.update_self]
      exact hdrawn rfl hsource hnone
  · intro other hother
    rw [List.mem_append, List.mem_singleton, not_or] at hother
    rw [Function.update_of_ne hother.2]
    exact h.unset other hother.1

theorem set (h : a.Wires t done ids ids' values) (hslot : slot ∉ done) (hopens : ¬ a.Opens t slot)
    (hgiven : ∀ v ∈ a.given slot, slot ∈ t.sourceSlots ∧ value = v)
    (hdrawn : slot = .imm → .imm ∈ t.sourceSlots → a.imm = none →
      ∃ v, value = .imm v ∧ 3 ≤ v ∧ v ≤ greatestDrawn t) :
    a.Wires t (done ++ [slot]) ids ids' (Function.update values slot value) := by
  obtain ⟨name, hadds, hname⟩ := h.fresh
  have hsame : (done ++ [slot]).filter (a.Opens t ·) = done.filter (a.Opens t ·) := by
    simp [List.filter_append, hopens]
  exact h.wire hslot hgiven hdrawn ⟨name, hsame ▸ hadds, hname, fun hopen => absurd hopen hopens⟩

theorem own (h : a.Wires t done ids ids' values) (hslot : slot ∉ done) (hopens : a.Opens t slot) :
    a.Wires t (done ++ [slot]) ids (IdRequest.value.next ids').2
      (Function.update values slot (.virtual (IdRequest.value.next ids').1)) := by
  obtain ⟨name, hadds, hname⟩ := h.fresh
  have hkeeps : ∀ other ∈ done,
      Function.update name slot (IdRequest.value.next ids').1 other = name other :=
    fun other hother => Function.update_of_ne (by rintro rfl; exact hslot hother) _ _
  refine h.wire hslot (by simp [hopens.2.2]) (fun himm => absurd himm hopens.1)
    ⟨Function.update name slot (IdRequest.value.next ids').1, ?_, fun other hother hopen => ?_, ?_⟩
  · have hsame : (done.filter (a.Opens t ·)).map
        (Function.update name slot (IdRequest.value.next ids').1) =
          (done.filter (a.Opens t ·)).map name :=
      List.map_congr_left fun other hother => hkeeps other (List.mem_filter.1 hother).1
    have hnew := hadds.append (FreshIds.Adds.next .value ids')
    simpa [List.filter_append, hopens, hsame] using hnew
  · rw [hkeeps other hother]
    exact hname other hother hopen
  · rw [Function.update_self]
    exact fun _ => rfl

theorem skip (h : a.Wires t done ids ids' values) (hslot : slot ∉ done)
    (habsent : slot ∉ t.sourceSlots) (hnone : a.given slot = none) :
    a.Wires t (done ++ [slot]) ids ids' values := by
  have hset : a.Wires t (done ++ [slot]) ids ids' (Function.update values slot .unset) :=
    h.set hslot (fun hopens => habsent hopens.2.1) (by simp [hnone])
      fun himm hsource => absurd (himm ▸ hsource) habsent
  rwa [← h.unset slot hslot, Function.update_eq_self] at hset

theorem source (context : Context) (state : State) (action : String)
    (h : a.Wires t done ids state.ids values) (hslot : slot ∉ done) (himm : slot ≠ .imm)
    (hsrc : a.given slot = src.map .virtual) (hlacks : ¬ a.Lacks t slot) :
    ∃ values' s', wireSource slot src action (t.wired values) context state =
        .ok (t.wired values') s' ∧ a.Wires t (done ++ [slot]) ids s'.ids values' := by
  by_cases hsource : slot ∈ t.sourceSlots
  · cases src with
    | some id =>
      refine ⟨_, _, wireSource_given hsource, h.set hslot ?_ ?_ fun heq => absurd heq himm⟩
      · rintro ⟨_, _, hnone⟩
        rw [hnone] at hsrc
        cases hsrc
      · intro v hv
        rw [hsrc] at hv
        exact ⟨hsource, Option.some.inj hv⟩
    | none => exact ⟨_, _, wireSource_open hsource, h.own hslot ⟨himm, hsource, hsrc⟩⟩
  · cases src with
    | some id => exact absurd ⟨by simp [hsrc], hsource⟩ hlacks
    | none => exact ⟨_, _, wireSource_absent hsource, h.skip hslot hsource hsrc⟩

theorem immediate (context : Context) (state : State) (action : String)
    (h : a.Wires t done ids state.ids values) (ht : t.Typed) (hslot : .imm ∉ done)
    (hlacks : ¬ a.Lacks t .imm) :
    ∃ values' s', wireImmediate a.imm action (t.wired values) context state =
        .ok (t.wired values') s' ∧ a.Wires t (done ++ [.imm]) ids s'.ids values' := by
  have hgiven : a.given .imm = a.imm.map .imm := rfl
  have hopens : ¬ a.Opens t .imm := fun hopens => hopens.1 rfl
  by_cases hsource : .imm ∈ t.sourceSlots
  · cases himm : a.imm with
    | some v =>
      rw [himm] at hgiven
      refine ⟨_, _, wireImmediate_given ht hsource, h.set hslot hopens ?_ fun _ _ hnone => ?_⟩
      · intro value hvalue
        rw [hgiven] at hvalue
        exact ⟨hsource, Option.some.inj hvalue⟩
      · rw [himm] at hnone
        cases hnone
    | none =>
      obtain ⟨v, random, hlow, hhigh, hrun⟩ := wireImmediate_open ht hsource
      exact ⟨_, _, hrun, h.set hslot hopens (by simp [hgiven, himm])
        fun _ _ _ => ⟨v, rfl, hlow, hhigh⟩⟩
  · cases himm : a.imm with
    | some v => exact absurd ⟨by simp [hgiven, himm], hsource⟩ hlacks
    | none =>
      exact ⟨_, _, wireImmediate_absent ht hsource, h.skip hslot hsource (by simp [hgiven, himm])⟩

end Wires

theorem Lacks.source (h : a.Lacks t slot) (hsrc : a.given slot = src.map .virtual) :
    wireSource slot src action (t.wired values) context state =
      .error (.operandSlotMissing t.name slot.name action) state := by
  obtain ⟨hgiven, hslot⟩ := h
  cases src with
  | some id => exact wireSource_lacking hslot
  | none => simp [hsrc] at hgiven

theorem Lacks.immediate (h : a.Lacks t .imm) (ht : t.Typed) :
    wireImmediate a.imm action (t.wired values) context state =
      .error (.operandSlotMissing t.name Slot.imm.name action) state := by
  obtain ⟨hgiven, hslot⟩ := h
  cases himm : a.imm with
  | some v => exact wireImmediate_lacking ht hslot
  | none => simp [given, himm] at hgiven

theorem template_uses (a : Arithmetic) (context : Context) (state : State) :
    ((∀ u ∈ context.catalog.templates, a.op ≠ some u.name ∧ ¬ a.filter.Matches u.instruction) ∧
      a.template context state = .error (.noCandidates a.filter) state) ∨
    ∃ t random, a.Uses context.catalog t ∧
      a.template context state = .ok t.instruction { state with random } := by
  cases hfind : a.op.bind context.catalog.find? with
  | some t =>
    obtain ⟨opcode, hop, ht⟩ := Option.bind_eq_some_iff.1 hfind
    obtain ⟨hmem, rfl⟩ := Catalog.find?_eq_some.1 ht
    refine .inr ⟨t, state.random, .pinned hmem hop, ?_⟩
    refine (Lower.bind_of_ok (Lower.read_ok.2 ⟨rfl, rfl⟩)).trans ?_
    simp only [hfind]
    rfl
  | none =>
    have hnone : ∀ u ∈ context.catalog.templates, a.op ≠ some u.name := by
      intro u hu hop
      rw [hop, Option.bind_some, Catalog.find?_eq_some.2 ⟨hu, rfl⟩] at hfind
      cases hfind
    have hmatches (u : Template) (hu : u ∈ context.catalog.templates) :
        a.filter.Matches u.instruction ↔ u ∈ context.catalog.filter a.filter := by
      rw [Catalog.filter, List.mem_filter, TemplateFilter.accepts_iff]
      exact (and_iff_right hu).symm
    have hchoose : a.template context state =
        Lower.chooseFrom (context.catalog.filter a.filter) a.filter context state := by
      refine (Lower.bind_of_ok (Lower.read_ok.2 ⟨rfl, rfl⟩)).trans ?_
      simp only [hfind]
      rfl
    rw [hchoose]
    by_cases hempty : context.catalog.filter a.filter = []
    · refine .inl ⟨fun u hu => ⟨hnone u hu, fun h => ?_⟩, ?_⟩
      · simpa [hempty] using (hmatches u hu).1 h
      · rw [hempty]
        rfl
    · obtain ⟨t, ht, random, hrun⟩ := Draw.choice_ok hempty state.random
      have hmem : t ∈ context.catalog.templates := (List.mem_filter.1 ht).1
      refine .inr ⟨t, random, .drawn hnone hmem ((hmatches t hmem).2 ht), ?_⟩
      exact Lower.bind_of_ok (Lower.draw_ok.2 ⟨random, hrun, rfl⟩)

/-- What selection of an arithmetic action comes to over any declared catalog. -/
theorem select_wires {specs : List TemplateSpec} {xlen : Xlen}
    (hcatalog : Catalog.ofSpecs specs xlen = .ok context.catalog) (a : Arithmetic) (action : String)
    (state : State) :
    ((∀ u ∈ context.catalog.templates, a.op ≠ some u.name ∧ ¬ a.filter.Matches u.instruction) ∧
      a.select action context state = .error (.noCandidates a.filter) state) ∨
    ∃ t, a.Uses context.catalog t ∧
      ((∃ slot s', (a.lacking t).head? = some slot ∧ a.select action context state =
          .error (.operandSlotMissing t.name slot.name action) s') ∨
        ∃ values s', a.lacking t = [] ∧ a.select action context state = .ok (t.wired values) s' ∧
          a.Wires t wiredSlots state.ids s'.ids values) := by
  rcases template_uses a context state with ⟨hnone, hrun⟩ | ⟨t, random, huses, htemplate⟩
  · refine .inl ⟨hnone, ?_⟩
    rw [select, Lower.bind_error]
    exact .inl hrun
  refine .inr ⟨t, huses, ?_⟩
  have ht : t.Typed := by
    cases huses with
    | pinned hmem _ => exact Catalog.ofSpecs_typed hcatalog t hmem
    | drawn _ hmem _ => exact Catalog.ofSpecs_typed hcatalog t hmem
  have hrs3 : ¬ a.Lacks t .rs3 := by simp [Lacks, given]
  have hstart := Wires.start a t state.ids
  rw [Template.instruction_eq_wired] at htemplate
  rw [select, Lower.bind_of_ok htemplate]
  by_cases hrs1 : a.Lacks t .rs1
  · exact .inl ⟨.rs1, _, by simp [lacking, wiredSlots, hrs1],
      Lower.bind_error.2 (.inl (hrs1.source rfl))⟩
  obtain ⟨values, s₁, hrun, hwired⟩ := Wires.source context
    { state with random } action hstart (by simp) (by simp) rfl hrs1
  rw [Lower.bind_of_ok hrun]
  by_cases hrs2 : a.Lacks t .rs2
  · exact .inl ⟨.rs2, _, by simp [lacking, wiredSlots, hrs1, hrs2],
      Lower.bind_error.2 (.inl (hrs2.source rfl))⟩
  obtain ⟨values, s₂, hrun, hwired⟩ := Wires.source context s₁ action hwired (by simp) (by simp) rfl
    hrs2
  rw [Lower.bind_of_ok hrun]
  by_cases himm : a.Lacks t .imm
  · exact .inl ⟨.imm, _, by simp [lacking, wiredSlots, hrs1, hrs2, himm],
      Lower.bind_error.2 (.inl (himm.immediate ht))⟩
  obtain ⟨values, s₃, hrun, hwired⟩ := Wires.immediate context s₂ action hwired ht (by simp) himm
  rw [Lower.bind_of_ok hrun]
  have hnone : a.given .rs3 = (none : Option Id).map .virtual := rfl
  obtain ⟨values, s₄, hrun, hwired⟩ := Wires.source context s₃ action hwired (by simp) (by simp)
    hnone hrs3
  exact .inr ⟨values, s₄, by simp [lacking, wiredSlots, hrs1, hrs2, himm, hrs3], hrun, hwired⟩

/-- A pinned multiply-add of which one factor is given. -/
def sharedFactor : Arithmetic := { op := some "fmadd.s", src2 := some "factor" }

theorem sharedFactor_wires : Catalog.ofSpecs Catalog.builtinSpecs .rv64 = .ok .rv64 ∧
    ∃ t, sharedFactor.Uses .rv64 t ∧ t.name = "fmadd.s" ∧ ∃ values s',
      sharedFactor.select "sum" (standardContext .rv64) zeroState = .ok (t.wired values) s' ∧
        sharedFactor.Wires t wiredSlots zeroState.ids s'.ids values := by
  have hok : ((sharedFactor.select "sum").result? (standardContext .rv64) zeroState).map
      Instruction.name = some "fmadd.s" := by decide +kernel
  obtain ⟨i, hi, hname⟩ := Option.map_eq_some_iff.1 hok
  obtain ⟨last, hrun⟩ := Lower.result?_eq_some.1 hi
  have hcatalog : Catalog.ofSpecs Catalog.builtinSpecs .rv64 = .ok (standardContext .rv64).catalog :=
    Catalog.builtin_rv64
  refine ⟨Catalog.builtin_rv64, ?_⟩
  rcases select_wires hcatalog sharedFactor "sum" zeroState with
    ⟨_, hfail⟩ | ⟨t, huses, ⟨_, _, _, hfail⟩ | ⟨values, s', _, hsome, hwired⟩⟩
  · rw [hrun] at hfail
    cases hfail
  · rw [hrun] at hfail
    cases hfail
  · rw [hrun] at hsome
    cases hsome
    exact ⟨t, huses, hname, values, last, hrun, hwired⟩

end Arithmetic

end PlanLowering
