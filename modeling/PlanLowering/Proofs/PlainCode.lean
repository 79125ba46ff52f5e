import PlanLowering.Proofs.Expandable
import PlanLowering.Proofs.OrdinaryCode
import PlanLowering.Proofs.PlainActions
import PlanLowering.Proofs.TypedSources

/-!
# Legal code of plain actions

Plain actions that were expanded get their instructions, and the instructions keep the order of the
actions. That is what legalization asks for: no instruction is read as a value before it is there,
so no id that is made up for a source turns up again.
-/

namespace PlanLowering

open FreshIds (Numbers Below)

variable {context : Context} {s s' : State} {pages : Id → Prop} {low low' high high' : Nat}
variable {a b : Action} {i j o : Instruction} {actions : List Action} {code out : List Instruction}
variable {catalog : Catalog} {op : Op} {id consumer : Id} {t : Template} {xlen : Xlen}

section Select

/-- The instruction of an action: its own template, under the action's id. -/
structure Instruction.Serves (catalog : Catalog) (low high : Nat) (a : Action) (i : Instruction) :
    Prop where
  id : i.id = a.id
  native : i.form = .native
  shaped : ∃ t ∈ catalog.templates, i.Shaped t
  reads : ∀ y ∈ i.virtualSources, y ∈ a.reads ∨ Numbers low high y
  makes : a.Makes → i.Defines a.id

theorem Instruction.Serves.widen (h : i.Serves catalog low high a) (hlow : low' ≤ low)
    (hhigh : high ≤ high') : i.Serves catalog low' high' a :=
  { h with reads := fun y hy => (h.reads y hy).imp_right (·.mono hlow hhigh) }

/-- The destination that selection left open becomes the action's own value. -/
theorem Instruction.Draws.serves {opcode : String} {expanded : Bool}
    (h : i.Draws catalog op opcode .unset low high) (hmakes : op.Makes → i.destination.isSome) :
    (Action.openDestination id { i with id }).Serves catalog low high (.simple id expanded op) := by
  obtain ⟨t, ht, _, hshaped⟩ := h.shaped
  constructor
  case id => rfl
  case native => exact h.native
  case shaped =>
    refine ⟨t, ht, ⟨?_, hshaped.sources⟩⟩
    rw [← hshaped.destination, Action.openDestination, Option.map_map]
    congr 1
    funext o
    dsimp only [Function.comp]
    split <;> rfl
  case reads =>
    intro y hy
    obtain ⟨o, ho, hvalue⟩ := List.mem_filterMap.1 hy
    have hsupplies := h.sources o ho
    rw [Operand.value_of_virtual hvalue] at hsupplies
    exact hsupplies.of_virtual
  case makes =>
    intro hop
    obtain ⟨o, ho⟩ := Option.isSome_iff_exists.1 (hmakes hop)
    have hunset : o.value = .unset := h.target o ho
    have hfield := hshaped.destination
    rw [ho, Option.map_some, eq_comm, Option.map_eq_some_iff] at hfield
    obtain ⟨file, _, hfield⟩ := hfield
    have htype : o.type = .register file := (congrArg Prod.snd hfield).symm
    have hopen : o.type.isRegister ∧ o.value = .unset := ⟨by rw [htype]; rfl, hunset⟩
    simp only [Defines, virtualDestination?, Action.openDestination, ho, Option.map_some,
      if_pos hopen, Option.bind_some]
    rw [Operand.virtual?, htype]
    rfl

open Lower

variable (hstock : context.catalog.Stocked xlen)
include hstock

/-- An instruction of the catalog, whose inputs the action supplies. -/
theorem Op.select_draws {action : String} (hop : op.Plain)
    (h : op.select id action context s = .ok i s') : ∃ opcode,
      i.Draws context.catalog op opcode .unset s.ids.values s'.ids.values := by
  cases op with
  | arithmetic a =>
    obtain ⟨opcode, _, hdraws⟩ := Arithmetic.select_draws hstock.typed h
    exact ⟨opcode, hdraws⟩
  | load access =>
    obtain ⟨opcode, _, hdraws⟩ := Access.selectLoad_draws hstock.typed h
    exact ⟨opcode, hdraws⟩
  | store access value =>
    obtain ⟨opcode, _, hdraws⟩ := Access.selectStore_draws hstock.typed h
    exact ⟨opcode, hdraws⟩
  | li v => exact ⟨"li", selectLi_draws hstock.typed h⟩
  | _ => exact hop.elim

theorem Action.selectAll_succeeds (hactions : ∀ a ∈ actions, a.Plain low ∧ a.isExpanded)
    (h : s.Offers pages) : (selectAll actions).Succeeds context s fun code s' =>
      s'.Offers pages ∧ s.ids.values ≤ s'.ids.values ∧
        List.Forall₂ (fun a i => i.Serves context.catalog s.ids.values s'.ids.values a)
          actions code := by
  induction actions generalizing s with
  | nil => exact succeeds_pure.2 ⟨h, Nat.le_refl _, .nil⟩
  | cons a rest ih =>
    obtain ⟨⟨ha, hexpanded⟩, hrest⟩ := List.forall_mem_cons.1 hactions
    obtain @⟨id, expanded, op, hop, hbased, _, _, _⟩ := ha
    simp only [selectAll, select, succeeds_bind, succeeds_pure]
    refine (op.select_succeeds hstock hop (hbased hexpanded) h).attach.mono ?_
    rintro i next ⟨hrun, hnext, hmakes⟩
    obtain ⟨opcode, hdraws⟩ := op.select_draws hstock hop hrun
    refine (ih hrest hnext).mono ?_
    rintro code s' ⟨hoffers, hle, hserves⟩
    refine ⟨hoffers, hdraws.ordered.trans hle, .cons ?_ ?_⟩
    · exact (hdraws.serves hmakes).widen (Nat.le_refl _) hle
    · exact hserves.imp fun _ _ h => h.widen hdraws.ordered (Nat.le_refl _)

end Select

section Order

structure Instruction.Precedes (i j : Instruction) : Prop where
  apart : j.id ≠ i.id
  unread : j.id ∉ i.virtualSources
  made : i.id ∈ j.virtualSources → i.Defines i.id

theorem Instruction.Serves.precedes (hi : i.Serves catalog low high a)
    (hj : j.Serves catalog low high b) (ha : a.Plain low) (hb : b.Plain low) (h : a.Precedes b) :
    i.Precedes j := by
  obtain ⟨hiid, _, _, hireads, himakes⟩ := hi
  obtain ⟨hjid, _, _, hjreads, _⟩ := hj
  constructor
  · rw [hiid, hjid]
    exact h.apart
  · rw [hjid]
    intro hmem
    exact (hireads _ hmem).elim h.unread hb.below.not_numbers
  · rw [hiid]
    intro hmem
    exact himakes (h.made ((hjreads _ hmem).resolve_right ha.below.not_numbers))

theorem Instruction.pairwise_precedes (hactions : Action.Orderly low actions)
    (h : List.Forall₂ (fun a i => i.Serves catalog low high a) actions code) :
    code.Pairwise Precedes := by
  obtain ⟨hplain, horder⟩ := hactions
  induction h with
  | nil => exact .nil
  | @cons a i rest more hi hrest ih =>
    obtain ⟨ha, hplain⟩ := List.forall_mem_cons.1 hplain
    obtain ⟨hafter, horder⟩ := List.pairwise_cons.1 horder
    refine List.pairwise_cons.2 ⟨fun j hj => ?_, ih hplain horder⟩
    obtain ⟨b, hb, hserves⟩ := exists_of_forall₂ hrest hj
    exact hi.precedes hserves ha (hplain b hb) (hafter b hb)

/-- In ordered code a source that is the id of an instruction above is defined by it. -/
theorem readsNoName_of_pairwise {known named : Id → Prop}
    (h : code.Pairwise Instruction.Precedes)
    (hnamed : ∀ i ∈ code, ∀ id ∈ i.virtualSources, named id → known id) :
    ReadsNoName known named code := by
  induction code generalizing known named with
  | nil => trivial
  | cons i rest ih =>
    obtain ⟨hown, hrest⟩ := List.forall_mem_cons.1 hnamed
    obtain ⟨hafter, h⟩ := List.pairwise_cons.1 h
    refine ⟨hown, ih h fun j hj id hid hname => ?_⟩
    rcases hname with rfl | hname
    · exact .inl ((hafter j hj).made hid)
    · exact .inr (.inr (hrest j hj id hid hname))

end Order

section Legal

open Lower

variable (hstock : context.catalog.Stocked xlen)
include hstock

theorem Lower.randomValue_succeeds (h : s.Offers pages) :
    (randomValue id).Succeeds context s fun _ s' => s'.Offers pages := by
  refine (randomValue_loads hstock).mono ?_
  rintro _ _ ⟨_, random, rfl⟩
  exact h.random random

theorem Seen.materialize_succeeds {seen : Seen} {ids : List Id} (h : s.Offers pages) :
    (seen.materialize ids).Succeeds context s fun result s' =>
      s'.Offers pages ∧ ∀ id ∈ result.2.ids, id ∈ ids ∨ id ∈ seen.ids := by
  induction ids generalizing seen s with
  | nil => exact succeeds_pure.2 ⟨h, fun _ => .inr⟩
  | cons id rest ih =>
    unfold materialize
    split
    · exact (ih h).mono fun _ _ h => ⟨h.1, fun x hx => (h.2 x hx).imp_left (.tail _)⟩
    · simp only [succeeds_bind, succeeds_pure]
      refine (randomValue_succeeds hstock h).mono fun _ _ h => (ih h).mono ?_
      rintro _ _ ⟨h, hids⟩
      refine ⟨h, fun x hx => ?_⟩
      rcases hids x hx with hx | hx
      · exact .inl (.tail _ hx)
      · rcases List.mem_cons.1 hx with rfl | hx
        · exact .inl (.head _)
        · exact .inr hx

theorem Seen.resolve_succeeds {seen : Seen} (h : s.Offers pages)
    (hcode : code.Pairwise Instruction.Precedes) (hnew : ∀ i ∈ code, i.id ∉ seen.ids) :
    (seen.resolve code).Succeeds context s fun _ s' => s'.Offers pages := by
  induction code generalizing seen s with
  | nil => exact succeeds_pure.2 h
  | cons i rest ih =>
    obtain ⟨hi, hrest⟩ := List.forall_mem_cons.1 hnew
    obtain ⟨hafter, hcode⟩ := List.pairwise_cons.1 hcode
    obtain ⟨claimed, hclaim, hids⟩ : ∃ claimed, seen.claim i = .ok claimed ∧
        ∀ id ∈ claimed.ids, id = i.id ∨ id ∈ seen.ids := by
      unfold claim
      rw [if_neg hi]
      split
      · exact ⟨seen, rfl, fun _ => .inr⟩
      · exact ⟨_, rfl, fun _ => List.mem_cons.1⟩
    simp only [resolve, succeeds_bind, succeeds_pure, succeeds_ofExcept]
    refine ⟨claimed, hclaim, ?_⟩
    refine (materialize_succeeds hstock h).mono ?_
    rintro result s ⟨h, hmade⟩
    refine ih h hcode fun j hj hid => ?_
    rcases hmade j.id hid with hid | hid
    · exact (hafter j hj).unread hid
    · exact (hids j.id hid).elim (hafter j hj).apart (hrest j hj)

theorem Produced.cast_succeeds {source target : RegisterFile} (hfiles : source ≠ target)
    (h : s.Offers pages) :
    (cast source target id consumer).Succeeds context s fun _ s' => s'.Offers pages := by
  refine (cast_runs hstock hfiles).mono ?_
  rintro _ _ ⟨_, _, random, rfl⟩
  exact (h.next .value).random random

theorem Produced.castSources_succeeds {produced : Produced} {ops : List Operand}
    (h : s.Offers pages) :
    (castSources consumer produced ops).Succeeds context s fun _ s' => s'.Offers pages := by
  induction ops generalizing produced s with
  | nil => exact succeeds_pure.2 h
  | cons op rest ih =>
    unfold castSources
    cases hmismatch : produced.mismatch? op with
    | none =>
      simp only [succeeds_bind, succeeds_pure]
      exact ih h
    | some clash =>
      obtain ⟨id, source, target⟩ := clash
      have hfiles : source ≠ target := (mismatch_iff.1 hmismatch).2.2.2
      simp only [succeeds_bind, succeeds_pure]
      exact (cast_succeeds hstock hfiles h).mono fun _ _ h => ih h

theorem Produced.castAll_succeeds {produced : Produced} (h : s.Offers pages) :
    (castAll produced code).Succeeds context s fun _ s' => s'.Offers pages := by
  induction code generalizing produced s with
  | nil => exact succeeds_pure.2 h
  | cons i rest ih =>
    simp only [castAll, succeeds_bind, succeeds_pure]
    exact (castSources_succeeds hstock h).mono fun _ _ h => ih h

theorem legalize_succeeds (h : s.Offers pages) (hcode : code.Pairwise Instruction.Precedes) :
    (legalize code).Succeeds context s fun _ s' => s'.Offers pages := by
  simp only [legalize, resolveImmediates, insertCasts, succeeds_bind, succeeds_pure]
  exact (Seen.resolve_succeeds hstock h hcode (by simp)).mono fun _ _ h =>
    Produced.castAll_succeeds hstock h

end Legal

theorem Instruction.Recast.shaped (h : i.Recast o) (hi : i.Shaped t) : o.Shaped t := by
  obtain ⟨sources, hsources, rfl⟩ := h
  exact hi.rewire (Operand.recast_fields hsources)

theorem ordinary_of_legalize (htyped : ∀ t ∈ context.catalog.templates, t.Typed)
    (hcode : code.Pairwise Instruction.Precedes) (hnative : ∀ i ∈ code, i.form = .native)
    (hshaped : ∀ i ∈ code, ∃ t ∈ context.catalog.templates, i.Shaped t)
    (h : legalize code context s = .ok out s') : Ordinary context.catalog out := by
  have hlabels : BareLabels code := by
    intro i hi hpointer
    simp [Instruction.isPointerLabel, hnative i hi] at hpointer
  constructor
  case defined =>
    exact (legalize_definedFrom hlabels h).1 (readsNoName_of_pairwise hcode fun _ _ _ _ => id)
  case native =>
    intro o ho
    rcases mem_legalize htyped h ho with ⟨i, hi, _, _, rfl⟩ | ⟨_, _, haux⟩
    · exact hnative i hi
    · exact haux.native
  case shaped =>
    intro o ho
    rcases mem_legalize htyped h ho with ⟨i, hi, hrecast⟩ | ⟨_, _, haux⟩
    · obtain ⟨t, ht, hi⟩ := hshaped i hi
      exact ⟨t, ht, hrecast.shaped hi⟩
    · obtain ⟨t, ht, _, ho⟩ := haux.shaped
      exact ⟨t, ht, ho⟩

open Lower

theorem lowerRoutine_succeeds (hstock : context.catalog.Stocked context.environment.xlen)
    (hactions : Action.Orderly s.ids.values actions)
    (hready : ∀ b ∈ Action.pendingAll actions, b.Ready context.overflow pages) (h : s.Offers pages) :
    (lowerRoutine actions).Succeeds context s fun _ s' => s'.Offers pages := by
  simp only [lowerRoutine, succeeds_bind]
  refine (Action.expandAll_succeeds h hready).attach.mono ?_
  rintro expanded s₁ ⟨hrun, h⟩
  obtain ⟨horderly, hexpanded⟩ := Action.expandAll_orderly hactions hrun
  have hplain : ∀ a ∈ expanded, a.Plain s₁.ids.values ∧ a.isExpanded := fun a ha =>
    ⟨horderly.plain a ha, hexpanded a ha⟩
  refine (Action.selectAll_succeeds hstock hplain h).mono ?_
  rintro code s₂ ⟨h, _, hserves⟩
  have hcode := Instruction.pairwise_precedes horderly hserves
  refine (legalize_succeeds hstock h hcode).attach.mono ?_
  rintro out s₃ ⟨hrun, h⟩
  have hordinary : Ordinary context.catalog out := by
    refine ordinary_of_legalize hstock.typed hcode (fun i hi => ?_) (fun i hi => ?_) hrun
    · obtain ⟨a, _, ha⟩ := exists_of_forall₂ hserves hi
      exact ha.native
    · obtain ⟨a, _, ha⟩ := exists_of_forall₂ hserves hi
      exact ha.shaped
  exact allocate_succeeds hstock hordinary h

end PlanLowering
