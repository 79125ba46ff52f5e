import PlanLowering.Proofs.AssertionLabels

/-!
# Where the labels of assertions are

Every label that an allocated body goes to stands behind the instruction that goes there, and
nowhere else in the batch.
-/

namespace PlanLowering

variable {context : Context} {s t u : State} {id : Id} {op : Op} {a : Action} {action : String}
variable {actions out : List Action} {code code' body new : List Instruction} {i o : Instruction}
variable {ops ops' : List Operand} {value : OperandValue}

/-- The label in a slot for a branch target, or in one that the runtime is told of. -/
def Operand.goal? (op : Operand) : Option String :=
  match op.value with
  | .symbol name => if op.slot ∈ [Slot.offset, .fault, .resume] then some name else none
  | _ => none

namespace Instruction

/-- The label that the instruction is. -/
def marks (i : Instruction) : List String := if i.isLabel then [i.name] else []

/-- Labels that the instruction goes to, or tells the runtime of. -/
def goals (i : Instruction) : List String := i.sources.filterMap Operand.goal?

theorem marks_of_form (h : ∀ pointer, i.form ≠ .label pointer) : i.marks = [] := by
  unfold marks isLabel
  split
  · split at * <;> simp_all
  · rfl

structure SameLabels (i o : Instruction) : Prop where
  id : o.id = i.id
  marks : o.marks = i.marks
  goals : o.goals = i.goals

theorem SameLabels.trans {x : Instruction} (h : i.SameLabels o) (h' : o.SameLabels x) :
    i.SameLabels x :=
  ⟨h'.id.trans h.id, h'.marks.trans h.marks, h'.goals.trans h.goals⟩

structure Unlabelled (i : Instruction) : Prop where
  marks : i.marks = []
  goals : i.goals = []

end Instruction

open Instruction (SameLabels Unlabelled)

section Operands

theorem Operand.goal_of_unbound {op : Operand} (h : ∀ name, op.value ≠ .symbol name) :
    op.goal? = none := by
  unfold goal?
  split
  · next name hvalue => exact absurd hvalue (h name)
  · rfl

/-- No label comes in by wiring anything else. -/
theorem goals_setFirst {p : Operand → Bool} (hvalue : ∀ name, value ≠ .symbol name)
    (h : Instruction.setFirst p value ops = some ops') (hops : ∀ op ∈ ops, op.goal? = none) :
    ∀ op ∈ ops', op.goal? = none :=
  Instruction.forall_setFirst h hops fun _ _ _ => Operand.goal_of_unbound hvalue

theorem Template.goals_instruction (t : Template) : ∀ op ∈ t.instruction.sources, op.goal? = none := by
  intro op hop
  obtain ⟨_, _, rfl⟩ := List.mem_map.1 hop
  rfl

theorem Instruction.WiredFrom.unlabelled {t : Template} {source : Operand → Bool}
    (h : o.WiredFrom t source value id) (hvalue : ∀ name, value ≠ .symbol name) : o.Unlabelled := by
  obtain ⟨_, sources, _, hsources, rfl⟩ := h
  exact ⟨rfl, List.filterMap_eq_nil_iff.2 (goals_setFirst hvalue hsources t.goals_instruction)⟩

theorem Operand.Recast.goal {op op' : Operand} (h : op.Recast op') : op'.goal? = op.goal? := by
  rcases h with rfl | ⟨id, fresh, hid, rfl⟩
  · rfl
  · simp [goal?, value_of_virtual hid]

theorem Operand.Placed.goal {op op' : Operand} (h : op.Placed op') : op'.goal? = op.goal? := by
  unfold Placed at h
  split at h
  · rw [h]
  · next id hid =>
    obtain ⟨r, rfl⟩ := h
    simp [goal?, value_of_virtual hid]

theorem goals_of_forall₂ {R : Operand → Operand → Prop}
    (hR : ∀ op op', R op op' → op'.goal? = op.goal?) (h : List.Forall₂ R ops ops') :
    ops'.filterMap Operand.goal? = ops.filterMap Operand.goal? := by
  induction h with
  | nil => rfl
  | cons hop _ ih => rw [List.filterMap_cons, List.filterMap_cons, hR _ _ hop, ih]

end Operands

section Selection

theorem Op.select_goals (htyped : ∀ t ∈ context.catalog.templates, t.Typed)
    (h : op.select id action context s = .ok i t) : i.goals = op.goal?.toList := by
  by_cases hcompare : ∃ relation lhs rhs pass, op = .compare relation lhs rhs pass
  · obtain ⟨relation, lhs, rhs, pass, rfl⟩ := hcompare
    cases select_ok h with
    | compare h₀ hlhs hrhs hoffset =>
      obtain ⟨branch, _, rfl⟩ := Catalog.instruction_ok.1 (Lower.instruction_ok.1 h₀).1
      obtain ⟨first, hfirst, rfl⟩ := Lower.withSource_ok hlhs
      obtain ⟨second, hsecond, rfl⟩ := Lower.withSource_ok hrhs
      obtain ⟨third, hthird, rfl⟩ := Lower.withSource_ok hoffset
      have hnone := goals_setFirst (by simp) hsecond
        (goals_setFirst (by simp) hfirst branch.goals_instruction)
      obtain ⟨front, found, back, rfl, _, hslot, rfl⟩ := Instruction.setFirst_eq_some hthird
      simp only [List.mem_append, List.mem_cons, decide_eq_true_eq] at hnone hslot
      have hfront : front.filterMap Operand.goal? = [] :=
        List.filterMap_eq_nil_iff.2 fun op hop => hnone op (.inl hop)
      have hback : back.filterMap Operand.goal? = [] :=
        List.filterMap_eq_nil_iff.2 fun op hop => hnone op (.inr (.inr hop))
      simp [Instruction.goals, hfront, hback, Operand.goal?, hslot, goal?]
  · have hgoal : op.goal? = none := by
      cases op <;> first | rfl | exact absurd ⟨_, _, _, _, rfl⟩ hcompare
    have hsupplied : ∀ {opcode low high} {o : Operand},
        op.Supplies low high opcode o.slot o.value → o.goal? = none := by
      intro opcode low high o ho
      obtain ⟨slot, type, value⟩ := o
      cases ho with
      | symbol hslot => rcases hslot with rfl | rfl <;> rfl
      | pass hop => exact absurd ⟨_, _, _, _, hop⟩ hcompare
      | _ => rfl
    rw [hgoal, Option.toList_none, Instruction.goals, List.filterMap_eq_nil_iff]
    cases select_selected htyped h with
    | plain _ hdraws | toT2 _ hdraws | call hdraws => exact fun o ho => hsupplied (hdraws.sources o ho)
    | @csr csr access direct => cases access <;> simp [Instruction.csrDirective, Operand.goal?]
    | @pte target write paging => cases write <;> simp [PteTarget.directive, Operand.goal?]
    | label => simp [Instruction.label]
    | comment => simp [Instruction.comment]

theorem Op.select_marks (h : op.select id action context s = .ok i t) :
    i.marks = op.mark?.toList := by
  cases op with
  | label name pointer =>
    cases select_ok h
    rfl
  | csrRead csr direct | csrWrite w =>
    refine Instruction.marks_of_form fun pointer => ?_
    rw [select_form h, form]
    split <;> simp
  | _ =>
    refine Instruction.marks_of_form fun pointer => ?_
    rw [select_form h]
    simp [form]

/-- What the instruction of an expanded action goes to: a comparison to one label, the directive of an
exception assertion to two, any other to none. -/
def Action.Targets : Action → List String → Prop
  | .simple _ _ (.compare ..), goals => ∃ pass, goals = [pass]
  | .block _ _ (.assertException ..) _, goals => ∃ fault resume, goals = [fault, resume]
  | _, goals => goals = []

abbrev pageLabel (id : Id) : List String := [id]

/-- The instruction of an expanded action has the action's id and its labels. -/
structure Action.Becomes (a : Action) (i : Instruction) : Prop where
  id : i.id = a.id
  marks : i.marks = a.marks pageLabel
  goals : i.goals = a.goals
  targets : a.Targets i.goals

theorem Action.select_becomes (htyped : ∀ t ∈ context.catalog.templates, t.Typed)
    (ha : a.isExpanded) (h : a.select context s = .ok i t) : a.Becomes (openDestination a.id i) := by
  cases a with
  | simple id expanded op =>
    obtain rfl : expanded = true := ha
    obtain ⟨j, hj, rfl⟩ := select_simple_ok h
    have hgoals : j.goals = op.goal?.toList := Op.select_goals htyped hj
    refine ⟨rfl, (Op.select_marks hj).trans (marks_simple _ id true op).symm, hgoals, ?_⟩
    show (Action.simple id true op).Targets j.goals
    rw [hgoals]
    cases Op.select_ok hj with
    | @compare _ _ _ pass => exact ⟨pass, rfl⟩
    | _ => rfl
  | block id expanded owner code =>
    obtain rfl : expanded = true := ha
    obtain ⟨j, hj, _, rfl⟩ := select_block_ok h
    cases hj with
    | codePage =>
      exact ⟨rfl, by simp [Instruction.marks, openDestination, Instruction.isLabel, Instruction.label],
        rfl, rfl⟩
    | @assertException _ fault resume =>
      exact ⟨rfl, by simp [Instruction.marks, openDestination, Instruction.isLabel,
        ExceptionCause.directive], rfl, fault, resume, rfl⟩

theorem Action.selectAll_becomes (htyped : ∀ t ∈ context.catalog.templates, t.Typed)
    (hexpanded : ∀ a ∈ actions, a.isExpanded) (h : selectAll actions context s = .ok code t) :
    List.Forall₂ Becomes actions code := by
  have heach := (List.forall₂_and_left _ _).2 ⟨hexpanded, selectAll_each h⟩
  refine heach.imp fun a o ho => ?_
  obtain ⟨ha, i, _, _, hi, rfl⟩ := ho
  exact select_becomes htyped ha hi

end Selection

section Passes

variable {keeps : Instruction → Instruction → Prop}

structure Relabels (code out : List Instruction) : Prop where
  marks : out.flatMap Instruction.marks = code.flatMap Instruction.marks
  linked : Linked Instruction.marks Instruction.goals code →
    Linked Instruction.marks Instruction.goals out
  kept : ∀ i ∈ code, ∃ o ∈ out, i.SameLabels o

theorem Relabels.trans {x : List Instruction} (h : Relabels code code') (h' : Relabels code' x) :
    Relabels code x where
  marks := h'.marks.trans h.marks
  linked hcode := h'.linked (h.linked hcode)
  kept i hi := by
    obtain ⟨o, ho, hsame⟩ := h.kept i hi
    obtain ⟨x, hx, hsame'⟩ := h'.kept o ho
    exact ⟨x, hx, hsame.trans hsame'⟩

theorem Inserts.relabels (hkeeps : ∀ i o, keeps i o → i.SameLabels o)
    (hnew : ∀ o ∈ new, o.Unlabelled) (h : Inserts keeps code new code') : Relabels code code' := by
  induction h with
  | nil => exact ⟨rfl, id, by simp⟩
  | @kept i o code new out hsame _ ih =>
    obtain ⟨hmarks, hlinked, hkept⟩ := ih hnew
    have hsame := hkeeps i o hsame
    refine ⟨by rw [List.flatMap_cons, List.flatMap_cons, hsame.marks, hmarks], ?_, ?_⟩
    · rintro (_ | ⟨hgoals, hrest⟩)
      exact .cons (by rwa [hsame.goals, hmarks]) (hlinked hrest)
    · rw [List.forall_mem_cons]
      refine ⟨⟨o, List.mem_cons_self, hsame⟩, fun j hj => ?_⟩
      obtain ⟨o', ho', hsame'⟩ := hkept j hj
      exact ⟨o', List.mem_cons_of_mem _ ho', hsame'⟩
  | @new o code new out _ ih =>
    obtain ⟨hfirst, hrest⟩ := List.forall_mem_cons.1 hnew
    obtain ⟨hmarks, hlinked, hkept⟩ := ih hrest
    refine ⟨by rw [List.flatMap_cons, hfirst.marks, hmarks, List.nil_append], fun hcode => ?_, ?_⟩
    · exact .cons (hfirst.goals ▸ List.nil_subset _) (hlinked hcode)
    · intro j hj
      obtain ⟨o', ho', hsame'⟩ := hkept j hj
      exact ⟨o', List.mem_cons_of_mem _ ho', hsame'⟩

theorem Instruction.Recast.sameLabels (h : i.Recast o) : i.SameLabels o := by
  obtain ⟨sources, hsources, rfl⟩ := h
  exact ⟨rfl, rfl, goals_of_forall₂ (fun _ _ => Operand.Recast.goal) hsources⟩

theorem Instruction.Placed.sameLabels (h : i.Placed o) : i.SameLabels o where
  id := by rw [h.same]
  marks := by rw [h.same, marks, marks, isLabel, isLabel]
  goals := goals_of_forall₂ (fun _ _ => Operand.Placed.goal) h.sources

theorem legalize_relabels (h : legalize code context s = .ok code' t) : Relabels code code' := by
  obtain ⟨resolved, _, pieces, hresolved, hpieces, rfl⟩ := legalize_ok h
  obtain ⟨new, hinserts, hnew⟩ := Piece.precedes_inserts (Seen.resolve_precedes hresolved)
  obtain ⟨new', hinserts', hnew'⟩ := Piece.precedes_inserts (Produced.castAll_precedes hpieces)
  refine (hinserts.relabels ?_ fun o ho => ?_).trans (hinserts'.relabels ?_ fun o ho => ?_)
  · rintro i _ rfl
    exact ⟨rfl, rfl, rfl⟩
  · obtain ⟨_, _, id, _, t, value, _, hwired⟩ := hnew o ho
    exact hwired.unlabelled (by simp)
  · exact fun _ _ => Instruction.Recast.sameLabels
  · obtain ⟨_, _, id, _, fresh, _, _, t, _, hwired⟩ := hnew' o ho
    exact hwired.unlabelled (by simp)

theorem SpillCode.Makes.unlabelled {spill : SpillCode} (hspill : SpillCode.ofContext context = .ok spill)
    (h : spill.Makes o) : o.Unlabelled := by
  have hnone : ∀ {name : String} {i : Instruction}, context.catalog.instruction name = .ok i →
      ∀ op ∈ i.sources, op.goal? = none := by
    intro name i hi
    obtain ⟨t, _, rfl⟩ := Catalog.instruction_ok.1 hi
    exact t.goals_instruction
  refine ⟨Instruction.marks_of_form fun pointer => by rw [h.form hspill]; simp,
    List.filterMap_eq_nil_iff.2 ?_⟩
  cases h with
  | reload h =>
    simp only [SpillCode.reload, except_bind_ok, except_pure_ok, Instruction.setDestination_ok,
      Instruction.setSource_ok, Instruction.setImmediate_ok] at h
    obtain ⟨i, hi, _, ⟨_, _, rfl⟩, _, ⟨_, hbase, rfl⟩, _, ⟨_, himm, rfl⟩, rfl⟩ := h
    have hi := hnone (template_ok hspill hi)
    exact goals_setFirst (by simp) himm (goals_setFirst (by simp) hbase hi)
  | save h =>
    simp only [SpillCode.save, except_bind_ok, except_pure_ok, Instruction.setSource_ok,
      Instruction.setImmediate_ok] at h
    obtain ⟨i, hi, _, ⟨_, hvalue, rfl⟩, _, ⟨_, hbase, rfl⟩, _, ⟨_, himm, rfl⟩, rfl⟩ := h
    have hi := hnone (template_ok hspill hi)
    exact goals_setFirst (by simp) himm
      (goals_setFirst (by simp) hbase (goals_setFirst (by simp) hvalue hi))
  | moveStack h =>
    simp only [SpillCode.moveStack, except_bind_ok, except_pure_ok, Instruction.setDestination_ok,
      Instruction.setSource_ok, Instruction.setImmediate_ok] at h
    obtain ⟨_, ⟨_, _, rfl⟩, _, ⟨_, hbase, rfl⟩, _, ⟨_, himm, rfl⟩, rfl⟩ := h
    have hi := hnone (adjust_ok hspill).1
    exact goals_setFirst (by simp) himm (goals_setFirst (by simp) hbase hi)

theorem allocate_relabels (h : allocate {} code context s = .ok code' t) : Relabels code code' := by
  obtain ⟨a, _, _, _, h⟩ := allocate_ok h
  obtain ⟨spill, pieces, hspill, hsurrounds, hinserts, hframed⟩ := Allocation.apply_inserts h
  have hplaced : Relabels code (Piece.layout pieces) := by
    refine hinserts.relabels (fun _ _ => Instruction.Placed.sameLabels) fun o ho => ?_
    obtain ⟨p, hp, ho⟩ := List.mem_flatMap.1 ho
    obtain ⟨i, _, hsurrounds⟩ := exists_of_forall₂ hsurrounds hp
    rcases List.mem_append.1 ho with ho | ho
    · obtain ⟨_, _, r, slot, _, hreload⟩ := exists_of_forall₂ hsurrounds.before ho
      exact (SpillCode.Makes.reload hreload).unlabelled hspill
    · obtain ⟨_, _, r, slot, _, hsave⟩ := exists_of_forall₂ hsurrounds.after ho
      exact (SpillCode.Makes.save hsave).unlabelled hspill
  cases hframed with
  | absent => exact hplaced
  | present _ henter hleave hinserts' =>
    refine hplaced.trans (hinserts'.relabels ?_ ?_)
    · rintro i _ rfl
      exact ⟨rfl, rfl, rfl⟩
    · rw [List.forall_mem_cons]
      refine ⟨(SpillCode.Makes.moveStack henter).unlabelled hspill, fun o ho => ?_⟩
      obtain rfl := List.eq_of_mem_replicate ho
      exact (SpillCode.Makes.moveStack hleave).unlabelled hspill

end Passes

section Bodies

/-- Each expanded action has its instruction in the body, which goes to as many labels as it should. -/
structure Embodied (actions : List Action) (context : Context) (s : State) (body : List Instruction) :
    Prop where
  expands : ∃ out t, expandAll actions context s = .ok out t ∧
    ∀ a ∈ out, ∃ o ∈ body, o.id = a.id ∧ a.Targets o.goals

/-- An allocated body has the labels of its actions and new ones, and each is behind what goes to
it. -/
theorem lowerRoutine_labels (htyped : ∀ t ∈ context.catalog.templates, t.Typed)
    (hnew : ∀ b ∈ Action.postorderAll actions, b.isExpanded = false)
    (h : lowerRoutine actions context s = .ok body t) :
    (∃ new, s.ids.Adds t.ids new ∧
      (body.flatMap Instruction.marks).Perm (actions.flatMap (Action.marks pageLabel) ++ new)) ∧
    Linked Instruction.marks Instruction.goals body ∧ Embodied actions context s body := by
  obtain ⟨code, next, hcode, hallocate⟩ := lowerRoutine_ok.1 h
  simp only [legalizedCode, Lower.bind_ok] at hcode
  obtain ⟨out, x, hexpand, selected, y, hselect, hlegal⟩ := hcode
  have hworked := Action.expandAll_ok.1 hexpand
  have hexpanded := hworked.expanded
  have huntouched : ∀ a ∈ actions, a.Untouched ∧ a.isExpanded = false := by
    intro a ha
    have hdeep : ∀ b ∈ a.postorder, b.isExpanded = false :=
      fun b hb => hnew b (Action.mem_postorderAll.2 ⟨a, ha, hb⟩)
    exact ⟨fun _ => hdeep, hdeep a (Action.mem_postorder_self a)⟩
  obtain ⟨⟨new, hadds, hperm⟩, hlinked, _⟩ := hworked.marks
    (.of_goals_nil fun a ha => Action.goals_of_new (huntouched a ha).2)
    (fun a ha => (huntouched a ha).1)
  have hbecomes := Action.selectAll_becomes htyped hexpanded hselect
  have hrelabels := (legalize_relabels hlegal).trans (allocate_relabels hallocate)
  have hmarks : selected.flatMap Instruction.marks = out.flatMap (Action.marks pageLabel) :=
    flatMap_of_forall₂ (hbecomes.imp fun _ _ h => h.marks)
  have hkeeps : x.KeepsIds t := fun name hname =>
    Lower.allocate_moves (R := State.KeepsIds) _ _ _ _ _ _ hallocate name
      (Lower.legalize_moves (R := State.KeepsIds) _ _ _ _ _ hlegal name
        (Lower.selectAll_moves (R := State.KeepsIds) _ _ _ _ _ hselect name hname))
  refine ⟨⟨new, hadds.later hkeeps, ?_⟩, ?_, ⟨out, x, hexpand, fun a ha => ?_⟩⟩
  · rw [hrelabels.marks, hmarks]
    exact hperm
  · exact hrelabels.linked (hlinked.of_forall₂ (hbecomes.imp fun _ _ h => ⟨h.marks, h.goals⟩))
  · obtain ⟨i, hi, ha⟩ := exists_of_forall₂ hbecomes.flip ha
    obtain ⟨o, ho, hsame⟩ := hrelabels.kept i hi
    exact ⟨o, ho, hsame.id.trans ha.id, hsame.goals ▸ ha.targets⟩

end Bodies

namespace Program

variable {functions : List Action} {tests : List TestCase} {routine : Routine} {program : Program}
variable {routines : List Routine} {bodies : List (List Instruction)}

structure Labelled (ids ids' : FreshIds) (names : List String) (bodies : List (List Instruction)) :
    Prop where
  perm : ∃ new, ids.Adds ids' new ∧
    (bodies.flatMap fun body => body.flatMap Instruction.marks).Perm (names ++ new)
  linked : ∀ body ∈ bodies, Linked Instruction.marks Instruction.goals body

theorem Labelled.append {ids ids' ids'' : FreshIds} {names names' : List String}
    {bodies' : List (List Instruction)} (h : Labelled ids ids' names bodies)
    (h' : Labelled ids' ids'' names' bodies') :
    Labelled ids ids'' (names ++ names') (bodies ++ bodies') where
  perm := by
    rw [List.flatMap_append]
    exact FreshIds.Extends.append h.perm h'.perm
  linked body hbody := (List.mem_append.1 hbody).elim (h.linked body) (h'.linked body)

/-- The body of a routine, lowered in its turn. -/
def LowersTo (tests : List TestCase) (context : Context) (routine : Routine)
    (body : List Instruction) : Prop :=
  ∃ actions s t, Turn tests context routine actions s ∧
    lowerRoutine actions context s = .ok body t ∧ Embodied actions context s body

variable (htyped : ∀ t ∈ context.catalog.templates, t.Typed)
include htyped

theorem lowerFunctions_labels
    (hfunctions : ∀ f ∈ functions, f.marks pageLabel = [f.id] ∧ ∀ b ∈ f.postorder, b.isExpanded = false)
    (h : lowerFunctions functions context s = .ok routines t) :
    Labelled s.ids t.ids (functions.map Action.id) (routines.map Routine.instructions) ∧
      List.Forall₂ (fun f routine => ∃ before after lowered u out v,
        functions = before ++ f :: after ∧ lowerFunctions before context s = .ok lowered u ∧
        lowerRoutine [f] context u = .ok out v ∧ Embodied [f] context u out ∧
        routine = ⟨f.id, out⟩) functions routines := by
  simp only [lowerFunctions_ok] at h ⊢
  induction h with
  | done => exact ⟨⟨⟨[], .refl _, .refl _⟩, by simp⟩, .nil⟩
  | @next f rest s out next _ _ hout _ ih =>
    obtain ⟨⟨hmark, hnew⟩, hrest⟩ := List.forall_mem_cons.1 hfunctions
    obtain ⟨⟨new, hadds, hperm⟩, hlinked, hembodied⟩ :=
      lowerRoutine_labels htyped (by simpa [Action.postorderAll] using hnew) hout
    have hfirst : Labelled s.ids next.ids [f.id] [out] :=
      ⟨⟨new, hadds, by simpa [hmark] using hperm⟩, by simpa using hlinked⟩
    obtain ⟨hlater, hruns⟩ := ih hrest
    refine ⟨hfirst.append hlater, .cons ⟨[], rest, [], s, out, next, rfl, .done, hout, hembodied,
      rfl⟩ (hruns.imp ?_)⟩
    rintro g routine ⟨before, after, lowered, u, out', v, rfl, hbefore, hrun⟩
    exact ⟨f :: before, after, _, u, out', v, rfl, .next hout hbefore, hrun⟩

theorem lowerTests_labels
    (htests : ∀ test ∈ tests, test.actions.flatMap (Action.marks pageLabel) = [] ∧
      ∀ b ∈ test.order, b.isExpanded = false)
    (h : lowerTests tests context s = .ok routines t) :
    ∃ bodies, Labelled s.ids t.ids [] bodies ∧
      List.Forall₂ (fun routine body => ∃ before test after lowered u v w x,
        tests = before ++ test :: after ∧ lowerTests before context s = .ok lowered u ∧
        lowerTest test context u = .ok routine v ∧
        Lower.reserve .data s!"{test.name}_stack" (stackSpec context.options) context u = .ok () w ∧
        lowerRoutine test.actions context w = .ok body x ∧
        Embodied test.actions context w body) routines bodies := by
  simp only [lowerTests_ok] at h ⊢
  induction h with
  | done => exact ⟨[], ⟨⟨[], .refl _, .refl _⟩, by simp⟩, .nil⟩
  | @next first rest s own next _ _ hown _ ih =>
    obtain ⟨⟨hmarks, hnew⟩, hrest⟩ := List.forall_mem_cons.1 htests
    obtain ⟨c, hc, -⟩ := lowerTest_ok hown
    obtain ⟨opened, closed, label, hstack, hbody, hentry, -⟩ := hc.run
    obtain ⟨⟨new, hadds, hperm⟩, hlinked, hembodied⟩ := lowerRoutine_labels htyped hnew hbody
    obtain ⟨bodies, hlater, hruns⟩ := ih hrest
    have hids : opened.ids = s.ids := by
      obtain ⟨_, rfl⟩ := Lower.reserve_ok.1 hstack
      rfl
    rw [hids] at hadds
    have hkeeps := Lower.Moves.freshLabel (R := State.KeepsIds) _ _ _ _ hentry
    have hfirst : Labelled s.ids next.ids [] [c.body] :=
      ⟨⟨new, hadds.later hkeeps, by simpa [hmarks] using hperm⟩, by simpa using hlinked⟩
    refine ⟨c.body :: bodies, hfirst.append hlater, .cons ⟨[], first, rest, [], s, next, opened, closed,
      rfl, .done, hown, hstack, hbody, hembodied⟩ (hruns.imp ?_)⟩
    rintro routine out ⟨before, test, after, lowered, u, v, w, x, rfl, hbefore, hrun⟩
    exact ⟨first :: before, test, after, _, u, v, w, x, rfl, .next hown hbefore, hrun⟩

/-- Each label that a lowered body goes to stands behind the instruction that does, in the same body,
and is no other label of the batch. -/
theorem ofTests_labels {final : State} (hfresh : ∀ test ∈ tests, Action.areFresh test.actions)
    (h : ofTests tests context (.start context.options) = .ok program final) :
    ∃ bodies, List.Forall₂ (LowersTo tests context) (program.functions ++ program.tests) bodies ∧
      (bodies.flatMap fun body => body.flatMap Instruction.marks).Nodup ∧
      ∀ body ∈ bodies, Linked Instruction.marks Instruction.goals body := by
  obtain ⟨batch, s, t, u, v, hparts⟩ := exists_parts h
  have hcanonical := CanonicalBatch.canonical_of_run hparts.canonical
  obtain ⟨hfreshTests, hfreshFunctions⟩ := CanonicalBatch.ofTests_fresh hfresh hparts.canonical
  have hfunctions : ∀ f ∈ batch.functions,
      f.marks pageLabel = [f.id] ∧ ∀ b ∈ f.postorder, b.isExpanded = false := by
    intro f hf
    have hown := hfreshFunctions f hf
    refine ⟨?_, Action.not_expanded_of_fresh hown⟩
    obtain ⟨id, expanded, spec, code, rfl, hcode⟩ := hcanonical.functions_reserve_nothing f hf
    cases expanded with
    | true => cases hown
    | false =>
      have hempty : code.flatMap (Action.marks pageLabel) = [] :=
        Action.flatMap_marks_of_fresh (by simpa [Action.isFresh] using hown)
          fun _ _ _ _ hmem => absurd (hcode _ hmem) (by simp [Action.page?])
      simp [hempty, Action.id]
  have htests : ∀ test ∈ batch.tests, test.actions.flatMap (Action.marks pageLabel) = [] ∧
      ∀ b ∈ test.order, b.isExpanded = false := by
    intro test htest
    have hown := Action.areFresh_iff.2 (hfreshTests test htest)
    refine ⟨Action.flatMap_marks_of_fresh hown fun _ _ _ _ hmem => ?_,
      Action.not_expanded_of_areFresh hown⟩
    exact absurd (hcanonical.tests_reserve_nothing test htest _ hmem) (by simp [Action.page?])
  obtain ⟨hlabelled, hruns⟩ := lowerFunctions_labels htyped hfunctions hparts.functions
  obtain ⟨bodies, hlabelled', hruns'⟩ := lowerTests_labels htyped htests hparts.tests
  have hids : u.ids = t.ids := by
    obtain ⟨_, rfl⟩ := Lower.reserve_ok.1 hparts.storage
    rfl
  rw [hids] at hlabelled'
  obtain ⟨⟨new, hnew, hperm⟩, hlinked⟩ := hlabelled.append hlabelled'
  refine ⟨_, List.rel_append ?_ (hruns'.imp ?_), ?_, hlinked⟩
  · rw [List.forall₂_map_right_iff, List.forall₂_same]
    intro routine hroutine
    obtain ⟨f, _, before, after, lowered, x, out, _, hsplit, hbefore, hrun, hembodied, rfl⟩ :=
      exists_of_forall₂ hruns hroutine
    exact ⟨[f], x, _, .function hparts.canonical hsplit hbefore hrun, hrun, hembodied⟩
  · rintro routine body ⟨before, test, after, lowered, x, _, w, y, hsplit, hbefore, hrun, hstack, hbody,
      hembodied⟩
    exact ⟨test.actions, w, y, .test hparts.canonical hparts.functions hparts.storage hsplit hbefore
      hrun hstack, hbody, hembodied⟩
  · have hclaims := CanonicalBatch.ofTests_claims hparts.canonical
    have hgiven : s.PagesGiven := by
      have hrun := hparts.canonical
      rw [CanonicalBatch.ofTests_run (State.pagesGiven_start _)
        (CanonicalBatch.ofTests_nodup hrun)] at hrun
      cases hrun
      exact (State.pagesGiven_start _).claims _
    rw [hperm.nodup_iff, List.append_nil, List.nodup_append]
    refine ⟨hclaims.nodup, hnew.nodup, ?_⟩
    rintro name hname _ hother rfl
    exact hnew.fresh name hother (hgiven name (hclaims.held name hname))

omit htyped in
/-- Every label that a lowered body goes to, or tells the runtime of, is a label further on in this
body and no other label of any body in the batch. -/
theorem assertion_labels_resolve {specs : List TemplateSpec} {width : Xlen}
    {scenarios : List Scenario} (hcatalog : Catalog.ofSpecs specs width = .ok context.catalog)
    (h : lowerScenarios .standard context scenarios = .ok program) :
    ∃ tests bodies, buildTests .standard scenarios = .ok tests ∧
      List.Forall₂ (LowersTo tests context) (program.functions ++ program.tests) bodies ∧
      ∀ before i after, before ++ i :: after ∈ bodies → ∀ name ∈ i.goals,
        name ∈ after.flatMap Instruction.marks ∧
        (bodies.flatMap fun body => body.flatMap Instruction.marks).count name = 1 := by
  obtain ⟨tests, final, htests, hrun⟩ := lowerScenarios_ok h
  obtain ⟨bodies, hlowers, hnodup, hlinked⟩ :=
    ofTests_labels (Catalog.ofSpecs_typed hcatalog) (buildTests_pins htests).1 hrun
  refine ⟨tests, bodies, htests, hlowers, fun before i after hbody name hname => ?_⟩
  have hbehind := (hlinked _ hbody).goal_behind hname
  refine ⟨hbehind, List.count_eq_one_of_mem hnodup (List.mem_flatMap.2 ⟨_, hbody, ?_⟩)⟩
  rw [List.flatMap_append, List.flatMap_cons]
  exact List.mem_append_right _ (List.mem_append_right _ hbehind)

/-- A comparison in a function, and an exception assertion inside another one in a test. -/
def assertingPlan : List Scenario :=
  [{ name := "t", steps := [
    { id := "f", kind := .codePage { size := 4096 }, code := [
      { id := "a", kind := .arithmetic (some "lui"), inputs := [.imm 1] },
      { id := "e", kind := .assertEqual, inputs := [.ref "a", .ref "a"] }] },
    { id := "x", kind := .assertException .illegalInstruction, code := [
      { id := "y", kind := .assertException .breakpoint, code := [
        { id := "z", kind := .system "ebreak" }] }] }] }]

omit htyped in
theorem assertingPlan_labels_resolve : ∃ program,
    lowerScenarios .standard (standardContext .rv64) assertingPlan = .ok program ∧
    (∃ f ∈ program.functions, ∃ o ∈ f.instructions, o.goals = ["pass_label_0"]) ∧
    (∃ test ∈ program.tests, ∃ o ∈ test.instructions,
      o.goals = ["fault_label_0", "excp_return_label_0"]) ∧
    ∃ tests bodies, buildTests .standard assertingPlan = .ok tests ∧
      List.Forall₂ (LowersTo tests (standardContext .rv64)) (program.functions ++ program.tests)
        bodies ∧
      ∀ before i after, before ++ i :: after ∈ bodies → ∀ name ∈ i.goals,
        name ∈ after.flatMap Instruction.marks ∧
        (bodies.flatMap fun body => body.flatMap Instruction.marks).count name = 1 := by
  obtain ⟨program, h, hcompares, hexcepts⟩ : ∃ program,
      lowerScenarios .standard (standardContext .rv64) assertingPlan = .ok program ∧
      (∃ f ∈ program.functions, ∃ o ∈ f.instructions, o.goals = ["pass_label_0"]) ∧
      ∃ test ∈ program.tests, ∃ o ∈ test.instructions,
        o.goals = ["fault_label_0", "excp_return_label_0"] :=
    exists_lowered rfl (by decide +kernel)
  exact ⟨program, h, hcompares, hexcepts, assertion_labels_resolve Catalog.builtin_rv64 h⟩

end Program

end PlanLowering
