import PlanLowering.Proofs.ProgramReferences

/-!
# Labels of assertions

A comparison branches past its failure jump, and an exception assertion tells the runtime of two
labels. All of these labels are made up where the assertion is expanded and stand behind it from then
on. Later passes only insert code that neither is a label nor goes to one, so a label is where it was
put, and no other body has it.
-/

namespace PlanLowering

variable {context : Context} {s t u : State} {id : Id} {op : Op} {a : Action}
variable {actions out code : List Action} {body : List Instruction} {i o : Instruction}

section Linked

variable {α β : Type} {marks goals : α → List String} {marks' goals' : β → List String}
variable {xs ys : List α}

theorem flatMap_of_forall₂ {γ : Type} {f : α → List γ} {g : β → List γ} {ys : List β}
    (h : List.Forall₂ (fun a b => g b = f a) xs ys) : ys.flatMap g = xs.flatMap f := by
  induction h with
  | nil => rfl
  | cons hfirst _ ih => rw [List.flatMap_cons, List.flatMap_cons, hfirst, ih]

inductive Linked (marks goals : α → List String) : List α → Prop where
  | nil : Linked marks goals []
  | cons {a : α} {rest : List α} (hgoals : goals a ⊆ rest.flatMap marks)
      (hrest : Linked marks goals rest) : Linked marks goals (a :: rest)

namespace Linked

theorem of_goals_nil (h : ∀ a ∈ xs, goals a = []) : Linked marks goals xs := by
  induction xs with
  | nil => exact .nil
  | cons a rest ih =>
    rw [List.forall_mem_cons] at h
    exact .cons (h.1 ▸ List.nil_subset _) (ih h.2)

theorem append (h : Linked marks goals xs) (h' : Linked marks goals ys) :
    Linked marks goals (xs ++ ys) := by
  induction h with
  | nil => exact h'
  | cons hgoals _ ih =>
    refine .cons (fun name hname => ?_) ih
    exact List.flatMap_append ▸ List.mem_append_left _ (hgoals hname)

theorem of_append (h : Linked marks goals (xs ++ ys)) : Linked marks goals ys := by
  induction xs with
  | nil => exact h
  | cons _ _ ih =>
    cases h with
    | cons _ hrest => exact ih hrest

theorem goal_behind {before after : List α} {a : α} {name : String}
    (h : Linked marks goals (before ++ a :: after)) (hname : name ∈ goals a) :
    name ∈ after.flatMap marks := by
  cases h.of_append with
  | cons hgoals _ => exact hgoals hname

/-- An element that goes nowhere may be put anywhere. -/
theorem insertBeforeLast {b : α} (hb : goals b = []) (h : Linked marks goals xs) :
    Linked marks goals (insertBeforeLast b xs) := by
  induction h with
  | nil => exact of_goals_nil (by simpa [PlanLowering.insertBeforeLast] using hb)
  | @cons a rest hgoals hrest ih =>
    cases rest with
    | nil => exact .cons (hb ▸ List.nil_subset _) (.cons hgoals .nil)
    | cons c more =>
      refine .cons (fun name hname => ?_) ih
      rw [((insertBeforeLast_perm b (c :: more)).flatMap_right marks).mem_iff, List.flatMap_cons]
      exact List.mem_append_right _ (hgoals hname)

theorem of_forall₂ {ys : List β} (h : Linked marks goals xs)
    (hsame : List.Forall₂ (fun a b => marks' b = marks a ∧ goals' b = goals a) xs ys) :
    Linked marks' goals' ys := by
  induction hsame with
  | nil => exact .nil
  | @cons a b rest rest' hfirst hrest ih =>
    have hmarks : rest'.flatMap marks' = rest.flatMap marks :=
      flatMap_of_forall₂ (hrest.imp fun _ _ h => h.1)
    cases h with
    | cons hgoals hlinked =>
      refine .cons ?_ (ih hlinked)
      rw [hfirst.2, hmarks]
      exact hgoals

end Linked

end Linked

namespace Action

/-- Labels that the action's instruction is. What the label of a code page counts as is left open: its
id may be spelled like any other label unless the page was numbered. -/
def own (page : Id → List String) : Action → List String
  | .simple _ _ op => op.mark?.toList
  | .block id _ (.codePage _) _ => page id
  | .block _ _ (.assertException ..) _ => []

def marks (page : Id → List String) (a : Action) : List String := a.pending.flatMap (own page)

def goals : Action → List String
  | .simple _ true op => op.goal?.toList
  | .block _ true (.assertException _ fault resume) _ => fault.toList ++ resume.toList
  | _ => []

theorem goals_of_new (h : a.isExpanded = false) : a.goals = [] := by
  match a, h with
  | .simple _ false _, _ | .block _ false (.codePage _) _, _ |
    .block _ false (.assertException ..) _, _ => rfl

def Untouched (a : Action) : Prop := a.isExpanded = false → ∀ b ∈ a.postorder, b.isExpanded = false

@[simp] theorem untouched_simple (id : Id) (expanded : Bool) (op : Op) :
    (Action.simple id expanded op).Untouched := by
  simp [Untouched, postorder]

@[simp] theorem untouched_expanded (id : Id) (owner : Block) (code : List Action) :
    (Action.block id true owner code).Untouched := by
  simp [Untouched, isExpanded]

variable (page : Id → List String)

@[simp] theorem marks_simple (id : Id) (expanded : Bool) (op : Op) :
    (Action.simple id expanded op).marks page = op.mark?.toList := by
  simp [marks, pending, own]

@[simp] theorem marks_expanded (id : Id) (owner : Block) (code : List Action) :
    (Action.block id true owner code).marks page = match owner with
      | .codePage _ => page id
      | .assertException .. => [] := by
  cases owner <;> simp [marks, pending, own]

@[simp] theorem marks_block (id : Id) (owner : Block) (code : List Action) :
    (Action.block id false owner code).marks page =
      code.flatMap (marks page) ++ match owner with
        | .codePage _ => page id
        | .assertException .. => [] := by
  have hcode (code : List Action) :
      (pendingAll code).flatMap (own page) = code.flatMap (marks page) := by
    induction code with
    | nil => rfl
    | cons a rest ih => rw [pendingAll, List.flatMap_append, ih, List.flatMap_cons, marks]
  cases owner <;> simp [marks, pending, own, hcode]

/-- What one expansion makes of actions, by the labels that come of them. -/
structure Marks (ids ids' : FreshIds) (actions out : List Action) : Prop where
  perm : ∃ new, ids.Adds ids' new ∧
    (out.flatMap (marks page)).Perm (actions.flatMap (marks page) ++ new)
  linked : Linked (marks page) goals out
  untouched : ∀ b ∈ out, b.Untouched

namespace Marks

variable {page : Id → List String} {ids ids' ids'' : FreshIds} {more out' : List Action}

theorem refl (ids : FreshIds) (hlinked : Linked (marks page) goals actions)
    (huntouched : ∀ a ∈ actions, a.Untouched) : Marks page ids ids actions actions :=
  ⟨⟨[], .refl _, by simp⟩, hlinked, huntouched⟩

theorem append (h : Marks page ids ids' actions out) (h' : Marks page ids' ids'' more out') :
    Marks page ids ids'' (actions ++ more) (out ++ out') where
  perm := by
    rw [List.flatMap_append, List.flatMap_append]
    exact FreshIds.Extends.append h.perm h'.perm
  linked := h.linked.append h'.linked
  untouched b hb := (List.mem_append.1 hb).elim (h.untouched b) (h'.untouched b)

theorem trans (h : Marks page ids ids' actions out) (h' : Marks page ids' ids'' out out') :
    Marks page ids ids'' actions out' where
  perm := FreshIds.Extends.trans h.perm h'.perm
  linked := h'.linked
  untouched := h'.untouched

end Marks

end Action

variable {page : Id → List String}

theorem Op.Helps.mark {helper : Op} (h : helper.Helps) : helper.mark? = none := by
  cases helper <;> first | rfl | cases h

theorem Op.goal_of_staysLast {env : Environment} (h : op.staysLast env) : op.goal? = none := by
  cases op <;> first | rfl | cases h

theorem Op.goal_of_leavesT2 {env : Environment} (h : (op.form env).leavesT2) : op.goal? = none := by
  cases op <;> first | rfl | cases h

theorem Op.Expands.marks {env : Environment} (h : op.Expands env s.ids t.ids id actions)
    (hkeeps : s.KeepsIds t) :
    Action.Marks page s.ids t.ids [.simple id false op] actions := by
  cases h with
  | @last _ op' before hlast hprepared hbefore =>
    have hmarks : before.flatMap (Action.marks page) = [] := by
      rw [List.flatMap_eq_nil_iff]
      intro b hb
      obtain ⟨i, helper, rfl, hhelps⟩ := hbefore b hb
      simp [Action.new, hhelps.mark]
    refine ⟨⟨[], .nil hkeeps, by simp [hmarks, hprepared.mark]⟩, .of_goals_nil ?_, ?_⟩
    · simp only [List.forall_mem_append, List.forall_mem_singleton]
      refine ⟨fun b hb => ?_, by simp [Action.goals, hprepared.goal, goal_of_staysLast hlast]⟩
      obtain ⟨i, helper, rfl, _⟩ := hbefore b hb
      rfl
    · simp only [List.forall_mem_append, List.forall_mem_singleton]
      refine ⟨fun b hb => ?_, Action.untouched_simple _ _ _⟩
      obtain ⟨i, helper, rfl, _⟩ := hbefore b hb
      exact Action.untouched_simple _ _ _
  | fetched hleaves =>
    refine ⟨⟨[], .nil hkeeps, by simp [Action.new, mark?]⟩, .of_goals_nil ?_, by simp [Action.new]⟩
    simp [Action.goals, Action.new, goal_of_leavesT2 hleaves]
  | @branched _ _ _ _ pass _ _ hnew =>
    have hpass := hnew.sublist (List.singleton_sublist.2 List.mem_cons_self)
    refine ⟨⟨[pass], hpass, by simp [Action.new, mark?]⟩, .cons ?_ (.of_goals_nil ?_),
      by simp [Action.new]⟩
    · simp [Action.goals, goal?, Action.new, mark?]
    · simp [Action.goals, Action.new]
  | stored =>
    refine ⟨⟨[], .nil hkeeps, by simp [Action.new, Action.li, mark?]⟩, .of_goals_nil ?_,
      by simp [Action.li, Action.new]⟩
    simp [Action.goals, Action.new, Action.li]

namespace Action

mutual

theorem expand_marks {s t : State} {a : Action} {e : Expansion}
    (hnew : ∀ b ∈ a.postorder, b.isExpanded = false) (h : a.expand context s = .ok e t) :
    Marks page s.ids t.ids [a] e.actions := by
  have hkeeps : s.KeepsIds t := Lower.expand_moves (R := State.KeepsIds) a _ _ _ _ h
  match a with
  | .simple id true op | .block id true owner code => cases hnew _ (mem_postorder_self _)
  | .simple id false op =>
    rw [expand] at h
    exact (Op.expand_expands h).marks hkeeps
  | .block id false (.codePage spec) code =>
    obtain ⟨ret, hactions, _⟩ := expand_codePage h
    simp only [postorder, List.forall_mem_append] at hnew
    have hcode : ∀ b ∈ code, b.isExpanded = false ∧ b.Untouched := by
      intro b hb
      have hdeep : ∀ c ∈ b.postorder, c.isExpanded = false :=
        fun c hc => hnew.1 c (mem_postorderAll.2 ⟨b, hb, hc⟩)
      exact ⟨hdeep b (mem_postorder_self b), fun _ => hdeep⟩
    rw [hactions]
    refine ⟨⟨[], .nil hkeeps, ?_⟩, .of_goals_nil ?_, ?_⟩
    · simpa [new, Op.mark?] using @List.perm_append_comm _ (page id) (code.flatMap (marks page))
    · simp only [List.cons_append, List.forall_mem_cons, List.forall_mem_append]
      exact ⟨rfl, fun b hb => goals_of_new (hcode b hb).1, rfl, by simp⟩
    · simp only [List.cons_append, List.forall_mem_cons, List.forall_mem_append]
      exact ⟨untouched_expanded _ _ _, fun b hb => (hcode b hb).2, by simp [new]⟩
  | .block id false (.assertException cause old old') code =>
    obtain ⟨_, body, next, hbody, fault, resume, label, fail, label', hids, _, hactions⟩ :=
      expand_assertException h
    simp only [postorder, List.forall_mem_append] at hnew
    obtain ⟨⟨new', hadds, hperm⟩, hlinked, huntouched⟩ := expandEach_marks hnew.1 hbody
    have htold : next.ids.Adds t.ids [fault, resume] :=
      hids.sublist (List.sublist_append_left [fault, resume] [label, fail, label'])
    have hmarks : ((insertBeforeLast (new label (.label fault true)) body).flatMap (marks page)).Perm
        (fault :: body.flatMap (marks page)) := by
      simpa [new, Op.mark?] using
        (insertBeforeLast_perm (new label (.label fault true)) body).flatMap_right (marks page)
    rw [hactions, List.cons_append]
    refine ⟨⟨_, hadds.append htold, ?_⟩, ?_, ?_⟩
    · have hlast : (fault :: (body.flatMap (marks page) ++ [resume])).Perm
          (code.flatMap (marks page) ++ (new' ++ [fault, resume])) := by
        rw [← List.append_assoc]
        exact List.perm_middle.symm.trans (hperm.append_right _)
      simpa [new, Op.mark?] using (hmarks.append_right [resume]).trans hlast
    · refine .cons ?_ ((hlinked.insertBeforeLast rfl).append ?_)
      · have hfault : fault ∈ (insertBeforeLast (new label (.label fault true)) body).flatMap (marks page) :=
          hmarks.mem_iff.2 List.mem_cons_self
        rw [List.flatMap_append]
        exact List.cons_subset.2 ⟨List.mem_append_left _ hfault, by simp [new, Op.mark?]⟩
      · exact .of_goals_nil (by simp [goals, new])
    · simp only [List.forall_mem_cons, List.forall_mem_append]
      refine ⟨untouched_expanded _ _ _, fun b hb => ?_, by simp [new]⟩
      rcases insertBeforeLast_mem.1 hb with rfl | hb
      · exact untouched_simple _ _ _
      · exact huntouched b hb

theorem expandEach_marks {s t : State} {code body : List Action}
    (hnew : ∀ b ∈ postorderAll code, b.isExpanded = false)
    (h : expandEach code context s = .ok body t) : Marks page s.ids t.ids code body := by
  match code with
  | [] =>
    obtain ⟨rfl, rfl⟩ := expandEach_nil_ok.1 h
    exact ⟨⟨[], .refl _, by simp⟩, .nil, by simp⟩
  | a :: rest =>
    obtain ⟨e, next, more, ha, hmore, rfl⟩ := expandEach_cons_ok h
    simp only [postorderAll, List.forall_mem_append] at hnew
    exact (expand_marks hnew.1 ha).append (expandEach_marks hnew.2 hmore)

end

/-- Every label that comes of a list that is worked off was there before or is new. -/
theorem Worked.marks (h : Worked context actions s out t) (hlinked : Linked (Action.marks page) goals actions)
    (huntouched : ∀ a ∈ actions, a.Untouched) : Marks page s.ids t.ids actions out := by
  induction h with
  | done => exact .refl _ .nil (by simp)
  | @kept a rest more s t ha _ ih =>
    obtain ⟨hfirst, hrest⟩ := List.forall_mem_cons.1 huntouched
    cases hlinked with
    | cons hgoals hlinked =>
      obtain ⟨⟨new, hnew, hperm⟩, hmore, hlater⟩ := ih hlinked hrest
      refine ⟨⟨new, hnew, by simpa using hperm.append_left (a.marks page)⟩, .cons (fun name hname => ?_) hmore,
        List.forall_mem_cons.2 ⟨hfirst, hlater⟩⟩
      exact hperm.mem_iff.2 (List.mem_append_left _ (hgoals hname))
  | next ha he _ ih =>
    obtain ⟨hfirst, hrest⟩ := List.forall_mem_cons.1 huntouched
    cases hlinked with
    | cons _ hlinked =>
      have hstep := (expand_marks (hfirst ha) he).append (.refl _ hlinked hrest)
      exact hstep.trans (ih hstep.linked hstep.untouched)

mutual

/-- Nothing that a plan asks for is a label, but for its code pages. -/
theorem marks_of_fresh {a : Action} (hfresh : a.isFresh)
    (hpages : ∀ id expanded spec code,
      .block id expanded (.codePage spec) code ∈ a.postorder → page id = []) : a.marks page = [] := by
  match a with
  | .simple id true op | .block id true owner code => cases hfresh
  | .simple id false op =>
    simp only [isFresh, Bool.not_false, Bool.true_and, Bool.not_eq_true'] at hfresh
    cases op <;> first | exact marks_simple .. | cases hfresh
  | .block id false owner code =>
    simp only [postorder, List.mem_append, List.mem_singleton] at hpages
    have hcode := flatMap_marks_of_fresh (by simpa [isFresh] using hfresh)
      fun id expanded spec code hmem => hpages id expanded spec code (.inl hmem)
    cases owner with
    | codePage spec => simp [hcode, hpages id false spec code (.inr rfl)]
    | assertException cause fault resume => simp [hcode]

theorem flatMap_marks_of_fresh {code : List Action} (hfresh : areFresh code)
    (hpages : ∀ id expanded spec body,
      .block id expanded (.codePage spec) body ∈ postorderAll code → page id = []) :
    code.flatMap (marks page) = [] := by
  match code with
  | [] => rfl
  | a :: rest =>
    simp only [areFresh, Bool.and_eq_true] at hfresh
    simp only [postorderAll, List.mem_append] at hpages
    rw [List.flatMap_cons,
      marks_of_fresh hfresh.1 fun id expanded spec body hmem =>
        hpages id expanded spec body (.inl hmem),
      flatMap_marks_of_fresh hfresh.2 fun id expanded spec body hmem =>
        hpages id expanded spec body (.inr hmem), List.nil_append]

end

end Action
end PlanLowering
