import PlanLowering.Proofs.AssertionLabels

/-!
# What a fault label stands in front of

The fault label of an exception assertion is put in front of the last action that one expansion of
its code makes. From then on the two stay together, whatever the rest of the list becomes. So what
follows the label in the end is the last action of the code if its expansion ends with it, and a
helper or a label otherwise.
-/

namespace PlanLowering.Action

variable {context : Context} {s t u : State} {id : Id} {op : Op} {a b last next : Action}
variable {actions out code body xs ys : List Action} {cause : ExceptionCause} {e : Expansion}
variable {fault resume old old' : Option String} {expanded : Bool}

/-- An expansion of the action ends with the action itself. A read through the runtime is followed by
the move of its result, a comparison and a block by a label, and what stands for the modification
of a table entry needs an address of its own. -/
def EndsItself (env : Environment) : Action → Bool
  | .simple _ _ op => op.staysLast env
  | .block .. => false

/-- The second action is what the first one becomes; for the modification of a table entry it is the
store to the table. A read through the runtime is under an id of its own, since the move of its
result takes over the old one. -/
def Itself (env : Environment) : Action → Action → Prop
  | .simple _ _ (.modifyPte ..), next =>
    ∃ write access value, next = .simple write true (.store access value)
  | .simple id _ op, next => ∃ id' op', next = .simple id' true op' ∧ op'.title = op.title ∧
      (id' = id ∨ (op.form env).leavesT2)
  | .block id _ _ _, next => ∃ owner', next = .block id true owner' []

theorem itself_simple {env : Environment}
    (h : ∀ memory level recursive, op ≠ .modifyPte memory level recursive) :
    (Action.simple id expanded op).Itself env next ↔
      ∃ id' op', next = .simple id' true op' ∧ op'.title = op.title ∧
        (id' = id ∨ (op.form env).leavesT2) := by
  cases op <;> first | rfl | exact absurd rfl (h _ _ _)

theorem Worked.mem_of_expanded (ha : a.isExpanded) (hmem : a ∈ xs) (h : Worked context xs s out t) :
    a ∈ out := by
  obtain ⟨before, after, rfl⟩ := List.append_of_mem hmem
  rw [List.append_cons] at h
  obtain ⟨_, _, _, hfront, _, rfl⟩ := h.of_append
  obtain ⟨_, _, _, _, ha', rfl⟩ := hfront.of_append
  simp [ha'.of_expanded ha]

/-- Working off the action starts with `last` itself, or with something else where an expansion of
`last` ends so. -/
def LeadsTo (context : Context) (last b : Action) : Prop :=
  ∀ s out t, Worked context [b] s out t →
    ∃ next more, out = next :: more ∧
      (last.Itself context.environment next ↔ last.EndsItself context.environment)

theorem leadsTo_of_alone (hop : ∀ id, op.expand id = pure (.alone (.simple id true op)))
    (hlast : last.EndsItself context.environment = false)
    (hother : ¬ last.Itself context.environment (.simple id true op)) : LeadsTo context last (new id op) := by
  intro s out t h
  exact ⟨_, [], h.of_alone hop, by simp [hlast, hother]⟩

theorem widen_front {access access' : Access} {address before : List Action}
    (h : access.widen address context s = .ok (before, access') t) : address <+: before := by
  obtain ⟨_, rfl, _⟩ | ⟨_, _, _, _, _, _, _, _, rfl, _⟩ := Access.widen_ok h
  · exact List.prefix_rfl
  · exact List.prefix_append _ _

theorem leadsTo_store {access : Access} {table : Id} {value : Option Id}
    (haccess : access.memory = some (.symbol table))
    (hlast : last.EndsItself context.environment = false)
    (hother : ∀ id v, ¬ last.Itself context.environment (.simple id true (.li v))) :
    LeadsTo context last (new id (.store access value)) := by
  intro s out t h
  obtain ⟨e, _, he, hrest⟩ := h.of_new rfl
  simp only [new, expand, Op.expand, Access.expand, Access.anchor, haccess, Lower.bind_ok,
    Lower.pure_ok, Prod.exists, Prod.mk.injEq] at he
  obtain ⟨before, access', _, ⟨_, label, _, ⟨⟨rfl, rfl⟩, rfl⟩, hwiden⟩, rfl, _⟩ := he
  simp only [Lower.bind_ok] at hwiden
  obtain ⟨base, _, _, hwiden⟩ := hwiden
  obtain ⟨more, rfl⟩ := widen_front hwiden
  rw [Op.behind_actions, List.append_assoc] at hrest
  obtain ⟨_, _, _, hli, _, rfl⟩ := hrest.of_append
  obtain rfl := Worked.of_alone (fun _ => rfl) hli
  exact ⟨_, _, rfl, by simp [hlast, hother]⟩

/-- One expansion of an action ends with something that leads to it. -/
theorem expand_last (h : last.expand context s = .ok e t) (hnew : last.isExpanded = false) :
    ∃ front b, e.actions = front ++ [b] ∧ LeadsTo context last b := by
  match last with
  | .simple id true op | .block id true owner code => cases hnew
  | .block id false (.codePage spec) code =>
    obtain ⟨ret, hactions, _⟩ := expand_codePage h
    refine ⟨_, _, hactions, leadsTo_of_alone (fun _ => rfl) rfl ?_⟩
    simp [Itself]
  | .block id false (.assertException cause old old') code =>
    obtain ⟨_, body, _, _, fault, resume, label, fail, label', _, _, hactions⟩ :=
      expand_assertException h
    refine ⟨_, new label' (.label resume false), hactions.trans (List.append_cons _ _ _),
      leadsTo_of_alone (fun _ => rfl) rfl ?_⟩
    simp [Itself]
  | .simple id false op =>
    rw [expand] at h
    have hshape := Op.expand_expands h
    generalize e.actions = out at hshape
    cases hshape with
    | @last _ op' before hlast hprepared =>
      refine ⟨before, _, rfl, fun s out t h => ⟨_, [], h.of_expanded rfl, ?_⟩⟩
      have hother : ∀ memory level recursive, op ≠ .modifyPte memory level recursive := by
        rintro _ _ _ rfl
        cases hlast
      exact iff_of_true ((itself_simple hother).2 ⟨id, op', rfl, hprepared.title, .inl rfl⟩) hlast
    | fetched hleaves hlast =>
      refine ⟨[_], _, rfl, leadsTo_of_alone (fun _ => rfl) hlast ?_⟩
      cases op <;> first | cases hleaves; done | simp [Itself, Op.title]
    | @branched relation =>
      refine ⟨[_, _], _, rfl, leadsTo_of_alone (fun _ => rfl) rfl ?_⟩
      cases relation <;> simp [Itself, Op.title]
    | stored haccess =>
      exact ⟨[_], _, rfl, leadsTo_store haccess rfl (by simp [Itself])⟩

theorem insertBeforeLast_append {α : Type} {x : α} {xs ys : List α} (h : ys ≠ []) :
    insertBeforeLast x (xs ++ ys) = xs ++ insertBeforeLast x ys := by
  induction xs with
  | nil => rfl
  | cons y rest ih =>
    obtain ⟨z, more, hmore⟩ := List.exists_cons_of_ne_nil (List.append_ne_nil_of_right_ne_nil rest h)
    rw [List.cons_append, hmore, insertBeforeLast, ← hmore, ih, List.cons_append]
    simp

/-- The directive of an assertion stands in the list, with its fault label in front of what leads to
the last action of its code. -/
def Sited (context : Context) (id : Id) (cause : ExceptionCause) (last : Action) (xs : List Action) :
    Prop :=
  ∃ fault resume label before b after,
    .block id true (.assertException cause (some fault) (some resume)) [] ∈ xs ∧
      xs = before ++ new label (.label fault true) :: b :: after ∧ after ≠ [] ∧ LeadsTo context last b

def Awaits (context : Context) (a : Action) (id : Id) (cause : ExceptionCause) (last : Action)
    (xs : List Action) : Prop :=
  (∃ c ∈ xs, (∀ b ∈ c.postorder, b.isExpanded = false) ∧ a ∈ c.postorder) ∨
    Sited context id cause last xs

theorem Awaits.within (h : Awaits context a id cause last xs) (before more : List Action) :
    Awaits context a id cause last (before ++ xs ++ more) := by
  rcases h with ⟨c, hc, hnew, ha⟩ | ⟨fault, resume, label, front, b, after, hblock, rfl, hafter, hb⟩
  · exact .inl ⟨c, by simp [hc], hnew, ha⟩
  · refine .inr ⟨fault, resume, label, before ++ front, b, after ++ more, ?_, ?_, ?_, hb⟩
    · exact List.mem_append_left _ (List.mem_append_right _ hblock)
    · simp
    · simp [hafter]

theorem Awaits.insertBeforeLast {label : Id} {name : String} (h : Awaits context a id cause last xs) :
    Awaits context a id cause last (insertBeforeLast (new label (.label name true)) xs) := by
  rcases h with ⟨c, hc, hnew, ha⟩ | ⟨fault, resume, label', front, b, after, hblock, rfl, hafter, hb⟩
  · exact .inl ⟨c, insertBeforeLast_mem.2 (.inr hc), hnew, ha⟩
  · refine .inr ⟨fault, resume, label', front, b,
      insertBeforeLast (new label (.label name true)) after, insertBeforeLast_mem.2 (.inr hblock), ?_, ?_,
      hb⟩
    · rw [List.append_cons, List.append_cons, insertBeforeLast_append hafter, ← List.append_cons,
        ← List.append_cons]
    · exact List.ne_nil_of_mem (insertBeforeLast_mem.2 (.inl rfl))

theorem expandEach_last (hnew : ∀ b ∈ code, b.isExpanded = false) (hlast : code.getLast? = some last)
    (h : expandEach code context s = .ok body t) :
    ∃ front b, body = front ++ [b] ∧ LeadsTo context last b := by
  induction code generalizing s body with
  | nil => cases hlast
  | cons a rest ih =>
    obtain ⟨e, _, more, ha, hmore, rfl⟩ := expandEach_cons_ok h
    obtain ⟨hfirst, hrest⟩ := List.forall_mem_cons.1 hnew
    cases rest with
    | nil =>
      obtain ⟨rfl, rfl⟩ := expandEach_nil_ok.1 hmore
      cases hlast
      simpa using expand_last ha hfirst
    | cons c others =>
      rw [List.getLast?_cons_cons] at hlast
      obtain ⟨front, b, rfl, hb⟩ := ih hrest hlast hmore
      exact ⟨e.actions ++ front, b, by simp, hb⟩

mutual

/-- One expansion leaves an assertion for later, or puts its label where it stays. -/
theorem expand_awaits {s t : State} {a : Action} {e : Expansion}
    (hnew : ∀ b ∈ a.postorder, b.isExpanded = false) (h : a.expand context s = .ok e t)
    (hblock : .block id expanded (.assertException cause old old') code ∈ a.postorder)
    (hlast : code.getLast? = some last) :
    Awaits context (.block id expanded (.assertException cause old old') code) id cause last
      e.actions := by
  match a with
  | .simple id' expanded' op => simp [postorder] at hblock
  | .block id' true owner code' => cases hnew _ (mem_postorder_self _)
  | .block id' false (.codePage spec) code' =>
    obtain ⟨ret, hactions, _⟩ := expand_codePage h
    simp only [postorder, List.mem_append, List.mem_singleton] at hblock
    simp only [postorder, List.forall_mem_append] at hnew
    rcases hblock with hblock | hblock
    · obtain ⟨c, hc, hblock⟩ := mem_postorderAll.1 hblock
      exact .inl ⟨c, by simp [hactions, hc], fun b hb => hnew.1 b (mem_postorderAll.2 ⟨c, hc, hb⟩),
        hblock⟩
    · cases hblock
  | .block id' false (.assertException cause' old₁ old₂) code' =>
    obtain ⟨_, body, _, hbody, fault, resume, label, fail, label', _, _, hactions⟩ :=
      expand_assertException h
    simp only [postorder, List.mem_append, List.mem_singleton] at hblock
    simp only [postorder, List.forall_mem_append] at hnew
    rw [hactions]
    rcases hblock with hblock | hblock
    · have hinner := expandEach_awaits hnew.1 hbody hblock hlast
      exact hinner.insertBeforeLast.within [_] _
    · cases hblock
      have hcode : ∀ b ∈ code, b.isExpanded = false := fun b hb =>
        hnew.1 b (mem_postorderAll.2 ⟨b, hb, mem_postorder_self b⟩)
      obtain ⟨front, b, rfl, hb⟩ := expandEach_last hcode hlast hbody
      rw [insertBeforeLast_append (by simp)]
      exact .inr ⟨fault, resume, label,
        .block id true (.assertException cause (some fault) (some resume)) [] :: front, b,
        [new fail (.jumpToFail none), new label' (.label resume false)], List.mem_cons_self,
        by simp [PlanLowering.insertBeforeLast], by simp, hb⟩

theorem expandEach_awaits {s t : State} {code' body : List Action}
    (hnew : ∀ b ∈ postorderAll code', b.isExpanded = false)
    (h : expandEach code' context s = .ok body t)
    (hblock : .block id expanded (.assertException cause old old') code ∈ postorderAll code')
    (hlast : code.getLast? = some last) :
    Awaits context (.block id expanded (.assertException cause old old') code) id cause last body := by
  match code' with
  | [] => cases hblock
  | a :: rest =>
    obtain ⟨e, _, more, ha, hmore, rfl⟩ := expandEach_cons_ok h
    simp only [postorderAll, List.mem_append] at hblock
    simp only [postorderAll, List.forall_mem_append] at hnew
    rcases hblock with hblock | hblock
    · exact (expand_awaits hnew.1 ha hblock hlast).within [] _
    · have hrest := (expandEach_awaits hnew.2 hmore hblock hlast).within e.actions []
      simpa using hrest

end

/-- In the worked off list the label of the assertion stands in front of the last action of its code,
or of something else where an expansion of this action ends so. -/
def FaultMarked (context : Context) (id : Id) (cause : ExceptionCause) (last : Action)
    (out : List Action) : Prop :=
  ∃ fault resume label before next after,
    .block id true (.assertException cause (some fault) (some resume)) [] ∈ out ∧
      out = before ++ .simple label true (.label fault true) :: next :: after ∧
      (last.Itself context.environment next ↔ last.EndsItself context.environment)

theorem Sited.faultMarked (h : Sited context id cause last xs) (hrun : Worked context xs s out t) :
    FaultMarked context id cause last out := by
  obtain ⟨fault, resume, label, before, b, after, hblock, rfl, _, hb⟩ := h
  have hdirective := hrun.mem_of_expanded rfl hblock
  rw [List.append_cons, List.append_cons, List.append_assoc] at hrun
  obtain ⟨front, _, _, hfront, hback, rfl⟩ := hrun.of_append
  obtain ⟨first, _, _, _, hmark, rfl⟩ := hfront.of_append
  obtain ⟨own, _, rest, hown, _, rfl⟩ := hback.of_append
  obtain rfl := hmark.of_alone fun _ => rfl
  obtain ⟨next, more, rfl, hnext⟩ := hb _ _ _ hown
  exact ⟨fault, resume, label, first, next, more ++ rest, hdirective, by simp, hnext⟩

theorem Worked.faultMarked (h : Worked context xs s out t)
    (hawaits : ∃ c ∈ xs, (∀ b ∈ c.postorder, b.isExpanded = false) ∧
      .block id expanded (.assertException cause old old') code ∈ c.postorder)
    (hlast : code.getLast? = some last) : FaultMarked context id cause last out := by
  induction h with
  | done => simp at hawaits
  | @kept a rest more s t ha hrest ih =>
    obtain ⟨c, hc, hnew, hblock⟩ := hawaits
    rcases List.mem_cons.1 hc with rfl | hc
    · rw [hnew _ (mem_postorder_self _)] at ha
      cases ha
    · obtain ⟨fault, resume, label, before, next, after, hdirective, rfl, hnext⟩ :=
        ih ⟨c, hc, hnew, hblock⟩
      exact ⟨fault, resume, label, a :: before, next, after, List.mem_cons_of_mem _ hdirective, rfl,
        hnext⟩
  | @next a rest out e s t u ha he hrest ih =>
    obtain ⟨c, hc, hnew, hblock⟩ := hawaits
    rcases List.mem_cons.1 hc with rfl | hc
    · rcases (expand_awaits hnew he hblock hlast).within [] rest with hlater | hsited
      · exact ih hlater
      · exact hsited.faultMarked hrest
    · exact ih ⟨c, List.mem_append_right _ hc, hnew, hblock⟩

/-- The fault label of an assertion occurs once in the expanded list. Behind it stands the last action
of the asserted code exactly if an expansion of this action ends with the action itself. -/
theorem fault_label_iff (hfresh : areFresh actions) (h : expandAll actions context s = .ok out t)
    (hblock : .block id expanded (.assertException cause old old') code ∈ postorderAll actions)
    (hlast : code.getLast? = some last) :
    ∃ fault resume label before next after,
      .block id true (.assertException cause (some fault) (some resume)) [] ∈ out ∧
      out = before ++ .simple label true (.label fault true) :: next :: after ∧
      (∀ i x pointer, .simple i x (.label fault pointer) ∉ before ++ next :: after) ∧
      (last.Itself context.environment next ↔ last.EndsItself context.environment) := by
  have hworked := expandAll_ok.1 h
  have hnew := not_expanded_of_areFresh hfresh
  obtain ⟨c, hc, hblock⟩ := mem_postorderAll.1 hblock
  have hdeep {a : Action} (ha : a ∈ actions) : ∀ b ∈ a.postorder, b.isExpanded = false :=
    fun b hb => hnew b (mem_postorderAll.2 ⟨a, ha, hb⟩)
  obtain ⟨fault, resume, label, before, next, after, hdirective, hsplit, hnext⟩ :=
    hworked.faultMarked ⟨c, hc, hdeep hc, hblock⟩ hlast
  -- Pages do not count here, so all labels of the list are new.
  have hmarks : Marks (fun _ => []) s.ids t.ids actions out := hworked.marks
    (.of_goals_nil fun a ha => goals_of_new (hdeep ha a (mem_postorder_self a)))
    (fun a ha _ => hdeep ha)
  obtain ⟨names, hnames, hperm⟩ := hmarks.perm
  rw [flatMap_marks_of_fresh hfresh fun _ _ _ _ _ => rfl, List.nil_append] at hperm
  have hnodup := hperm.nodup_iff.2 hnames.nodup
  refine ⟨fault, resume, label, before, next, after, hdirective, hsplit, fun i x pointer hmem => ?_,
    hnext⟩
  have hsplit : (out.flatMap (marks fun _ => [])).Perm
      (fault :: (before ++ next :: after).flatMap (marks fun _ => [])) := by
    have hmiddle : out.Perm (.simple label true (.label fault true) :: (before ++ next :: after)) :=
      hsplit ▸ List.perm_middle
    simpa [Op.mark?] using hmiddle.flatMap_right (marks fun _ => [])
  refine (List.nodup_cons.1 (hsplit.nodup_iff.1 hnodup)).1 (List.mem_flatMap.2 ⟨_, hmem, ?_⟩)
  simp [Op.mark?]

/-- A load behind a modification of a table entry, in an assertion that is the last action of another
one. -/
def nestedFaults : List Action :=
  [.block "outer" false (.assertException .breakpoint none none) [
    .new "entry" (.modifyPte "page" 1 false),
    .block "inner" false (.assertException .loadPageFault none none) [
      .new "page" (.modifyPte "page" 0 false),
      .new "load" (.load (.to (some (.symbol "page")) 4096))]]]

theorem nestedFaults_marked : ∃ out t,
    expandAll nestedFaults (standardContext .rv64) (.start {}) = .ok out t ∧
    ∃ fault resume label before next after,
      .block "inner" true (.assertException .loadPageFault (some fault) (some resume)) [] ∈ out ∧
      out = before ++ .simple label true (.label fault true) :: next :: after ∧
      (∀ i x pointer, .simple i x (.label fault pointer) ∉ before ++ next :: after) ∧
      ((Action.new "load" (.load (.to (some (.symbol "page")) 4096))).Itself
          (standardContext .rv64).environment next ↔
        (Action.new "load" (.load (.to (some (.symbol "page")) 4096))).EndsItself
          (standardContext .rv64).environment) := by
  have hok : ((expandAll nestedFaults).result? (standardContext .rv64) (.start {})).isSome := by
    decide +kernel
  obtain ⟨out, hout⟩ := Option.isSome_iff_exists.1 hok
  obtain ⟨t, hrun⟩ := Lower.result?_eq_some.1 hout
  have hinner : .block "inner" false (.assertException .loadPageFault none none) [
      .new "page" (.modifyPte "page" 0 false),
      .new "load" (.load (.to (some (.symbol "page")) 4096))] ∈ postorderAll nestedFaults := by
    simp [nestedFaults, postorder, postorderAll]
  exact ⟨out, t, hrun, fault_label_iff (by decide) hrun hinner rfl⟩

def guardedRead : List Action :=
  [.block "r1" false (.assertException .loadPageFault none none) [
    .new "r0" (.readPte { memory := "mem0", level := none, src := none })]]

def faultsAtRead : Action → Action → Bool
  | .simple _ _ (.label _ true), .simple _ _ (.readPte _) => true
  | _, _ => false

theorem guardedRead_mismarked : ¬ ∀ (context : Context) (s t : State) (actions out : List Action)
    (id : Id) (expanded : Bool) (cause : ExceptionCause) (old old' : Option String)
    (code : List Action) (last : Action), areFresh actions →
    expandAll actions context s = .ok out t →
    .block id expanded (.assertException cause old old') code ∈ postorderAll actions →
    code.getLast? = some last →
    ∃ fault resume label before next after,
      .block id true (.assertException cause (some fault) (some resume)) [] ∈ out ∧
      out = before ++ .simple label true (.label fault true) :: next :: after ∧
        last.Itself context.environment next := by
  intro hall
  -- Behind the label comes the move of the result out of t2.
  have hapart : ((expandAll guardedRead).result? (standardContext .rv64) (.start {})).any fun out =>
      decide (out.IsChain fun a b => faultsAtRead a b = false) := by
    decide +kernel
  obtain ⟨out, hout, hapart⟩ := (Option.any_eq_true _ _).1 hapart
  obtain ⟨t, hrun⟩ := Lower.result?_eq_some.1 hout
  have hblock : .block "r1" false (.assertException .loadPageFault none none)
      [.new "r0" (.readPte { memory := "mem0", level := none, src := none })] ∈
        postorderAll guardedRead := by
    simp [guardedRead, postorder, postorderAll]
  obtain ⟨fault, resume, label, before, next, after, _, rfl, read, op', rfl, htitle, _⟩ :=
    hall _ _ _ _ _ _ _ _ _ _ _ _ (by decide) hrun hblock rfl
  rw [decide_eq_true_eq, List.isChain_append_cons_cons] at hapart
  obtain ⟨_, hdistinct, _⟩ := hapart
  clear hout hrun hall
  cases op' with
  | readPte target => cases hdistinct
  | compare relation => cases relation <;> simp [Op.title] at htitle
  | _ => simp [Op.title] at htitle

end PlanLowering.Action
