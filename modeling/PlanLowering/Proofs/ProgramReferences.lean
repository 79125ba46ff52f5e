import PlanLowering.Proofs.AssertedCode
import PlanLowering.Proofs.Insertion
import PlanLowering.Proofs.RuntimeValues
import PlanLowering.Proofs.ExpansionShapes

/-!
# References of a program

What a lowered program names is there. Calls go to functions that were lowered before, directives
for page tables to pages of the program. Functions stand in the order of their pages, since both
follow the order of numbering and no page of code is reserved later on.
-/

namespace PlanLowering

variable {context : Context} {s t u : State} {id : Id} {op : Op} {actions out : List Action}
variable {code code' : List Instruction} {i o : Instruction}

section Forms

/-- A form that names neither a function nor a page. -/
def InstructionForm.isLocal : InstructionForm → Bool
  | .call _ => false
  | .pteAccess .. => false
  | _ => true

theorem InstructionForm.local_of_native {form : InstructionForm} (h : form = .native) :
    form.isLocal := by
  rw [h]
  rfl

theorem form_of_mem_legalize (h : legalize code context s = .ok code' t) (ho : o ∈ code') :
    o.form = .native ∨ ∃ i ∈ code, i.form = o.form := by
  obtain ⟨resolved, _, pieces, hresolved, hpieces, rfl⟩ := legalize_ok h
  have hcast : o.form = .native ∨ ∃ i ∈ Piece.layout resolved, i.form = o.form := by
    obtain ⟨p, hp, ho⟩ := Piece.mem_layout.1 ho
    obtain ⟨i, hi, ⟨_, _, hsame⟩, hbefore, hafter⟩ :=
      exists_of_forall₂ (Produced.castAll_precedes hpieces) hp
    rcases ho with ho | rfl | ho
    · obtain ⟨_, _, _, _, _, _, _, _, _, _, _, rfl⟩ := hbefore o ho
      exact .inl rfl
    · exact .inr ⟨i, hi, by rw [hsame]⟩
    · rw [hafter] at ho
      cases ho
  rcases hcast with hnative | ⟨j, hj, hform⟩
  · exact .inl hnative
  rw [← hform]
  obtain ⟨p, hp, hj⟩ := Piece.mem_layout.1 hj
  obtain ⟨i, hi, hsame, hbefore, hafter⟩ := exists_of_forall₂ (Seen.resolve_precedes hresolved) hp
  rcases hj with hj | rfl | hj
  · obtain ⟨_, _, _, _, _, _, _, _, _, rfl⟩ := hbefore j hj
    exact .inl rfl
  · exact .inr ⟨i, hi, by rw [hsame]⟩
  · rw [hafter] at hj
    cases hj

theorem form_of_mem_allocate {pool : RegisterPool} (h : allocate pool code context s = .ok code' t)
    (ho : o ∈ code') : o.form = .native ∨ ∃ i ∈ code, i.form = o.form := by
  obtain ⟨a, _, _, _, happly⟩ := allocate_ok h
  obtain ⟨spill, hspill, _, hmem⟩ := Allocation.mem_apply happly
  rcases hmem o ho with hmade | ⟨i, hi, hplaced⟩
  · exact .inl (hmade.form hspill)
  · exact .inr ⟨i, hi, by rw [hplaced.same]⟩

end Forms

section Entries

namespace Action

/-- The page whose table entry the action's directive accesses. -/
def entry? : Action → Option Id
  | .simple _ _ op => op.entry?
  | .block .. => none

def tables (a : Action) : List Id := a.pending.filterMap entry?

def tablesAll (actions : List Action) : List Id := (pendingAll actions).filterMap entry?

@[simp] theorem tablesAll_nil : tablesAll [] = [] := rfl

@[simp] theorem tablesAll_cons (a : Action) (rest : List Action) :
    tablesAll (a :: rest) = a.tables ++ tablesAll rest := by
  simp [tables, tablesAll, pendingAll]

@[simp] theorem tablesAll_append (xs ys : List Action) :
    tablesAll (xs ++ ys) = tablesAll xs ++ tablesAll ys := by
  simp [tablesAll]

@[simp] theorem tables_simple (id : Id) (expanded : Bool) (op : Op) :
    (Action.simple id expanded op).tables = op.entry?.toList := by
  cases h : op.entry? <;> simp [tables, pending, entry?, h]

@[simp] theorem tables_expanded (id : Id) (owner : Block) (code : List Action) :
    (Action.block id true owner code).tables = [] := by
  simp [tables, pending, entry?]

@[simp] theorem tables_block (id : Id) (owner : Block) (code : List Action) :
    (Action.block id false owner code).tables = tablesAll code := by
  simp [tables, tablesAll, pending, entry?]

theorem tablesAll_insertBeforeLast {a : Action} (ha : a.tables = []) (code : List Action) :
    tablesAll (insertBeforeLast a code) = tablesAll code := by
  induction code with
  | nil => simp [insertBeforeLast, ha]
  | cons b rest ih =>
    cases rest with
    | nil => simp [insertBeforeLast, ha]
    | cons c more =>
      show tablesAll (b :: insertBeforeLast a (c :: more)) = _
      rw [tablesAll_cons, ih, tablesAll_cons b]

end Action

theorem Op.Helps.entry {helper : Op} (h : helper.Helps) : helper.entry? = none := by
  cases helper <;> first | rfl | cases h

/-- Of all that an expansion makes only the action itself accesses an entry. -/
theorem Op.Expands.tables {env : Environment} {ids ids' : FreshIds} {actions : List Action}
    (h : op.Expands env ids ids' id actions) : Action.tablesAll actions = op.entry?.toList := by
  cases h with
  | @last _ op' before _ hprepared hbefore hnew =>
    have hempty : Action.tablesAll before = [] := by
      clear hprepared hnew
      induction before with
      | nil => rfl
      | cons b rest ih =>
        obtain ⟨⟨i, helper, rfl, hhelps⟩, hrest⟩ := List.forall_mem_cons.1 hbefore
        simp [Action.new, hhelps.entry, ih hrest]
    simp [hempty, hprepared.entry]
  | fetched => simp [Action.new, entry?]
  | branched => simp [Action.new, entry?]
  | stored => simp [Action.new, Action.li, entry?]

namespace Action

mutual

theorem expand_tables {s t : State} {a : Action} {e : Expansion}
    (h : a.expand context s = .ok e t) : tablesAll e.actions = a.tables := by
  match a with
  | .simple id true op | .block id true owner code =>
    obtain ⟨rfl, _⟩ := expand_of_expanded rfl h
    simp [Expansion.actions]
  | .simple id false op =>
    rw [expand] at h
    simpa using (Op.expand_expands h).tables
  | .block id false (.codePage spec) code =>
    obtain ⟨ret, hactions, _⟩ := expand_codePage h
    simp [hactions, new, Op.entry?]
  | .block id false (.assertException cause old old') code =>
    obtain ⟨_, body, next, hbody, fault, resume, label, fail, label', _, _, hactions⟩ :=
      expand_assertException h
    rw [hactions, List.cons_append, tablesAll_cons, tablesAll_append,
      tablesAll_insertBeforeLast (by simp [new, Op.entry?]), expandEach_tables hbody]
    simp [new, Op.entry?]

theorem expandEach_tables {s t : State} {code body : List Action}
    (h : expandEach code context s = .ok body t) : tablesAll body = tablesAll code := by
  match code with
  | [] =>
    rw [(expandEach_nil_ok.1 h).1]
  | a :: rest =>
    obtain ⟨e, _, more, ha, hmore, rfl⟩ := expandEach_cons_ok h
    rw [tablesAll_append, tablesAll_cons, expand_tables ha, expandEach_tables hmore]

end

theorem Worked.tables (h : Worked context actions s out t) : tablesAll out = tablesAll actions := by
  induction h with
  | done => rfl
  | kept _ _ ih => rw [tablesAll_cons, tablesAll_cons, ih]
  | next _ he _ ih => rw [ih, tablesAll_append, tablesAll_cons, expand_tables he]

theorem select_entry {a : Action} {memory : Id} {paging : Paging} {level : Nat} {write : Bool}
    (h : a.select context s = .ok i t) (hform : i.form = .pteAccess memory paging level write) :
    a.entry? = some memory := by
  cases a with
  | simple id expanded op =>
    obtain ⟨j, hj, rfl⟩ := select_simple_ok h
    have hop := (Op.select_form hj).symm.trans hform
    cases op <;> simp only [Op.form] at hop <;> try cases hop
    case csrRead | csrWrite => split at hop <;> cases hop
    all_goals rfl
  | block id expanded owner code =>
    obtain ⟨j, hj, _, rfl⟩ := select_block_ok h
    cases hj <;> cases hform

theorem selectAll_entry {memory : Id} {paging : Paging} {level : Nat} {write : Bool}
    (h : selectAll actions context s = .ok code t) (hi : i ∈ code)
    (hform : i.form = .pteAccess memory paging level write) :
    ∃ a ∈ actions, a.entry? = some memory := by
  obtain ⟨a, ha, j, _, _, hj, rfl⟩ := exists_of_forall₂ (selectAll_each h) hi
  exact ⟨a, ha, select_entry hj hform⟩

end Action

theorem lowerRoutine_entry {memory : Id} {paging : Paging} {level : Nat} {write : Bool}
    (h : lowerRoutine actions context s = .ok code t) (ho : o ∈ code)
    (hform : o.form = .pteAccess memory paging level write) : memory ∈ Action.tablesAll actions := by
  obtain ⟨expanded, _, selected, _, legal, _, hexpand, hselect, hlegal, hallocate⟩ :=
    lowerRoutine_passes h
  have hlegalized : ∃ i ∈ legal, i.form = o.form :=
    (form_of_mem_allocate hallocate ho).resolve_left (by simp [hform])
  obtain ⟨i, hi, hsame⟩ := hlegalized
  have hselected : ∃ j ∈ selected, j.form = i.form :=
    (form_of_mem_legalize hlegal hi).resolve_left (by simp [hsame, hform])
  obtain ⟨j, hj, hsame'⟩ := hselected
  obtain ⟨a, ha, hentry⟩ := Action.selectAll_entry hselect hj (hsame'.trans (hsame.trans hform))
  rw [← (Action.expandAll_ok.1 hexpand).tables]
  exact List.mem_filterMap.2
    ⟨a, Action.mem_pendingAll.2 ⟨a, ha, Action.mem_pending_self a⟩, hentry⟩

end Entries

section Build

variable {scope : StepScope} {inputs : List StepInput}

theorem PteTarget.ofInputs_memory {level : Option Nat} {values : Nat} {target : PteTarget}
    (h : ofInputs scope level values inputs = .ok target) : scope.isMemory target.memory := by
  simp only [ofInputs, except_bind_ok] at h
  obtain ⟨refs, _, h⟩ := h
  cases refs with
  | nil => cases h
  | cons memory rest =>
    dsimp only at h
    split at h
    · cases h
    · split at h
      next hmemory =>
        cases h
        exact hmemory
      next => cases h

/-- Only the steps for page table entries access one, each that of memory in scope. -/
theorem StepKind.action_entry {kind : StepKind} {code : List Action} {a : Action}
    (h : kind.action scope id inputs code = .ok a) : ∀ memory ∈ a.entry?, scope.isMemory memory := by
  cases hcode : kind.acceptsCode with
  | true =>
    obtain ⟨owner, rfl⟩ := action_block hcode h
    simp [Action.entry?]
  | false =>
    obtain ⟨op, rfl, hgives⟩ := action_gives hcode h
    cases hgives with
    | readPte ht | readLeafPte ht | writePte ht | writeLeafPte ht =>
      rintro _ ⟨⟩
      exact PteTarget.ofInputs_memory ht
    | _ => simp [Action.new, Action.entry?, Op.entry?]

namespace StepBuilders

mutual

theorem build_made {step : Step} {a : Action} (h : standard.build scope step = .ok a) :
    ∀ b ∈ a.postorder, ∃ (kind : StepKind) (inputs : List StepInput) (code : List Action),
      kind.action scope b.id inputs code = .ok b := by
  match step with
  | { id, kind, inputs, code } =>
    obtain ⟨actions, hactions, haction, _⟩ := build_ok h
    cases haccepts : kind.acceptsCode with
    | true =>
      obtain ⟨owner, rfl⟩ := StepKind.action_block haccepts haction
      rw [Action.postorder, List.forall_mem_append, List.forall_mem_singleton]
      exact ⟨buildAll_made hactions, kind, inputs, actions, haction⟩
    | false =>
      obtain ⟨op, rfl, _⟩ := StepKind.action_simple haccepts haction
      exact List.forall_mem_singleton.2 ⟨kind, inputs, actions, haction⟩

theorem buildAll_made {steps : List Step} {actions : List Action}
    (h : standard.buildAll scope steps = .ok actions) :
    ∀ b ∈ Action.postorderAll actions, ∃ (kind : StepKind) (inputs : List StepInput)
      (code : List Action), kind.action scope b.id inputs code = .ok b := by
  match steps with
  | [] =>
    cases h
    simp [Action.postorderAll]
  | step :: rest =>
    obtain ⟨a, more, ha, hmore, rfl⟩ := buildAll_cons_ok h
    rw [Action.postorderAll, List.forall_mem_append]
    exact ⟨build_made ha, buildAll_made hmore⟩

end

theorem buildTest_entry {scenario : Scenario} {test : TestCase}
    (h : standard.buildTest scenario = .ok test) :
    ∀ a ∈ test.order, ∀ memory ∈ a.entry?, ∃ b ∈ test.order, b.id = memory ∧ b.page?.isSome := by
  have haccepted := buildTest_accepted h
  simp only [buildTest, except_bind_ok, except_pure_ok] at h
  obtain ⟨actions, hactions, rfl⟩ := h
  intro a ha memory hmemory
  obtain ⟨kind, inputs, code, hmade⟩ := buildAll_made hactions a ha
  exact haccepted.reserved memory (StepKind.action_entry hmade memory hmemory)

end StepBuilders

theorem Program.buildTests_entry {scenarios : List Scenario} {tests : List TestCase}
    (h : Program.buildTests .standard scenarios = .ok tests) : ∀ test ∈ tests,
      ∀ a ∈ test.order, ∀ memory ∈ a.entry?, ∃ b ∈ test.order, b.id = memory ∧ b.page?.isSome := by
  induction scenarios generalizing tests with
  | nil =>
    cases h
    simp
  | cons scenario rest ih =>
    simp only [Program.buildTests, except_bind_ok, except_pure_ok] at h
    obtain ⟨test, htest, more, hmore, rfl⟩ := h
    exact List.forall_mem_cons.2 ⟨StepBuilders.buildTest_entry htest, ih hmore⟩

end Build

namespace CanonicalBatch

variable {tests : List TestCase} {batch : CanonicalBatch}

theorem Canonical.eq_ofNamed (h : Canonical tests batch s) :
    batch = ofNamed (namedTests {} tests) := by
  obtain ⟨kept, functions⟩ := batch
  rw [ofNamed, ← h.tests_kept, ← h.functions_lifted]

theorem canonical_of_run (h : ofTests tests context (.start context.options) = .ok batch s) :
    Canonical tests batch s := by
  have hcanonical := (ofTests_canonical tests context).2
  rwa [h] at hcanonical

/-- Whatever a canonical batch asks for the table entry of is a registered page. -/
theorem entry_registered (hentries : ∀ test ∈ tests, ∀ a ∈ test.order, ∀ memory ∈ a.entry?,
      ∃ b ∈ test.order, b.id = memory ∧ b.page?.isSome)
    (hcanonical : Canonical tests batch s) :
    ∀ b ∈ batch.actions, ∀ memory ∈ b.entry?, s.pages.isLabel memory := by
  rw [hcanonical.eq_ofNamed, forall_mem_actions_iff]
  intro test f hnamed a ha _ memory hmemory
  have hold : ∃ page ∈ a.entry?, f page = memory := by
    cases a with
    | simple id expanded op =>
      cases op <;> simp_all [Action.moved, Action.entry?, Op.entry?, Op.mapIds, PteTarget.mapIds]
    | block id expanded owner code => cases hmemory
  obtain ⟨page, hpage, rfl⟩ := hold
  obtain ⟨b, hb, rfl, hreserved⟩ := hentries test (mem_of_namedTests hnamed) a ha page hpage
  exact isLabel_of_canonical hcanonical hnamed hb hreserved

theorem function_names (hcanonical : Canonical tests batch s) :
    batch.functions.map Action.id = (s.pages.pages .code).map Page.name := by
  rw [s.pages.coherent.pages_eq, hcanonical.pages_registered, hcanonical.functions_lifted, List.map_flatMap,
    List.filterMap_flatMap, List.map_flatMap]
  congr 1
  funext entry
  obtain ⟨test, f⟩ := entry
  dsimp only
  rw [TestCase.functions, TestCase.pages, List.filterMap_filterMap, List.map_filterMap,
    List.map_filterMap]
  congr 1
  funext a
  cases a with
  | simple id expanded op => cases op <;> rfl
  | block id expanded owner code => cases owner <;> rfl

end CanonicalBatch

/-- What lowering puts around bodies names nothing. -/
theorem Framing.isLocal : Framing context (·.form.isLocal) :=
  .of_native (fun _ _ => rfl) (fun _ _ => rfl) fun _ => InstructionForm.local_of_native

namespace Program

variable {functions : List Action} {routines done : List Routine} {test : TestCase}
variable {tests : List TestCase} {routine : Routine} {program : Program}

def SameCodePages (s t : State) : Prop := t.pages.pages .code = s.pages.pages .code

instance : Lower.DataFrame SameCodePages where
  refl _ := rfl
  trans _ _ _ hst htu := Eq.trans htu hst
  random _ _ := rfl
  ids _ _ _ := rfl
  data s id spec hnew := by
    rw [SameCodePages, PageRegistry.toPageStore_add hnew, PageStore.pages_add, if_neg (by decide)]

theorem lowerTest_forms (h : lowerTest test context s = .ok routine t)
    (ho : o ∈ routine.instructions) (hform : o.form.isLocal = false) :
    ∃ s' body t', lowerRoutine test.actions context s' = .ok body t' ∧ o ∈ body ∧
      s'.clobbers = s.clobbers := by
  obtain ⟨c, hc, rfl⟩ := lowerTest_ok h
  obtain ⟨opened, closed, label, hreserve, hbody, _⟩ := hc.run
  have hforeign : ∀ {code : List Instruction}, (∀ o ∈ code, o.form.isLocal) → o ∉ code := by
    intro code hcode hmem
    rw [hcode o hmem] at hform
    cases hform
  simp only [TestCode.instructions, List.mem_append] at ho
  rcases ho with (ho | ho) | ho
  · exact absurd ho (hforeign (Framing.isLocal.prologue hc))
  · exact ⟨opened, c.body, closed, hbody, ho,
      Lower.Moves.reserve (R := Lower.SameClobbers) _ _ _ _ _ _ _ hreserve⟩
  · exact absurd ho (hforeign (Framing.isLocal.epilogue hc))

theorem lowerFunctions_calls (h : lowerFunctions functions context s = .ok routines t)
    (hrecorded : Recorded done s.clobbers)
    (hnodup : (done.map Routine.name ++ functions.map Action.id).Nodup) {before after : List Routine}
    (hsplit : routines = before ++ routine :: after) (ho : o ∈ routine.instructions) {target : Id}
    (hform : o.form = .call target) : target ∈ (done ++ before).map Routine.name := by
  replace h := lowerFunctions_ok.1 h
  induction h generalizing done before with
  | done => simp at hsplit
  | @next f _ s out next _ _ hout _ ih =>
    cases before with
    | nil =>
      obtain ⟨rfl, _⟩ := List.cons.inj hsplit
      obtain ⟨callee, hcallee, hname⟩ := hrecorded.known target (lowerRoutine_calls hout ho hform)
      rw [List.append_nil]
      exact hname ▸ List.mem_map_of_mem hcallee
    | cons first before =>
      obtain ⟨rfl, hrest⟩ := List.cons.inj hsplit
      have hhead : lowerFunctions [f] context s = .ok [⟨f.id, out⟩]
          { next with clobbers := next.clobbers.insert f.id (clobberedRegisters next.clobbers out) } :=
        lowerFunctions_ok.2 (.next hout .done)
      have hjoined := (lowerFunctions_recorded hhead hrecorded
        (hnodup.sublist (by simp))).1
      simpa using ih hjoined (by simpa using hnodup) hrest

theorem lowerFunctions_moves {R : State → State → Prop} [Lower.DataFrame R]
    (hrecords : ∀ s clobbers, R s { s with clobbers }) (functions : List Action) :
    Lower.Moves R (lowerFunctions functions) := by
  induction functions with
  | nil => exact .pure _
  | cons f rest ih =>
    refine .bind (lowerRoutine_moves _) fun _ => .bind ?_ fun _ => .bind ih fun _ => .pure _
    intro context s _ t h
    rw [Lower.modify_ok] at h
    exact h ▸ hrecords _ _

theorem mem_pages_of_isLabel {registry : PageRegistry} (h : registry.isLabel id) :
    id ∈ (registry.pages .data ++ registry.pages .code).map Page.name := by
  obtain ⟨⟨kind, position⟩, hplace⟩ := IdMap.contains_iff.1 h
  obtain ⟨page, hpage, rfl⟩ := registry.coherent.exists_page hplace
  refine List.mem_map_of_mem (List.mem_append.2 ?_)
  cases kind with
  | data => exact .inl (List.mem_of_getElem? hpage)
  | code => exact .inr (List.mem_of_getElem? hpage)

/-- What the code and the pages of a program refer to is part of the program. -/
structure Closed (program : Program) : Prop where
  pages : program.functions.map Routine.name = program.codePages.map Page.name
  callees : ∀ before f after, program.functions = before ++ f :: after → ∀ o ∈ f.instructions,
    ∀ target, o.form = .call target → target ∈ before.map Routine.name
  recursion_free : ∀ f, ¬ Relation.TransGen program.Calls f f
  called : ∀ test ∈ program.tests, ∀ o ∈ test.instructions, ∀ target, o.form = .call target →
    target ∈ program.functions.map Routine.name
  tables : ∀ routine ∈ program.routines, ∀ o ∈ routine.instructions, ∀ memory paging level write,
    o.form = .pteAccess memory paging level write →
      memory ∈ (program.dataPages ++ program.codePages).map Page.name

/-- Where names are distinct and callees stand in front of their callers, no function calls itself,
be it through others. -/
theorem recursion_free_of_callees (hnodup : (program.functions.map Routine.name).Nodup)
    (hcallees : ∀ before f after, program.functions = before ++ f :: after → ∀ o ∈ f.instructions,
      ∀ target, o.form = .call target → target ∈ before.map Routine.name) (f : Id) :
    ¬ Relation.TransGen program.Calls f f := by
  have hcall : ∀ {f g : Id}, program.Calls f g →
      (program.functions.map Routine.name).idxOf g < (program.functions.map Routine.name).idxOf f := by
    rintro _ g ⟨routine, hroutine, rfl, o, ho, hform⟩
    obtain ⟨before, after, hsplit⟩ := List.append_of_mem hroutine
    have hbefore := hcallees before routine after hsplit o ho g hform
    have hnew : routine.name ∉ before.map Routine.name := by
      intro hmem
      rw [hsplit, List.map_append, List.map_cons] at hnodup
      exact (List.nodup_append.1 hnodup).2.2 _ hmem _ List.mem_cons_self rfl
    rw [hsplit, List.map_append, List.map_cons, List.idxOf_append_of_mem hbefore,
      List.idxOf_append_of_notMem hnew, List.idxOf_cons_self, Nat.add_zero]
    exact List.idxOf_lt_length_of_mem hbefore
  have hpath : ∀ {f g : Id}, Relation.TransGen program.Calls f g →
      (program.functions.map Routine.name).idxOf g < (program.functions.map Routine.name).idxOf f := by
    intro f g h
    induction h with
    | single h => exact hcall h
    | tail _ h ih => exact (hcall h).trans ih
  exact fun h => Nat.lt_irrefl _ (hpath h)

section Parts

variable {batch : CanonicalBatch} {v w : State}

structure Parts (tests : List TestCase) (context : Context) (batch : CanonicalBatch)
    (s t u v : State) (program : Program) : Prop where
  canonical : CanonicalBatch.ofTests tests context (.start context.options) = .ok batch s
  functions : lowerFunctions batch.functions context s = .ok program.functions t
  storage : Lower.reserve .data context.options.csrStorage (stackSpec context.options) context t =
    .ok () u
  tests : lowerTests batch.tests context u = .ok program.tests v
  harness : Harness.routines context = .ok program.harness
  dataPages : program.dataPages = v.pages.pages .data
  codePages : program.codePages = v.pages.pages .code

theorem exists_parts (h : ofTests tests context (.start context.options) = .ok program w) :
    ∃ batch s t u v, Parts tests context batch s t u v program := by
  obtain ⟨batch, s, t, u, v, hbatch, hfunctions, hstorage, hlowered, hharness, hpages⟩ := ofTests_ok h
  exact ⟨batch, s, t, u, v, hbatch, hfunctions, hstorage, hlowered, hharness, hpages.1, hpages.2⟩

namespace Parts

variable (h : Parts tests context batch s t u v program)
include h

theorem moves {R : State → State → Prop} [Lower.DataFrame R]
    (hrecords : ∀ s clobbers, R s { s with clobbers }) : R s v :=
  Lower.DataFrame.trans _ _ _ (lowerFunctions_moves hrecords _ _ _ _ _ h.functions)
    (Lower.DataFrame.trans _ _ _ (Lower.Moves.reserveData _ _ _ _ _ _ h.storage)
      (lowerTests_moves _ _ _ _ _ h.tests))

theorem names_nodup : (program.functions.map Routine.name).Nodup := by
  rw [lowerFunctions_names h.functions]
  exact CanonicalBatch.functions_nodup h.canonical

theorem recorded_start : Recorded [] s.clobbers := by
  have hempty : s.clobbers = {} :=
    CanonicalBatch.ofTests_moves (R := Lower.SameClobbers) _ _ _ _ _ h.canonical
  exact ⟨by simp [hempty, IdMap.contains], by simp⟩

theorem functions_paged : program.functions.map Routine.name = program.codePages.map Page.name := by
  have hsame := h.moves (R := SameCodePages) fun _ _ => rfl
  rw [lowerFunctions_names h.functions, h.codePages, hsame]
  exact CanonicalBatch.function_names (CanonicalBatch.canonical_of_run h.canonical)

theorem callees {before after : List Routine} (hsplit : program.functions = before ++ routine :: after)
    (ho : o ∈ routine.instructions) {target : Id} (hform : o.form = .call target) :
    target ∈ before.map Routine.name := by
  have hnodup : (([] : List Routine).map Routine.name ++ batch.functions.map Action.id).Nodup :=
    CanonicalBatch.functions_nodup h.canonical
  exact lowerFunctions_calls h.functions h.recorded_start hnodup hsplit ho hform

theorem called (hroutine : routine ∈ program.tests) (ho : o ∈ routine.instructions) {target : Id}
    (hform : o.form = .call target) : target ∈ program.functions.map Routine.name := by
  have hnodup : (([] : List Routine).map Routine.name ++ batch.functions.map Action.id).Nodup :=
    CanonicalBatch.functions_nodup h.canonical
  have hrecorded := (lowerFunctions_recorded h.functions h.recorded_start hnodup).1
  obtain ⟨before, test, after, _, next, _, _, hbefore, hrun⟩ := lowerTests_turn h.tests hroutine
  obtain ⟨s', body, _, hbody, ho, hsame⟩ := lowerTest_forms hrun ho (by rw [hform]; rfl)
  have hclobbers : next.clobbers = t.clobbers :=
    (lowerTests_moves (R := Lower.SameClobbers) _ _ _ _ _ hbefore).trans
      (Lower.Moves.reserveData (R := Lower.SameClobbers) _ _ _ _ _ _ h.storage)
  have hknown := lowerRoutine_calls hbody ho hform
  rw [hsame, hclobbers] at hknown
  obtain ⟨callee, hcallee, rfl⟩ := hrecorded.known target hknown
  exact List.mem_map_of_mem hcallee

variable (hentries : ∀ test ∈ tests, ∀ a ∈ test.order, ∀ memory ∈ a.entry?,
  ∃ b ∈ test.order, b.id = memory ∧ b.page?.isSome)
variable {memory : Id} {paging : Paging} {level : Nat} {write : Bool}
include hentries

theorem body_tables {body : List Instruction} {s' t' : State} (hactions : actions ∈ batch.routines)
    (hfresh : Action.areFresh actions) (hrun : lowerRoutine actions context s' = .ok body t')
    (ho : o ∈ body) (hform : o.form = .pteAccess memory paging level write) :
    memory ∈ (program.dataPages ++ program.codePages).map Page.name := by
  obtain ⟨b, hb, hentry⟩ := List.mem_filterMap.1 (lowerRoutine_entry hrun ho hform)
  rw [Action.pendingAll_of_new (Action.not_expanded_of_areFresh hfresh)] at hb
  have hregistered := CanonicalBatch.entry_registered hentries
    (CanonicalBatch.canonical_of_run h.canonical) b
    (CanonicalBatch.mem_actions_iff.2 ⟨actions, hactions, hb⟩) memory hentry
  rw [h.dataPages, h.codePages]
  exact mem_pages_of_isLabel (h.moves (R := Action.PagesKept) (fun _ _ _ h => h) memory hregistered)

theorem tables (hfresh : ∀ test ∈ tests, Action.areFresh test.actions)
    (hroutine : routine ∈ program.routines) (ho : o ∈ routine.instructions)
    (hform : o.form = .pteAccess memory paging level write) :
    memory ∈ (program.dataPages ++ program.codePages).map Page.name := by
  obtain ⟨hfreshTests, hfreshFunctions⟩ := CanonicalBatch.ofTests_fresh hfresh h.canonical
  have hforeign : o.form.isLocal = false := by rw [hform]; rfl
  simp only [routines, List.mem_append, or_assoc] at hroutine
  rcases hroutine with hroutine | hroutine | hroutine
  · obtain ⟨_, test, _, _, _, _, hsplit, _, hrun⟩ := lowerTests_turn h.tests hroutine
    obtain ⟨_, _, _, hbody, ho, _⟩ := lowerTest_forms hrun ho hforeign
    have htest : test ∈ batch.tests := by simp [hsplit]
    exact h.body_tables hentries (List.mem_append_right _ (List.mem_map_of_mem htest))
      (Action.areFresh_iff.2 (hfreshTests test htest)) hbody ho hform
  · obtain ⟨_, f, _, _, _, _, _, hsplit, _, hrun, rfl⟩ := lowerFunctions_turn h.functions hroutine
    have hf : f ∈ batch.functions := by simp [hsplit]
    exact h.body_tables hentries (List.mem_append_left _ (List.mem_map_of_mem hf))
      (Action.areFresh_iff.2 (List.forall_mem_singleton.2 (hfreshFunctions f hf))) hrun ho hform
  · rw [Framing.isLocal.routines h.harness routine hroutine o ho] at hforeign
    cases hforeign

end Parts

end Parts

/-- A plan that is lowered with the standard steps becomes a program that is closed under its
references. -/
theorem lowered_closed {scenarios : List Scenario}
    (h : lowerScenarios .standard context scenarios = .ok program) : program.Closed := by
  obtain ⟨tests, final, htests, hrun⟩ := lowerScenarios_ok h
  obtain ⟨batch, s, t, u, v, hparts⟩ := exists_parts hrun
  have hcallees : ∀ before f after, program.functions = before ++ f :: after →
      ∀ o ∈ f.instructions, ∀ target, o.form = .call target → target ∈ before.map Routine.name :=
    fun _ _ _ hsplit _ ho _ hform => hparts.callees hsplit ho hform
  exact {
    pages := hparts.functions_paged
    callees := hcallees
    recursion_free := recursion_free_of_callees hparts.names_nodup hcallees
    called := fun _ htest _ ho _ hform => hparts.called htest ho hform
    tables := fun _ hroutine _ ho _ _ _ _ hform =>
      hparts.tables (buildTests_entry htests) (buildTests_pins htests).1 hroutine ho hform }

/-- Two functions, one inside the other, which a test calls through the outer one. Both sides ask for
entries of page tables. -/
def pagedCalls : List Scenario :=
  [{ name := "t", steps := [
    { id := "m", kind := .memory { size := 4096 } },
    { id := "f", kind := .codePage { size := 4096 }, code := [
      { id := "g", kind := .codePage { size := 4096 }, code := [
        { id := "w", kind := .writeLeafPte, inputs := [.ref "m"] }] },
      { id := "c", kind := .call, inputs := [.ref "g"] }] },
    { id := "d", kind := .call, inputs := [.ref "f"] },
    { id := "r", kind := .readPte 1, inputs := [.ref "f"] }] }]

theorem pagedCalls_closed : ∃ program,
    lowerScenarios .standard (standardContext .rv64) pagedCalls = .ok program ∧
    (∃ f ∈ program.functions, ∃ o ∈ f.instructions, ¬ o.form.isLocal ∧ o.name = "jalr") ∧
    (∃ test ∈ program.tests, ∃ o ∈ test.instructions, ¬ o.form.isLocal ∧ o.name = "read_pte") ∧
    program.Closed := by
  obtain ⟨program, h, hcalls, hreads⟩ : ∃ program,
      lowerScenarios .standard (standardContext .rv64) pagedCalls = .ok program ∧
      (∃ f ∈ program.functions, ∃ o ∈ f.instructions, ¬ o.form.isLocal ∧ o.name = "jalr") ∧
      ∃ test ∈ program.tests, ∃ o ∈ test.instructions, ¬ o.form.isLocal ∧ o.name = "read_pte" :=
    exists_lowered rfl (by decide +kernel)
  exact ⟨program, h, hcalls, hreads, lowered_closed h⟩

end Program

end PlanLowering
