import PlanLowering.Proofs.Catalog
import PlanLowering.Proofs.FirstBlock
import PlanLowering.Proofs.RemarkedTests

/-!
# Comments leave no trace but themselves

Comments may be put in at the top of a scenario and of every code page, as many as one likes. One by
one they shift the names of values, and a program shows no name of a value: what is lowered is the same
but for the comments.
-/

namespace PlanLowering

section Sound

variable {test test' : TestCase} {id : Id} {text : String}

theorem Action.Resembles.shallow {a a' : Action} (h : a.Resembles a') :
    a'.ids = a.ids ∧ a'.pages = a.pages ∧ (a.Original → a'.Original) := by
  cases h with
  | same => exact ⟨rfl, rfl, fun h => h⟩
  | block => exact ⟨rfl, rfl, fun h => h⟩

theorem mem_noted {note b : Action} {order order' : List Action}
    (h : Noted Action.Resembles (fun _ _ => True) [note] order order') :
    (b ∈ order' → b = note ∨ ∃ a ∈ order, a.Resembles b) ∧
      (b ∈ order → ∃ b' ∈ order', b.Resembles b') := by
  cases h with
  | intro hpre hpost _ =>
    constructor
    · intro hb
      rcases List.mem_append.1 hb with hb | hb
      · rcases List.mem_append.1 hb with hb | hb
        · obtain ⟨a, ha, hab⟩ := exists_of_forall₂ hpre hb
          exact .inr ⟨a, List.mem_append_left _ ha, hab⟩
        · exact .inl (List.mem_singleton.1 hb)
      · obtain ⟨a, ha, hab⟩ := exists_of_forall₂ hpost hb
        exact .inr ⟨a, List.mem_append_right _ ha, hab⟩
    · intro hb
      rcases List.mem_append.1 hb with hb | hb
      · obtain ⟨a, ha, hab⟩ := exists_of_forall₂ hpre.flip hb
        exact ⟨a, by simp [ha], hab⟩
      · obtain ⟨a, ha, hab⟩ := exists_of_forall₂ hpost.flip hb
        exact ⟨a, by simp [ha], hab⟩

theorem TestCase.Sound.remarked (h : test.Sound) (hremark : test.Remarked id text test') :
    test'.Sound := by
  have horder := hremark.actions.order
  obtain ⟨pre, post, hids, hids'⟩ := ids_noted horder
  have hmem : ∀ x ∈ test.ids, x ∈ test'.ids := by
    intro x hx
    rw [hids] at hx
    rw [hids']
    rcases List.mem_append.1 hx with hx | hx
    · exact List.mem_append_left _ hx
    · exact List.mem_append_right _ (List.mem_cons_of_mem _ hx)
  refine ⟨fun b hb => ?_, fun b hb x hx => ?_, fun b hb x hx => ?_⟩
  · rcases (mem_noted horder).1 hb with rfl | ⟨a, ha, hab⟩
    · exact ⟨rfl, rfl⟩
    · exact hab.shallow.2.2 (h.original a ha)
  · rcases (mem_noted horder).1 hb with rfl | ⟨a, ha, hab⟩
    · cases hx
    · rw [hab.shallow.1] at hx
      exact hmem x (h.closed a ha x hx)
  · rcases (mem_noted horder).1 hb with rfl | ⟨a, ha, hab⟩
    · cases hx
    · rw [hab.shallow.2.1] at hx
      obtain ⟨c, hc, hid, hpage⟩ := h.pages a ha x hx
      obtain ⟨c', hc', hcc⟩ := (mem_noted horder).2 hc
      exact ⟨c', hc', hcc.id_eq.trans hid, by rwa [hcc.page?_eq]⟩

end Sound

def Block.isPage : Block → Bool
  | .codePage _ => true
  | .assertException .. => false

namespace Action

/-- Comments were put in, among the actions if `top` allows it, and into code pages at any depth. Their
ids are listed in the order of the text. -/
inductive Commented : Bool → List Id → List Action → List Action → Prop where
  | nil {top} : Commented top [] [] []
  | comment {id text ids actions actions'} (h : Commented true ids actions actions') :
      Commented true (id :: ids) actions (.new id (.comment text) :: actions')
  | simple {top ids id expanded op actions actions'} (h : Commented top ids actions actions') :
      Commented top ids (.simple id expanded op :: actions) (.simple id expanded op :: actions')
  | block {top ids ids' id expanded owner code code' actions actions'}
      (hcode : Commented owner.isPage ids code code') (h : Commented top ids' actions actions') :
      Commented top (ids ++ ids') (.block id expanded owner code :: actions)
        (.block id expanded owner code' :: actions')

variable {top : Bool} {ids : List Id} {id : Id} {actions actions' : List Action}

theorem Commented.eq_of_nil (h : Commented top ids actions actions') (hids : ids = []) :
    actions' = actions := by
  induction h with
  | nil => rfl
  | comment => cases hids
  | simple _ ih => rw [ih hids]
  | block _ _ ihcode ih =>
    obtain ⟨hcode, hrest⟩ := List.append_eq_nil_iff.1 hids
    rw [ihcode hcode, ih hrest]

theorem Commented.first (h : Commented top ids actions actions') {more : List Id}
    (hids : ids = id :: more) : ∃ text mid, Remarked (.new id (.comment text)) top actions mid ∧
      Commented top more mid actions' := by
  induction h generalizing more with
  | nil => cases hids
  | @comment id' text ids actions actions' h ih =>
    cases hids
    exact ⟨text, _, .here, .simple h⟩
  | simple _ ih =>
    obtain ⟨text, mid, hfirst, hmore⟩ := ih hids
    exact ⟨text, _, .next hfirst, .simple hmore⟩
  | @block top ids ids' id' expanded owner code code' actions actions' hcode h ihcode ih =>
    rcases List.append_eq_cons_iff.1 hids with ⟨rfl, hids'⟩ | ⟨rest, rfl, rfl⟩
    · obtain ⟨text, mid, hfirst, hmore⟩ := ih hids'
      have hsame := hcode.eq_of_nil rfl
      subst hsame
      exact ⟨text, _, .next hfirst, .block hcode hmore⟩
    · obtain ⟨text, mid, hfirst, hmore⟩ := ihcode rfl
      refine ⟨text, .block id' expanded owner mid :: actions, ?_, .block hmore h⟩
      cases owner with
      | codePage spec => exact .page hfirst
      | assertException => exact .assertion hfirst

theorem Commented.isEmpty_eq (h : Commented top ids actions actions') (htop : top = false) :
    actions'.isEmpty = actions.isEmpty := by
  cases h with
  | nil => rfl
  | comment => cases htop
  | simple => rfl
  | block => rfl

end Action

structure TestCase.Commented (test test' : TestCase) : Prop where
  name : test'.name = test.name
  actions : ∃ ids, Action.Commented true ids test.actions test'.actions ∧ ids.Nodup ∧
    ∀ id ∈ ids, id ∉ test.ids

namespace Program

variable {context : Context} {tests tests' tests'' front back : List TestCase} {test test' : TestCase}

theorem Alike.refl (program : Program) : program.Alike program := ⟨rfl, rfl, rfl, rfl, rfl⟩

theorem Alike.trans {p p' p'' : Program} (h : p.Alike p') (h' : p'.Alike p'') : p.Alike p'' :=
  ⟨h'.tests.trans h.tests, h'.functions.trans h.functions, h'.harness.trans h.harness,
    h'.dataPages.trans h.dataPages, h'.codePages.trans h.codePages⟩

theorem LoweredAlike.refl (tests : List TestCase) : LoweredAlike context tests tests := by
  unfold LoweredAlike
  cases ofTests tests context (.start context.options) with
  | ok program final => exact .ok (.refl program) trivial
  | error e final => exact .error

theorem LoweredAlike.trans (h : LoweredAlike context tests tests')
    (h' : LoweredAlike context tests' tests'') : LoweredAlike context tests tests'' := by
  unfold LoweredAlike at h h' ⊢
  generalize ofTests tests context (.start context.options) = first at h ⊢
  generalize ofTests tests' context (.start context.options) = second at h h'
  generalize ofTests tests'' context (.start context.options) = third at h' ⊢
  cases h with
  | error => cases h' with
    | error => exact .error
  | ok hresult _ => cases h' with
    | ok hresult' _ => exact .ok (hresult.trans hresult') trivial

section Declared

variable (hcatalog : ∀ t ∈ context.catalog.templates, t.Typed)
include hcatalog

theorem loweredAlike_of_commented (hsound : ∀ t ∈ front ++ test :: back, t.Sound)
    (h : test.Commented test') :
    LoweredAlike context (front ++ test :: back) (front ++ test' :: back) ∧ test'.Sound := by
  obtain ⟨hname, ids, hactions, hnodup, hfresh⟩ := h
  induction ids generalizing test with
  | nil =>
    have hsame : test' = test := by
      obtain ⟨name, actions⟩ := test
      obtain ⟨name', actions'⟩ := test'
      have hsame := hactions.eq_of_nil rfl
      simp only at hname hsame
      rw [hname, hsame]
    rw [hsame]
    exact ⟨.refl _, hsound test (by simp)⟩
  | cons id ids ih =>
    rw [List.nodup_cons] at hnodup
    rw [List.forall_mem_cons] at hfresh
    obtain ⟨text, mid, hfirst, hmore⟩ := hactions.first rfl
    have hremark : test.Remarked id text { test with actions := mid } := ⟨rfl, hfirst⟩
    have hmid : TestCase.Sound { test with actions := mid } :=
      (hsound test (by simp)).remarked hremark
    have hmidSound : ∀ t ∈ front ++ { test with actions := mid } :: back, t.Sound := by
      rw [List.forall_mem_append, List.forall_mem_cons] at hsound ⊢
      exact ⟨hsound.1, hmid, hsound.2.2⟩
    have hmidFresh : ∀ x ∈ ids, x ∉ TestCase.ids { test with actions := mid } := by
      intro x hx hxmid
      obtain ⟨pre, post, hids, hids'⟩ := TestCase.ids_noted hremark.actions.order
      rw [hids', List.mem_append, List.mem_cons] at hxmid
      have hold := hfresh.2 x hx
      rw [hids, List.mem_append] at hold
      rcases hxmid with hpre | rfl | hpost
      · exact hold (.inl hpre)
      · exact hnodup.1 hx
      · exact hold (.inr hpost)
    obtain ⟨hrest, hlast⟩ := ih hmidSound hname hmore hnodup.2 hmidFresh
    exact ⟨(loweredAlike_of_remarked hcatalog hsound hremark hfresh.1).trans hrest, hlast⟩

theorem loweredAlike_of_forall₂ (h : List.Forall₂ TestCase.Commented tests tests')
    (hsound : ∀ t ∈ front ++ tests, t.Sound) :
    LoweredAlike context (front ++ tests) (front ++ tests') := by
  induction h generalizing front with
  | nil => exact .refl _
  | @cons test test' rest rest' htest _ ih =>
    obtain ⟨hone, hnew⟩ := loweredAlike_of_commented hcatalog hsound htest
    have hmore : LoweredAlike context (front ++ [test'] ++ rest) (front ++ [test'] ++ rest') := by
      refine ih ?_
      rw [List.forall_mem_append, List.forall_mem_cons] at hsound
      rw [List.append_assoc, List.singleton_append, List.forall_mem_append, List.forall_mem_cons]
      exact ⟨hsound.1, hnew, hsound.2.2⟩
    simp only [List.append_assoc, List.singleton_append] at hmore
    exact hone.trans hmore

end Declared
end Program

section Build

variable {scope : StepScope} {id : Id} {inputs : List StepInput} {code : List Action}

theorem Access.ofLoadInputs_pages {address : Option Address} (offset : Int64) (size : Option UInt8)
    (op : Option String) (h : ofLoadInputs scope inputs = .ok address) :
    ∀ x ∈ (ofStep address offset size op).pages, scope.isMemory x := by
  unfold ofLoadInputs at h
  split at h
  · cases h
    simp [pages, ofStep, Access.to]
  · next id =>
    cases h
    by_cases hmemory : scope.isMemory id <;> simp [pages, ofStep, Access.to, ofRef, hmemory]
  · cases h
  · cases h

theorem StepKind.action_pages {kind : StepKind} {a : Action}
    (hpages : ∀ x, scope.isCode x → scope.isMemory x)
    (h : kind.action scope id inputs code = .ok a) : ∀ x ∈ a.pages, scope.isMemory x := by
  cases hcode : kind.acceptsCode with
  | true =>
    obtain ⟨owner, rfl⟩ := action_block hcode h
    simp [Action.pages]
  | false =>
    obtain ⟨op, rfl, hgives⟩ := action_gives hcode h
    cases hgives with
    | @load offset size op _ haddress => exact Access.ofLoadInputs_pages offset size op haddress
    | @store _ _ _ page _ _ hinputs =>
      cases page with
      | none => simp [Action.new, Action.pages, Op.pages, Access.pages, Access.ofStep, Access.to]
      | some page =>
        have hpage : scope.isMemory page := Access.ofStoreInputs_memory hinputs (by simp) page rfl
        simpa [Action.new, Action.pages, Op.pages, Access.pages, Access.ofStep, Access.to] using hpage
    | call _ htarget => exact List.forall_mem_singleton.2 (hpages _ htarget)
    | readPte ht | readLeafPte ht | writePte ht | writeLeafPte ht =>
      exact List.forall_mem_singleton.2 (PteTarget.ofInputs_memory ht)
    | modifyPte _ hpage => exact List.forall_mem_singleton.2 hpage
    | _ => simp [Action.new, Action.pages, Op.pages]

mutual

theorem StepScope.isMemory_of_isCode (step : Step) :
    ∀ x ∈ (ofStep step).code, x ∈ (ofStep step).memory := by
  match step with
  | { id, kind, inputs, code } =>
    intro x hx
    rcases List.mem_append.1 hx with hx | hx
    · refine List.mem_append_left _ ?_
      cases kind <;> simp_all [own]
    · exact List.mem_append_right _ (isMemory_of_isCode_all code x hx)

theorem StepScope.isMemory_of_isCode_all (steps : List Step) :
    ∀ x ∈ (ofSteps steps).code, x ∈ (ofSteps steps).memory := by
  match steps with
  | [] => simp [ofSteps]
  | step :: rest =>
    intro x hx
    rcases List.mem_append.1 hx with hx | hx
    · exact List.mem_append_left _ (isMemory_of_isCode step x hx)
    · exact List.mem_append_right _ (isMemory_of_isCode_all rest x hx)

end

namespace Action

mutual

theorem original_of_fresh {a : Action} (h : a.isFresh) : ∀ b ∈ a.postorder, b.Original := by
  match a with
  | .simple id expanded op =>
    simp only [isFresh, Bool.and_eq_true, Bool.not_eq_true'] at h
    exact List.forall_mem_singleton.2 h
  | .block id expanded owner code =>
    simp only [isFresh, Bool.and_eq_true, Bool.not_eq_true'] at h
    rw [postorder, List.forall_mem_append]
    exact ⟨original_of_areFresh h.2, List.forall_mem_singleton.2 h.1⟩

theorem original_of_areFresh {actions : List Action} (h : areFresh actions) :
    ∀ b ∈ postorderAll actions, b.Original := by
  match actions with
  | [] => simp [postorderAll]
  | a :: rest =>
    simp only [areFresh, Bool.and_eq_true] at h
    rw [postorderAll, List.forall_mem_append]
    exact ⟨original_of_fresh h.1, original_of_areFresh h.2⟩

end

end Action

theorem StepBuilders.buildTest_sound {scenario : Scenario} {test : TestCase}
    (hclosed : scenario.Closed) (h : standard.buildTest scenario = .ok test) : test.Sound := by
  have htest := (buildTest_closed hclosed h).2
  have haccepted := buildTest_accepted h
  simp only [buildTest, except_bind_ok, except_pure_ok] at h
  obtain ⟨actions, hactions, rfl⟩ := h
  refine ⟨Action.original_of_areFresh (buildAll_pins hactions).1, htest, fun a ha x hx => ?_⟩
  obtain ⟨kind, inputs, code, hmade⟩ := buildAll_made hactions a ha
  have hpages : ∀ x, (StepScope.ofSteps scenario.steps).isCode x →
      (StepScope.ofSteps scenario.steps).isMemory x := fun x hx => by
    simp only [StepScope.isCode, StepScope.isMemory, decide_eq_true_eq] at hx ⊢
    exact StepScope.isMemory_of_isCode_all scenario.steps x hx
  exact haccepted.reserved x (StepKind.action_pages hpages hmade x hx)

end Build

def StepKind.isPage : StepKind → Bool
  | .codePage _ => true
  | _ => false

/-- Comment steps were put in, among the steps if `top` allows it, and into code pages at any depth.
Their ids are listed in the order of the text. -/
inductive Step.Commented : Bool → List Id → List Step → List Step → Prop where
  | nil {top} : Commented top [] [] []
  | comment {id text inputs ids steps steps'} (h : Commented true ids steps steps') :
      Commented true (id :: ids) steps ({ id, kind := .comment text, inputs } :: steps')
  | step {top ids ids' id kind inputs code code' steps steps'}
      (hcode : Commented kind.isPage ids code code') (h : Commented top ids' steps steps') :
      Commented top (ids ++ ids') ({ id, kind, inputs, code } :: steps)
        ({ id, kind, inputs, code := code' } :: steps')

/-- Comment steps were put into the scenario, at its top or at the top of code pages, under ids of their
own. -/
structure Scenario.Commented (scenario scenario' : Scenario) : Prop where
  name : scenario'.name = scenario.name
  steps : ∃ ids, Step.Commented true ids scenario.steps scenario'.steps ∧ ids.Nodup ∧
    ∀ id ∈ ids, id ∉ scenario.ids

section Build

variable {scope : StepScope} {top : Bool} {ids : List Id} {steps steps' : List Step}

theorem StepScope.ofSteps_commented (h : Step.Commented top ids steps steps') :
    ofSteps steps' = ofSteps steps := by
  induction h with
  | nil => rfl
  | comment _ ih =>
    rw [ofSteps, ih]
    rfl
  | step _ _ ihcode ih => rw [ofSteps, ofSteps, ofStep, ofStep, ih, ihcode]

theorem Step.Commented.isEmpty_eq (h : Commented top ids steps steps') (htop : top = false) :
    steps'.isEmpty = steps.isEmpty := by
  cases h with
  | nil => rfl
  | comment => cases htop
  | step => rfl

/-- The second action may stand where the first one did, if comments may have been put in. -/
def Action.Goes (ids : List Id) (a a' : Action) : Prop :=
  ∀ {top ids' rest rest'}, Commented top ids' rest rest' →
    Commented top (ids ++ ids') (a :: rest) (a' :: rest')

theorem Step.Commented.of_nil (h : Step.Commented top ids [] steps') (htop : top = false) :
    ids = [] ∧ steps' = [] := by
  cases h with
  | nil => exact ⟨rfl, rfl⟩
  | comment => cases htop

theorem StepKind.not_isPage_of_not_accepts {kind : StepKind} (h : kind.acceptsCode = false) :
    kind.isPage = false := by
  cases kind with
  | codePage spec => cases h
  | _ => rfl

theorem StepKind.action_goes {kind : StepKind} {id : Id} {inputs : List StepInput}
    {code : List Action} (haccepts : kind.acceptsCode = false) :
    Option.Rel (Action.Goes []) (kind.action scope id inputs code).toOption
      (kind.action scope id inputs code).toOption := by
  cases hmade : kind.action scope id inputs code with
  | error flaw => exact .none
  | ok a =>
    obtain ⟨op, rfl, -⟩ := action_simple haccepts hmade
    exact .some fun hrest => .simple hrest

theorem StepKind.action_commented {kind : StepKind} {code code' : List Action} (id : Id)
    (inputs : List StepInput) (haccepts : kind.acceptsCode)
    (h : Action.Commented kind.isPage ids code code') :
    Option.Rel (Action.Goes ids) (kind.action scope id inputs code).toOption
      (kind.action scope id inputs code').toOption := by
  cases kind with
  | codePage spec =>
    refine rel_bind_self fun _ => .some fun hrest => ?_
    exact .block h hrest
  | assertException cause =>
    have hempty := h.isEmpty_eq rfl
    refine rel_bind_self fun _ => ?_
    simp only [hempty]
    cases code.isEmpty with
    | true => exact .none
    | false => exact .some fun hrest => .block h hrest
  | _ => cases haccepts

theorem StepBuilders.buildAll_commented (h : Step.Commented top ids steps steps') :
    Option.Rel (Action.Commented top ids) (standard.buildAll scope steps).toOption
      (standard.buildAll scope steps').toOption := by
  induction h with
  | nil => exact .some .nil
  | @comment id text inputs ids steps steps' _ ih =>
    have hself : standard.buildAll scope steps = standard.buildAll scope steps >>= pure := by
      rw [bind_pure]
    have hcomment : standard.build scope { id, kind := .comment text, inputs } =
        .ok (.new id (.comment text)) := rfl
    rw [hself, buildAll, hcomment]
    show Option.Rel _ _ (standard.buildAll scope steps' >>= fun more =>
      pure (Action.new id (.comment text) :: more)).toOption
    exact rel_bind ih fun _ _ hmore => .some (.comment hmore)
  | @step top ids ids' id kind inputs code code' steps steps' hcode _ ihcode ih =>
    have hfirst : Option.Rel (Action.Goes ids) (standard.build scope { id, kind, inputs, code }).toOption
        (standard.build scope { id, kind, inputs, code := code' }).toOption := by
      rw [build_standard, build_standard]
      cases haccepts : kind.acceptsCode with
      | true =>
        simp only [Bool.not_true, Bool.and_false, Bool.false_eq_true, if_false]
        generalize (standard.buildAll scope code).toOption = built at ihcode ⊢
        generalize (standard.buildAll scope code').toOption = built' at ihcode ⊢
        cases ihcode with
        | none => exact .none
        | some hbuilt => exact StepKind.action_commented id inputs haccepts hbuilt
      | false =>
        rw [hcode.isEmpty_eq (StepKind.not_isPage_of_not_accepts haccepts)]
        cases code with
        | cons step rest => exact .none
        | nil =>
          obtain ⟨rfl, rfl⟩ := hcode.of_nil (StepKind.not_isPage_of_not_accepts haccepts)
          exact StepKind.action_goes haccepts
    exact rel_bind hfirst fun _ _ hgoes => rel_bind ih fun _ _ hmore => .some (hgoes hmore)

theorem Scenario.Commented.buildTest {scenario scenario' : Scenario} (h : scenario.Commented scenario')
    (hclosed : scenario.Closed) :
    Option.Rel (fun test test' => test.Commented test' ∧ test.Sound)
      (StepBuilders.standard.buildTest scenario).toOption
      (StepBuilders.standard.buildTest scenario').toOption := by
  obtain ⟨hname, ids, hsteps, hnodup, hfresh⟩ := h
  have hbuilt : Option.Rel
      (fun test test' : TestCase => test'.name = test.name ∧
        Action.Commented true ids test.actions test'.actions)
      (StepBuilders.standard.buildTest scenario).toOption
      (StepBuilders.standard.buildTest scenario').toOption := by
    rw [StepBuilders.buildTest, StepBuilders.buildTest, StepScope.ofSteps_commented hsteps]
    exact rel_bind (StepBuilders.buildAll_commented hsteps) fun _ _ h => .some ⟨hname, h⟩
  have hown := rel_and_left hbuilt (Q := fun test => test.ids = scenario.ids ∧ test.Sound)
    fun test htest => ⟨(StepBuilders.buildTest_closed hclosed htest).1,
      StepBuilders.buildTest_sound hclosed htest⟩
  generalize (StepBuilders.standard.buildTest scenario).toOption = before at hown ⊢
  generalize (StepBuilders.standard.buildTest scenario').toOption = after at hown ⊢
  cases hown with
  | none => exact .none
  | some h =>
    obtain ⟨⟨hname, hactions⟩, hids, hsound⟩ := h
    exact .some ⟨⟨hname, ids, hactions, hnodup, fun id hid => by
      rw [hids]
      exact hfresh id hid⟩, hsound⟩

theorem Program.buildTests_commented {plans plans' : List Scenario}
    (h : List.Forall₂ Scenario.Commented plans plans') (hclosed : ∀ plan ∈ plans, plan.Closed) :
    Option.Rel (fun tests tests' => List.Forall₂ TestCase.Commented tests tests' ∧
        ∀ test ∈ tests, test.Sound)
      (buildTests .standard plans).toOption (buildTests .standard plans').toOption := by
  induction h with
  | nil => exact .some ⟨.nil, by simp⟩
  | cons hplan _ ih =>
    rw [List.forall_mem_cons] at hclosed
    refine rel_bind (hplan.buildTest hclosed.1) fun test test' htest => ?_
    refine rel_bind (ih hclosed.2) fun more more' hmore => .some ?_
    exact ⟨.cons htest.1 hmore.1, List.forall_mem_cons.2 ⟨htest.2, hmore.2⟩⟩

end Build

/-- Comments change nothing but the comments of a program. A plan whose steps refer to steps of their
scenarios is lowered with them where it is lowered without them, to routines of the same names and with
the same text, and with the same pages. -/
theorem lowerScenarios_comments {context : Context} {specs : List TemplateSpec} {width : Xlen}
    (hcatalog : Catalog.ofSpecs specs width = .ok context.catalog) {plans plans' : List Scenario}
    (hclosed : ∀ plan ∈ plans, plan.Closed) (h : List.Forall₂ Scenario.Commented plans plans') :
    ((∃ program, lowerScenarios .standard context plans = .ok program) ↔
      ∃ program, lowerScenarios .standard context plans' = .ok program) ∧
    ∀ program program', lowerScenarios .standard context plans = .ok program →
      lowerScenarios .standard context plans' = .ok program' → program.Alike program' := by
  have hbuilt := Program.buildTests_commented h hclosed
  simp only [lowerScenarios_iff]
  generalize (Program.buildTests .standard plans).toOption = before at hbuilt ⊢
  generalize (Program.buildTests .standard plans').toOption = after at hbuilt ⊢
  cases hbuilt with
  | none => simp
  | @some tests tests' hbuilt =>
    have halike : Program.LoweredAlike context tests tests' :=
      @Program.loweredAlike_of_forall₂ context tests tests' [] (Catalog.ofSpecs_typed hcatalog)
        hbuilt.1 hbuilt.2
    simp only [Option.mem_def, Option.some.injEq, exists_eq_left']
    refine ⟨halike.ok_iff, ?_⟩
    rintro program program' ⟨_, hrun⟩ ⟨_, hrun'⟩
    exact halike.of_ok hrun hrun'

/-- A function that loads from a page, and a test that calls it. -/
def bareCall : List Scenario :=
  [{ name := "t", steps := [
    { id := "m", kind := .memory { size := 4096 } },
    { id := "f", kind := .codePage { size := 4096 }, code := [
      { id := "l", kind := .load 8 none (some "ld"), inputs := [.ref "m"] }] },
    { id := "c", kind := .call, inputs := [.ref "f"] }] }]

/-- The same with a comment in front of the page and one inside the function. -/
def notedCall : List Scenario :=
  [{ name := "t", steps := [
    { id := "n", kind := .comment "data" },
    { id := "m", kind := .memory { size := 4096 } },
    { id := "f", kind := .codePage { size := 4096 }, code := [
      { id := "l", kind := .load 8 none (some "ld"), inputs := [.ref "m"] },
      { id := "k", kind := .comment "loaded" }] },
    { id := "c", kind := .call, inputs := [.ref "f"] }] }]

theorem bareCall_noted : List.Forall₂ Scenario.Commented bareCall notedCall := by
  refine .cons ⟨rfl, ["n", "k"], ?_, by decide, by decide⟩ .nil
  have hcode : Step.Commented (StepKind.codePage { size := 4096 }).isPage ["k"]
      [{ id := "l", kind := .load 8 none (some "ld"), inputs := [.ref "m"] }]
      [{ id := "l", kind := .load 8 none (some "ld"), inputs := [.ref "m"] },
        { id := "k", kind := .comment "loaded" }] :=
    .step .nil (.comment .nil)
  exact .comment (.step .nil (.step hcode (.step .nil .nil)))

theorem bareCall_alike : ∃ program program',
    lowerScenarios .standard (standardContext .rv64) bareCall = .ok program ∧
    lowerScenarios .standard (standardContext .rv64) notedCall = .ok program' ∧
    (∃ f ∈ program'.functions, ∃ o ∈ f.instructions, o.isComment) ∧
    program.Alike program' := by
  obtain ⟨program', hnoted, hcomment⟩ : ∃ program',
      lowerScenarios .standard (standardContext .rv64) notedCall = .ok program' ∧
      ∃ f ∈ program'.functions, ∃ o ∈ f.instructions, o.isComment :=
    exists_lowered rfl (by decide +kernel)
  obtain ⟨hiff, halike⟩ :=
    @lowerScenarios_comments (standardContext .rv64) _ _ Catalog.builtin_rv64 _ _ (by decide)
      bareCall_noted
  obtain ⟨program, hbare⟩ := hiff.2 ⟨program', hnoted⟩
  exact ⟨program, program', hbare, hnoted, hcomment, halike program program' hbare hnoted⟩

end PlanLowering
