import PlanLowering.Program.Lower
import PlanLowering.Proofs.RenumberedAllocation

/-!
# Routines in lockstep

Routines under other numbers, perhaps with a comment in between, are lowered to the same text but for
the comment. They destroy the same registers and reach the same control registers, so what follows
them is the same, too.
-/

namespace PlanLowering

open Lower (Lockstep)

variable {m : Nat} {context : Context}

section Text

def Instruction.isComment (i : Instruction) : Bool :=
  match i.form with
  | .comment _ => true
  | _ => false

def Instruction.statements (code : List Instruction) : List String :=
  (code.filter (!·.isComment)).map text

/-- The name of a routine, and the texts of its instructions without comments. -/
def Routine.uncommented (r : Routine) : String × List String :=
  (r.name, Instruction.statements r.instructions)

variable {text : Option String} {xs ys : List Instruction}

namespace Instruction

theorem statements_append (xs ys : List Instruction) :
    statements (xs ++ ys) = statements xs ++ statements ys := by
  simp [statements]

theorem statements_notes (m : Nat) (text : Option String) : statements (notes m text) = [] := by
  cases text <;> rfl

theorem statements_alike (h : List.Forall₂ Alike xs ys) : statements ys = statements xs := by
  induction h with
  | nil => rfl
  | @cons i i' rest rest' hi _ ih =>
    obtain ⟨id, rfl⟩ := hi
    have hcomment : isComment { i with id } = i.isComment := rfl
    have htext : text { i with id } = i.text := rfl
    unfold statements at ih ⊢
    rw [List.filter_cons, List.filter_cons, hcomment]
    split
    · rw [List.map_cons, List.map_cons, htext, ih]
    · exact ih

/-- What is read off each instruction, by no id, is the same for code that differs in a note only. -/
theorem NotedAlike.flatMap_eq {α : Type} {f : Instruction → List α}
    (hf : ∀ i i', Alike i i' → f i' = f i) (hnotes : ∀ o ∈ notes m text, f o = [])
    (h : NotedAlike m text xs ys) : ys.flatMap f = xs.flatMap f := by
  have hsame {xs ys : List Instruction} (h : List.Forall₂ Alike xs ys) :
      ys.flatMap f = xs.flatMap f := by
    induction h with
    | nil => rfl
    | cons hi _ ih => rw [List.flatMap_cons, List.flatMap_cons, hf _ _ hi, ih]
  cases h with
  | intro hfront hback _ =>
    rw [List.flatMap_append, List.flatMap_append, List.flatMap_append, hsame hfront, hsame hback,
      List.flatMap_eq_nil_iff.2 hnotes, List.append_nil]

theorem NotedAlike.statements_eq (h : NotedAlike m text xs ys) : statements ys = statements xs := by
  cases h with
  | intro hfront hback _ =>
    rw [statements_append, statements_append, statements_append, statements_notes,
      statements_alike hfront, statements_alike hback, List.append_nil]

theorem NotedAlike.statements_around (h : NotedAlike m text xs ys) (before after : List Instruction) :
    statements (before ++ ys ++ after) = statements (before ++ xs ++ after) := by
  simp only [statements_append, h.statements_eq]

theorem form_of_mem_notes (m : Nat) (text : Option String) :
    ∀ o ∈ notes m text, ∃ text, o = .comment s!"r{m}" text := by
  intro o ho
  obtain ⟨text, -, rfl⟩ := List.mem_map.1 ho
  exact ⟨text, rfl⟩

end Instruction

theorem clobberedRegisters_eq (recorded : IdMap (List Register))
    (h : Instruction.NotedAlike m text xs ys) :
    clobberedRegisters recorded ys = clobberedRegisters recorded xs := by
  unfold clobberedRegisters
  rw [h.flatMap_eq]
  · rintro i i' ⟨id, rfl⟩
    rfl
  · intro o ho
    obtain ⟨text, rfl⟩ := Instruction.form_of_mem_notes m text o ho
    rfl

theorem TestFrame.runtimeCsrs_eq (h : Instruction.NotedAlike m text xs ys) :
    runtimeCsrs ys = runtimeCsrs xs := by
  unfold runtimeCsrs
  rw [List.filterMap_eq_flatMap_toList, List.filterMap_eq_flatMap_toList, h.flatMap_eq]
  · rintro i i' ⟨id, rfl⟩
    rfl
  · intro o ho
    obtain ⟨text, rfl⟩ := Instruction.form_of_mem_notes m text o ho
    rfl

end Text

section Routines

variable (hcatalog : ∀ t ∈ context.catalog.templates, t.Typed)
include hcatalog

theorem lowerRoutine_lockstep {text : Option String} {xs ys : List Action}
    (h : Noted (Action.Renumbered (FreshIds.skip m)) Action.Seam (Action.notes m false text) xs ys) :
    Lockstep m context (Instruction.NotedAlike m text) (lowerRoutine xs) (lowerRoutine ys) :=
  (Action.expandAll_noted h).bind fun _ _ hexpanded =>
    (Action.selectAll_noted hcatalog hexpanded).bind fun _ _ hselected =>
      (legalize_lockstep hcatalog hselected).bind fun _ _ hlegal => allocate_lockstep {} hlegal

end Routines

namespace Action

inductive NotedPage (m : Nat) : Action → Action → Prop where
  | intro {id : Id} {spec : PageSpec} {text : Option String} {code code' : List Action}
      (hid : FreshIds.skip m id = id)
      (hcode : Noted (Renumbered (FreshIds.skip m)) Seam (notes m false text) code code') :
      NotedPage m (.block id false (.codePage spec) code) (.block id false (.codePage spec) code')

theorem NotedPage.id_eq {a a' : Action} (h : NotedPage m a a') : a'.id = a.id := by
  cases h
  rfl

def opened (id : Id) (spec : PageSpec) (code : List Action) : Lower (List Action) := do
  let ret ← Lower.freshValue
  return .block id true (.codePage spec) [] :: code ++ [new ret .ret]

theorem expandAll_codePage {id : Id} {spec : PageSpec} {code out : List Action} {s t : State} :
    expandAll [.block id false (.codePage spec) code] context s = .ok out t ↔
      (opened id spec code >>= expandAll) context s = .ok out t := by
  simp only [expandAll_ok, opened, Lower.bind_ok, Lower.pure_ok]
  constructor
  · intro h
    cases h with
    | kept ha => cases ha
    | next _ he hrest =>
      simp only [expand, Lower.bind_ok, Lower.pure_ok] at he
      obtain ⟨ret, u, hret, rfl, rfl⟩ := he
      rw [Expansion.actions, List.append_nil] at hrest
      exact ⟨_, _, ⟨ret, _, hret, rfl, rfl⟩, hrest⟩
  · rintro ⟨_, _, ⟨ret, _, hret, rfl, rfl⟩, hrest⟩
    refine .next (e := .spliced (.block id true (.codePage spec) [] :: code ++ [new ret .ret])) rfl
      ?_ (by rwa [Expansion.actions, List.append_nil])
    simp only [expand, Lower.bind_ok, Lower.pure_ok]
    exact ⟨ret, _, hret, rfl, rfl⟩

theorem NotedPage.expandAll_lockstep {a a' : Action} (h : NotedPage m a a') :
    ∃ text, Lockstep m context
      (Noted (Renumbered (FreshIds.skip m)) Seam (notes m true text)) (expandAll [a])
        (expandAll [a']) := by
  cases h with
  | @intro id spec text code code' hid hcode =>
    refine ⟨text, Lockstep.congr ?_ (fun _ _ _ => expandAll_codePage) fun _ _ _ => expandAll_codePage⟩
    refine Lockstep.bind (R := Noted (Renumbered (FreshIds.skip m)) Seam (notes m false text)) ?_
      fun _ _ => expandAll_noted
    refine Lockstep.freshValue.bind fun ret _ hret => .pure ?_
    subst hret
    cases hcode with
    | @intro front back front' back' hfront hback hseam =>
      have hloose : ∀ x ∈ (Action.block id true (.codePage spec) [] :: front).getLast?,
          x.isPointerLabel = false := by
        rcases List.eq_nil_or_concat' front with rfl | ⟨rest, last, rfl⟩
        · intro x hx
          cases hx
          rfl
        · intro x hx
          refine hseam.loose x ?_
          rw [← List.cons_append, List.getLast?_append_of_ne_nil _ (by simp)] at hx
          rwa [List.getLast?_append_of_ne_nil _ (by simp)]
      have hnoted := @Noted.intro _ _ (Renumbered (FreshIds.skip m)) Seam (notes m false text)
        (.block id true (.codePage spec) [] :: front) (back ++ [new ret .ret])
        (.block id true (.codePage spec) [] :: front') (back' ++ [new (FreshIds.skip m ret) .ret])
        (.cons (.page spec hid) hfront) (List.rel_append hback (.cons (.new ret .ret) .nil))
        ⟨hloose, by simp⟩
      simpa using hnoted

end Action

structure TestCase.NotedTest (m : Nat) (test test' : TestCase) : Prop where
  name : test'.name = test.name
  actions : ∃ text, Noted (Action.Renumbered (FreshIds.skip m)) Action.Seam
    (Action.notes m false text) test.actions test'.actions

def Routine.Alike (r r' : Routine) : Prop := r'.uncommented = r.uncommented

namespace Program

def ofBatch (batch : CanonicalBatch) : Lower Program := do
  let context ← read
  let functions ← lowerFunctions batch.functions
  Lower.reserve .data context.options.csrStorage (stackSpec context.options)
  let tests ← lowerTests batch.tests
  let harness ← Lower.ofExcept (Harness.routines context)
  let pages := (← get).pages
  return { tests, functions, harness
           dataPages := pages.pages .data, codePages := pages.pages .code }

theorem ofTests_eq_ofBatch (tests : List TestCase) :
    ofTests tests = CanonicalBatch.ofTests tests >>= ofBatch := rfl

/-- The same program but for ids and comments. -/
structure Alike (p p' : Program) : Prop where
  tests : p'.tests.map Routine.uncommented = p.tests.map Routine.uncommented
  functions : p'.functions.map Routine.uncommented = p.functions.map Routine.uncommented
  harness : p'.harness.map Routine.uncommented = p.harness.map Routine.uncommented
  dataPages : p'.dataPages = p.dataPages
  codePages : p'.codePages = p.codePages

theorem map_uncommented {rs rs' : List Routine} (h : List.Forall₂ Routine.Alike rs rs') :
    rs'.map Routine.uncommented = rs.map Routine.uncommented := by
  induction h with
  | nil => rfl
  | cons hr _ ih => rw [List.map_cons, List.map_cons, hr, ih]

section Declared

variable (hcatalog : ∀ t ∈ context.catalog.templates, t.Typed)
include hcatalog

theorem lowerFunctions_lockstep {functions functions' : List Action}
    (h : List.Forall₂ (Action.NotedPage m) functions functions') :
    Lockstep m context (List.Forall₂ Routine.Alike) (lowerFunctions functions)
      (lowerFunctions functions') := by
  induction h with
  | nil => exact .pure .nil
  | @cons f f' rest rest' hf _ ih =>
    obtain ⟨text, hexpanded⟩ := @Action.NotedPage.expandAll_lockstep _ context _ _ hf
    have hbody : Lockstep m context (Instruction.NotedAlike m text) (lowerRoutine [f])
        (lowerRoutine [f']) :=
      hexpanded.bind fun _ _ hexpanded =>
        (Action.selectAll_noted hcatalog hexpanded).bind fun _ _ hselected =>
          (legalize_lockstep hcatalog hselected).bind fun _ _ hlegal => allocate_lockstep {} hlegal
    rw [lowerFunctions, lowerFunctions]
    refine hbody.bind fun code code' hcode => ?_
    refine (Lockstep.modify ?_).bind fun _ _ _ => ih.bind fun more more' hmore => .pure ?_
    · rintro s s' ⟨hm, rfl⟩
      refine ⟨hm, ?_⟩
      rw [hf.id_eq, show s.skip.clobbers = s.clobbers from rfl, clobberedRegisters_eq _ hcode]
      rfl
    · refine .cons ?_ hmore
      rw [Routine.Alike, Routine.uncommented, Routine.uncommented, hf.id_eq, hcode.statements_eq]

theorem lowerTest_lockstep {test test' : TestCase} (h : test.NotedTest m test') :
    Lockstep m context Routine.Alike (lowerTest test) (lowerTest test') := by
  obtain ⟨text, hactions⟩ := h.actions
  unfold lowerTest
  rw [h.name]
  refine Lockstep.read_bind ?_
  refine (Lockstep.reserve _ _ _).bind fun _ _ _ => ?_
  refine (lowerRoutine_lockstep hcatalog hactions).bind fun body body' hbody => ?_
  rw [TestFrame.runtimeCsrs_eq hbody]
  refine Lockstep.freshLabel.bind fun label _ hlabel => ?_
  rw [hlabel.1]
  refine (Lockstep.ofExcept_self _).bind fun save _ hsave => ?_
  refine Lockstep.get.bind fun s s' hs => ?_
  have hpages : s'.pages = s.pages := by rw [hs.2]; rfl
  rw [hpages]
  refine (Lockstep.ofExcept_self _).bind fun page _ hpage => ?_
  subst hpage
  refine (Lockstep.ofExcept_self _).bind fun setup _ hsetup => ?_
  refine (Lockstep.ofExcept_self _).bind fun restore _ hrestore => ?_
  refine (Lockstep.ofExcept_self _).bind fun passed _ hpassed => .pure ?_
  subst hsave hsetup hrestore hpassed
  have haround := hbody.statements_around (.label label test.name false :: save ++ setup)
    (restore ++ passed)
  simpa [Routine.Alike, Routine.uncommented] using haround

theorem lowerTests_lockstep {tests tests' : List TestCase}
    (h : List.Forall₂ (TestCase.NotedTest m) tests tests') :
    Lockstep m context (List.Forall₂ Routine.Alike) (lowerTests tests) (lowerTests tests') := by
  induction h with
  | nil => exact .pure .nil
  | cons htest _ ih =>
    exact (lowerTest_lockstep hcatalog htest).bind fun _ _ hroutine =>
      ih.bind fun _ _ hmore => .pure (.cons hroutine hmore)

theorem ofBatch_lockstep {batch batch' : CanonicalBatch}
    (htests : List.Forall₂ (TestCase.NotedTest m) batch.tests batch'.tests)
    (hfunctions : List.Forall₂ (Action.NotedPage m) batch.functions batch'.functions) :
    Lockstep m context Alike (ofBatch batch) (ofBatch batch') := by
  refine Lockstep.read_bind ?_
  refine (lowerFunctions_lockstep hcatalog hfunctions).bind fun functions functions' hf => ?_
  refine (Lockstep.reserve _ _ _).bind fun _ _ _ => ?_
  refine (lowerTests_lockstep hcatalog htests).bind fun tests tests' ht => ?_
  refine (Lockstep.ofExcept_self _).bind fun harness _ hh => ?_
  subst hh
  refine Lockstep.get.bind fun s s' hs => .pure ?_
  have hpages : s'.pages = s.pages := by rw [hs.2]; rfl
  rw [hpages]
  exact ⟨map_uncommented ht, map_uncommented hf, rfl, rfl, rfl⟩

end Declared
end Program
end PlanLowering
