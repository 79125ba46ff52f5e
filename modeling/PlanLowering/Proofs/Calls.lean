import Mathlib.Logic.Relation
import PlanLowering.Proofs.AllocatedCode
import PlanLowering.Proofs.FirstBlock
import PlanLowering.Proofs.FunctionIds
import PlanLowering.Proofs.Interval
import PlanLowering.Proofs.LoweringSteps

/-!
# Values that live across calls

What is recorded for a function covers its own code and that of every function it can reach, since
callees are lowered first and names are not reused. A caller's allocation keeps clear of it.
Recursion does not occur: a target without a record fails the batch.
-/

namespace PlanLowering

/-- The code of some actions at the point where registers are allocated. -/
def legalizedCode (actions : List Action) : Lower (List Instruction) := do
  let actions ← expandAll actions
  let code ← Action.selectAll actions
  legalize code

theorem lowerRoutine_ok {actions : List Action} {context : Context} {state state' : State}
    {out : List Instruction} : lowerRoutine actions context state = .ok out state' ↔
      ∃ code next, legalizedCode actions context state = .ok code next ∧
        allocate {} code context next = .ok out state' := by
  simp only [lowerRoutine, legalizedCode, Lower.bind_ok]
  constructor
  · rintro ⟨expanded, s, hexpand, selected, t, hselect, code, u, hlegal, hallocate⟩
    exact ⟨code, u, ⟨expanded, s, hexpand, selected, t, hselect, hlegal⟩, hallocate⟩
  · rintro ⟨code, u, ⟨expanded, s, hexpand, selected, t, hselect, hlegal⟩, hallocate⟩
    exact ⟨expanded, s, hexpand, selected, t, hselect, code, u, hlegal, hallocate⟩

theorem legalizedCode_moves {R : State → State → Prop} [Lower.DataFrame R] (actions : List Action) :
    Lower.Moves R (legalizedCode actions) :=
  .bind (Lower.expandAll_moves _) fun _ => .bind (Lower.selectAll_moves _) fun _ =>
    Lower.legalize_moves _

theorem lowerRoutine_moves {R : State → State → Prop} [Lower.DataFrame R] (actions : List Action) :
    Lower.Moves R (lowerRoutine actions) :=
  .bind (Lower.expandAll_moves _) fun _ => .bind (Lower.selectAll_moves _) fun _ =>
    .bind (Lower.legalize_moves _) fun _ => Lower.allocate_moves _ _

section Forms

variable {catalog : Catalog} {context : Context} {spill : SpillCode} {name : String}
variable {a : Allocation} {code out : List Instruction} {i o : Instruction}

theorem Allocation.apply_calls (h : a.apply context code = .ok out) (ho : o ∈ out) {target : Id}
    (hform : o.form = .call target) : ∃ i ∈ code, i.form = .call target := by
  obtain ⟨spill, hspill, _, hmem⟩ := mem_apply h
  rcases hmem o ho with hmade | ⟨i, hi, hplaced⟩
  · rw [hmade.form hspill] at hform
    cases hform
  · rw [hplaced.same] at hform
    exact ⟨i, hi, hform⟩

end Forms

namespace Program

/-- One function calls the other directly. -/
def Calls (program : Program) (f g : Id) : Prop :=
  ∃ routine ∈ program.functions, routine.name = f ∧
    ∃ o ∈ routine.instructions, o.form = .call g

/-- Every function lowered so far has a record, which covers its own code and its callees. -/
structure Recorded (routines : List Routine) (recorded : IdMap (List Register)) : Prop where
  known : ∀ id, recorded.contains id → ∃ routine ∈ routines, routine.name = id
  covers : ∀ routine ∈ routines, ∃ touched, recorded.get? routine.name = some touched ∧
    ∀ o ∈ routine.instructions, o.touched recorded ⊆ touched ∧
      ∀ target, o.form = .call target → recorded.contains target

variable {context : Context} {state state' : State} {functions : List Action}
variable {routines done : List Routine} {recorded : IdMap (List Register)}

theorem touched_insert {o : Instruction} {id : Id} {touched : List Register}
    (hnew : recorded.contains id = false)
    (hcalls : ∀ target, o.form = .call target → recorded.contains target) :
    o.touched (recorded.insert id touched) = o.touched recorded := by
  unfold Instruction.touched
  split
  · next target hform =>
    have hne : target ≠ id := by
      rintro rfl
      rw [hcalls target hform] at hnew
      cases hnew
    simp [hne]
  · rfl

/-- A function joins once its code is there; nothing recorded before is lost. -/
theorem Recorded.insert {routine : Routine} (h : Recorded done recorded)
    (hnew : recorded.contains routine.name = false)
    (hcalls : ∀ o ∈ routine.instructions, ∀ target, o.form = .call target →
      recorded.contains target) :
    Recorded (done ++ [routine])
      (recorded.insert routine.name (clobberedRegisters recorded routine.instructions)) where
  known := by
    intro id hid
    by_cases hname : id = routine.name
    · exact ⟨routine, by simp, hname.symm⟩
    · obtain ⟨old, hold, rfl⟩ := h.known id (by simpa [IdMap.contains, hname] using hid)
      exact ⟨old, List.mem_append_left _ hold, rfl⟩
  covers := by
    have hkept : ∀ target, recorded.contains target → (recorded.insert routine.name
        (clobberedRegisters recorded routine.instructions)).contains target := by
      intro target htarget
      by_cases hname : target = routine.name <;> simp_all [IdMap.contains]
    intro old hold
    rcases List.mem_append.1 hold with hold | hold
    · obtain ⟨touched, htouched, hcovers⟩ := h.covers old hold
      have hne : old.name ≠ routine.name := by
        intro hname
        rw [← hname, IdMap.contains, htouched] at hnew
        cases hnew
      refine ⟨touched, by simpa [hne] using htouched, fun o ho => ?_⟩
      obtain ⟨hsub, hknown⟩ := hcovers o ho
      rw [touched_insert hnew hknown]
      exact ⟨hsub, fun target htarget => hkept target (hknown target htarget)⟩
    · rw [List.mem_singleton] at hold
      subst hold
      refine ⟨clobberedRegisters recorded old.instructions, by simp, fun o ho => ?_⟩
      rw [touched_insert hnew (hcalls o ho)]
      refine ⟨fun r hr => ?_, fun target htarget => hkept target (hcalls o ho target htarget)⟩
      rw [clobberedRegisters, List.mem_eraseDups]
      exact List.mem_flatMap.2 ⟨o, ho, hr⟩

/-- Every call of allocated code goes to a function that was recorded before. -/
theorem lowerRoutine_calls {actions : List Action} {out : List Instruction}
    (h : lowerRoutine actions context state = .ok out state') {o : Instruction} (ho : o ∈ out)
    {target : Id} (hform : o.form = .call target) : state.clobbers.contains target := by
  obtain ⟨code, next, hcode, hallocate⟩ := lowerRoutine_ok.1 h
  have hsame : next.clobbers = state.clobbers :=
    legalizedCode_moves (R := Lower.SameClobbers) _ _ _ _ _ hcode
  obtain ⟨a, _, ha, _, happly⟩ := allocate_ok hallocate
  obtain ⟨i, hi, hcall⟩ := Allocation.apply_calls happly ho hform
  obtain ⟨destroyed, hdestroyed⟩ := (Allocation.ofCode_ok ha).2.known i hi
  rw [hsame, LiveInterval.clobbers, hcall] at hdestroyed
  dsimp only at hdestroyed
  split at hdestroyed
  · next callee hcallee => exact IdMap.contains_iff.2 ⟨callee, hcallee⟩
  · simp at hdestroyed

theorem lowerFunctions_recorded
    (h : lowerFunctions functions context state = .ok routines state')
    (hrecorded : Recorded done state.clobbers)
    (hnodup : (done.map Routine.name ++ functions.map Action.id).Nodup) :
    Recorded (done ++ routines) state'.clobbers ∧
      ∀ id touched, state.clobbers.get? id = some touched →
        state'.clobbers.get? id = some touched := by
  replace h := lowerFunctions_ok.1 h
  induction h generalizing done with
  | done => exact ⟨by simpa using hrecorded, fun _ _ hid => hid⟩
  | @next f _ s out next _ _ hout _ ih =>
    have hsame : next.clobbers = s.clobbers :=
      lowerRoutine_moves (R := Lower.SameClobbers) _ _ _ _ _ hout
    have hnew : s.clobbers.contains f.id = false := by
      by_contra hknown
      obtain ⟨routine, hroutine, hname⟩ := hrecorded.known f.id (by simpa using hknown)
      exact (List.nodup_append.1 hnodup).2.2 _ (List.mem_map_of_mem hroutine) _
        List.mem_cons_self hname
    have hjoined : Recorded (done ++ [⟨f.id, out⟩])
        (s.clobbers.insert f.id (clobberedRegisters s.clobbers out)) :=
      hrecorded.insert hnew fun o ho target hform => lowerRoutine_calls hout ho hform
    rw [← hsame] at hjoined
    obtain ⟨hall, hkept⟩ := ih hjoined (by simpa using hnodup)
    refine ⟨by simpa using hall, fun id touched hid => ?_⟩
    apply hkept
    have hne : id ≠ f.id := by
      rintro rfl
      rw [IdMap.contains, hid] at hnew
      cases hnew
    simpa [hne, hsame] using hid

theorem Recorded.reach {program : Program} (h : Recorded program.functions recorded) {f g : Id}
    {touched : List Register} (hf : recorded.get? f = some touched)
    (hreach : Relation.ReflTransGen program.Calls f g) :
    ∃ touched', recorded.get? g = some touched' ∧ touched' ⊆ touched := by
  induction hreach with
  | refl => exact ⟨touched, hf, List.Subset.refl _⟩
  | tail _ hcall ih =>
    obtain ⟨middle, hmiddle, hsub⟩ := ih
    obtain ⟨routine, hroutine, rfl, o, ho, hform⟩ := hcall
    obtain ⟨own, hown, hcovers⟩ := h.covers routine hroutine
    rw [hown, Option.some.injEq] at hmiddle
    subst hmiddle
    obtain ⟨htouched, hknown⟩ := hcovers o ho
    obtain ⟨callee, hcallee⟩ := IdMap.contains_iff.1 (hknown _ hform)
    refine ⟨callee, hcallee, fun r hr => hsub (htouched ?_)⟩
    simp [Instruction.touched, hform, hcallee, hr]

theorem lowerFunctions_append {before after : List Action}
    (h : lowerFunctions (before ++ after) context state = .ok routines state') :
    ∃ first middle second, lowerFunctions before context state = .ok first middle ∧
      lowerFunctions after context middle = .ok second state' ∧ routines = first ++ second := by
  simp only [lowerFunctions_ok] at h ⊢
  induction before generalizing state routines with
  | nil => exact ⟨[], state, routines, .done, h, rfl⟩
  | cons f rest ih =>
    cases h with
    | next hout hmore =>
      obtain ⟨first, middle, second, hfirst, hsecond, rfl⟩ := ih hmore
      exact ⟨_, middle, second, .next hout hfirst, hsecond, rfl⟩

theorem lowerFunctions_names (h : lowerFunctions functions context state = .ok routines state') :
    routines.map Routine.name = functions.map Action.id := by
  replace h := lowerFunctions_ok.1 h
  induction h with
  | done => rfl
  | next _ _ ih => rw [List.map_cons, List.map_cons, ih]

theorem lowerTest_moves {R : State → State → Prop} [Lower.DataFrame R] (test : TestCase) :
    Lower.Moves R (lowerTest test) :=
  .bind .read fun _ => .bind (.reserveData _ _) fun _ => .bind (lowerRoutine_moves _) fun _ =>
    .bind .freshLabel fun _ => .bind (.ofExcept _) fun _ => .bind .get fun _ =>
      .bind (.ofExcept _) fun _ => .bind (.ofExcept _) fun _ => .bind (.ofExcept _) fun _ =>
        .bind (.ofExcept _) fun _ => .pure _

theorem lowerTests_moves {R : State → State → Prop} [Lower.DataFrame R] (tests : List TestCase) :
    Lower.Moves R (lowerTests tests) := by
  induction tests with
  | nil => exact .pure _
  | cons test rest ih => exact .bind (lowerTest_moves test) fun _ => .bind ih fun _ => .pure _

/-- A routine, the actions of its body, and the state of the run when it is their turn. -/
inductive Turn (tests : List TestCase) (context : Context) :
    Routine → List Action → State → Prop where
  | function {batch : CanonicalBatch} {before after : List Action} {f : Action}
      {lowered : List Routine} {out : List Instruction} {s t u : State}
      (hbatch : CanonicalBatch.ofTests tests context (.start context.options) = .ok batch s)
      (hsplit : batch.functions = before ++ f :: after)
      (hbefore : lowerFunctions before context s = .ok lowered t)
      (hrun : lowerRoutine [f] context t = .ok out u) : Turn tests context ⟨f.id, out⟩ [f] t
  | test {batch : CanonicalBatch} {before after : List TestCase} {test : TestCase}
      {functions lowered : List Routine} {routine : Routine} {s t u v w x : State}
      (hbatch : CanonicalBatch.ofTests tests context (.start context.options) = .ok batch s)
      (hfunctions : lowerFunctions batch.functions context s = .ok functions t)
      (hstorage : Lower.reserve .data context.options.csrStorage (stackSpec context.options)
        context t = .ok () u)
      (hsplit : batch.tests = before ++ test :: after)
      (hbefore : lowerTests before context u = .ok lowered v)
      (hrun : lowerTest test context v = .ok routine x)
      (hstack : Lower.reserve .data s!"{test.name}_stack" (stackSpec context.options)
        context v = .ok () w) :
      Turn tests context routine test.actions w

theorem lowerFunctions_turn {routine : Routine}
    (h : lowerFunctions functions context state = .ok routines state')
    (hroutine : routine ∈ routines) : ∃ before f after lowered out t u,
      functions = before ++ f :: after ∧ lowerFunctions before context state = .ok lowered t ∧
      lowerRoutine [f] context t = .ok out u ∧ routine = ⟨f.id, out⟩ := by
  simp only [lowerFunctions_ok] at h ⊢
  induction h with
  | done => cases hroutine
  | @next g rest s out next _ _ hout _ ih =>
    rcases List.mem_cons.1 hroutine with rfl | hroutine
    · exact ⟨[], g, rest, [], out, s, next, rfl, .done, hout, rfl⟩
    · obtain ⟨before, f, after, lowered, out', t, u, rfl, hbefore, hrun, rfl⟩ := ih hroutine
      exact ⟨g :: before, f, after, _, out', t, u, rfl, .next hout hbefore, hrun, rfl⟩

theorem lowerTests_turn {tests : List TestCase} {routine : Routine}
    (h : lowerTests tests context state = .ok routines state')
    (hroutine : routine ∈ routines) : ∃ before test after lowered t u,
      tests = before ++ test :: after ∧ lowerTests before context state = .ok lowered t ∧
      lowerTest test context t = .ok routine u := by
  simp only [lowerTests_ok] at h ⊢
  induction h with
  | done => cases hroutine
  | @next first rest s own next _ _ hown _ ih =>
    rcases List.mem_cons.1 hroutine with rfl | hroutine
    · exact ⟨[], first, rest, [], s, next, rfl, .done, hown⟩
    · obtain ⟨before, test, after, lowered, t, u, rfl, hbefore, hrun⟩ := ih hroutine
      exact ⟨first :: before, test, after, _, t, u, rfl, .next hown hbefore, hrun⟩

theorem exists_turn {tests : List TestCase} {program : Program} {routine : Routine}
    (h : ofTests tests context (.start context.options) = .ok program state')
    (hroutine : routine ∈ program.functions ++ program.tests) :
    ∃ actions s body t, Turn tests context routine actions s ∧
      lowerRoutine actions context s = .ok body t := by
  obtain ⟨batch, s, t, u, v, hbatch, hfunctions, hstorage, htests, _⟩ := ofTests_ok h
  rcases List.mem_append.1 hroutine with hroutine | hroutine
  · obtain ⟨before, f, after, lowered, out, next, _, hsplit, hbefore, hrun, rfl⟩ :=
      lowerFunctions_turn hfunctions hroutine
    exact ⟨[f], next, out, _, .function hbatch hsplit hbefore hrun, hrun⟩
  · obtain ⟨before, test, after, lowered, next, _, hsplit, hbefore, hrun⟩ :=
      lowerTests_turn htests hroutine
    have hbody := hrun
    simp only [lowerTest, Lower.bind_ok, Lower.read_ok] at hbody
    obtain ⟨_, _, ⟨rfl, rfl⟩, _, opened, hstack, body, _, hbody, _⟩ := hbody
    exact ⟨test.actions, opened, body, _,
      .test hbatch hfunctions hstorage hsplit hbefore hrun hstack, hbody⟩

theorem Turn.records {tests : List TestCase} {program : Program} {actions : List Action}
    {routine : Routine} (h : ofTests tests context (.start context.options) = .ok program state')
    (hturn : Turn tests context routine actions state) :
    ∃ recorded, Recorded program.functions recorded ∧
      ∀ id touched, state.clobbers.get? id = some touched →
        recorded.get? id = some touched := by
  obtain ⟨batch, s, t, _, _, hbatch, hfunctions, _⟩ := ofTests_ok h
  have hempty : s.clobbers = {} :=
    CanonicalBatch.ofTests_moves (R := Lower.SameClobbers) _ _ _ _ _ hbatch
  have hnodup := CanonicalBatch.functions_nodup hbatch
  have hstart : Recorded [] s.clobbers :=
    ⟨by simp [hempty, IdMap.contains], by simp⟩
  have hall := (lowerFunctions_recorded hfunctions hstart (by simpa using hnodup)).1
  refine ⟨t.clobbers, by simpa using hall, ?_⟩
  cases hturn with
  | function hbatch' hsplit hbefore _ =>
    rw [hbatch, EStateM.Result.ok.injEq] at hbatch'
    obtain ⟨rfl, rfl⟩ := hbatch'
    rw [hsplit] at hfunctions hnodup
    obtain ⟨first, middle, second, hfirst, hsecond, hroutines⟩ := lowerFunctions_append hfunctions
    rw [hbefore, EStateM.Result.ok.injEq] at hfirst
    obtain ⟨rfl, rfl⟩ := hfirst
    rw [List.map_append] at hnodup
    have hearly := lowerFunctions_recorded hbefore hstart
      (by simpa using (List.nodup_append.1 hnodup).1)
    refine (lowerFunctions_recorded hsecond hearly.1 ?_).2
    rw [List.nil_append, lowerFunctions_names hbefore]
    exact hnodup
  | test hbatch' hfunctions' hstorage hsplit hbefore _ hstack =>
    rw [hbatch, EStateM.Result.ok.injEq] at hbatch'
    obtain ⟨rfl, rfl⟩ := hbatch'
    rw [hfunctions, EStateM.Result.ok.injEq] at hfunctions'
    obtain ⟨rfl, rfl⟩ := hfunctions'
    have hsame : Lower.SameClobbers t state := by
      refine Lower.DataFrame.trans _ _ _ (Lower.Moves.reserve _ _ _ _ _ _ _ hstorage) ?_
      refine Lower.DataFrame.trans _ _ _ (lowerTests_moves _ _ _ _ _ hbefore) ?_
      exact Lower.Moves.reserve _ _ _ _ _ _ _ hstack
    intro id touched hid
    exact hsame ▸ hid

/-- An interval's value is on the stack while `f` runs, or in a register that nothing destroys
which runs during the call. -/
def Spares (program : Program) (a : Allocation) (f : Id) (j : LiveInterval) : Prop :=
  (∃ n, a.slots.get? j.id = some n) ∨ ∃ r, a.registers.get? j.id = some r ∧
    ∀ g, Relation.ReflTransGen program.Calls f g →
      ∀ routine ∈ program.functions, routine.name = g →
        ∀ o ∈ routine.instructions,
          o.destination.bind Operand.register? ≠ some r ∧ r ∉ o.clobbers

theorem Turn.spares {tests : List TestCase} {program : Program} {final s t u : State}
    {routine : Routine} {actions : List Action} {code : List Instruction} {a : Allocation}
    (h : ofTests tests context (.start context.options) = .ok program final)
    (hturn : Turn tests context routine actions s)
    (hcode : legalizedCode actions context s = .ok code t)
    (ha : Allocation.ofCode {} code context t = .ok a u) {k : Nat} {i : Instruction} {f : Id}
    {j : LiveInterval} (hi : code[k]? = some i) (hcall : i.form = .call f)
    (hj : j ∈ a.intervals) (hstraddles : j.straddles k) : program.Spares a f j := by
  obtain ⟨hsound, hdescribed⟩ := Allocation.ofCode_ok ha
  obtain ⟨recorded, hrecorded, hfinal⟩ := hturn.records h
  have hsame : t.clobbers = s.clobbers :=
    legalizedCode_moves (R := Lower.SameClobbers) _ _ _ _ _ hcode
  rcases (hsound.placed j.id).1 (List.mem_map_of_mem hj) with ⟨r, hr⟩ | hslot
  · refine .inr ⟨r, hr, ?_⟩
    obtain ⟨destroyed, hdestroyed⟩ := hdescribed.known i (List.mem_of_getElem? hi)
    have hexcluded := hdescribed.shunned j hj k i hi hstraddles destroyed hdestroyed
    simp only [LiveInterval.clobbers, hcall] at hdestroyed
    split at hdestroyed
    · next callee hcallee =>
      rw [except_pure_ok] at hdestroyed
      subst hdestroyed
      obtain ⟨hpool, hfree⟩ := RegisterPool.mem_candidates.1 (hsound.candidate j hj r hr)
      have hclear : r ∉ callee := fun hmem => hfree
        (hexcluded r (List.mem_append_right _ hmem) (RegisterPool.file_of_mem hpool))
      rintro g hreach routine hroutine rfl o ho
      obtain ⟨touched, htouched, hsub⟩ := hrecorded.reach (hfinal f callee (hsame ▸ hcallee)) hreach
      obtain ⟨own, hown, hcovers⟩ := hrecorded.covers routine hroutine
      rw [htouched, Option.some.injEq] at hown
      subst hown
      have houtside : r ∉ o.touched recorded := fun hmem => hclear (hsub ((hcovers o ho).1 hmem))
      simp only [Instruction.touched, List.mem_append, Option.mem_toList, not_or] at houtside
      exact houtside.1
    · simp at hdestroyed
  · exact .inl hslot

/-- In every routine, values that live across a call are where the call cannot reach them. -/
theorem values_survive_calls {tests : List TestCase} {program : Program} {final : State}
    {routine : Routine}
    (h : ofTests tests context (.start context.options) = .ok program final)
    (hroutine : routine ∈ program.functions ++ program.tests) :
    ∃ actions s code t a u, Turn tests context routine actions s ∧
      legalizedCode actions context s = .ok code t ∧
      Allocation.ofCode {} code context t = .ok a u ∧
      ∀ k i f j, code[k]? = some i → i.form = .call f → j ∈ a.intervals → j.straddles k →
        program.Spares a f j := by
  obtain ⟨actions, s, body, x, hturn, hrun⟩ := exists_turn h hroutine
  obtain ⟨code, t, hcode, hallocate⟩ := lowerRoutine_ok.1 hrun
  obtain ⟨a, _, ha, _⟩ := allocate_ok hallocate
  refine ⟨actions, s, code, t, a, x, hturn, hcode, ha, ?_⟩
  intro k i f j hi hcall hj hstraddles
  exact hturn.spares h hcode ha hi hcall hj hstraddles

/-- A catalog with what calls, spill code and the code around a test need. -/
def callSpecs : List TemplateSpec :=
  [{ name := "li", operands := "rd, imm", category := .pseudo },
   { name := "add", operands := "rd, rs1, rs2", category := .arithmetic },
   { name := "addi", operands := "rd, rs1, imm", category := .arithmetic },
   { name := "andi", operands := "rd, rs1, imm", category := .arithmetic },
   { name := "ld", operands := "rd, rs1, imm", category := .load },
   { name := "sd", operands := "rs2, rs1, imm", category := .store },
   { name := "jalr", operands := "rd, rs1, imm", category := .jump },
   { name := "ret", category := .jump }]

def callContext : Context where
  catalog := (Catalog.ofSpecs callSpecs .rv64).toOption.getD .empty
  environment := {}
  options := {}

/-- A function that calls another one between the two ends of a value. -/
def nestedCall : List TestCase :=
  [{ name := "nested"
     actions := [.block "inner" false (.codePage {}) [.li "a" (.value 5)],
       .block "outer" false (.codePage {}) [.li "x" (.value 7), .new "in" (.call "inner" none),
         .new "y" (.arithmetic (.binary "add" "x" "x"))]] }]

/-- Whether a value of the second of two functions lives across a call to the first. -/
def livesAcross (tests : List TestCase) : Lower Bool := do
  let batch ← CanonicalBatch.ofTests tests
  match batch.functions with
  | [callee, caller] =>
    let _ ← lowerFunctions [callee]
    let code ← legalizedCode [caller]
    let a ← Allocation.ofCode {} code
    return code.zipIdx.any fun (i, k) =>
      i.form = .call callee.id ∧ a.intervals.any (·.straddles k)
  | _ => return false

theorem nestedCall_values_survive : ∃ program final,
    ofTests nestedCall callContext (.start callContext.options) = .ok program final ∧
    (livesAcross nestedCall).result? callContext (.start callContext.options) = some true ∧
    ∀ routine ∈ program.functions ++ program.tests,
      ∃ actions s code t a u, Turn nestedCall callContext routine actions s ∧
        legalizedCode actions callContext s = .ok code t ∧
        Allocation.ofCode {} code callContext t = .ok a u ∧
        ∀ k i f j, code[k]? = some i → i.form = .call f → j ∈ a.intervals →
          j.straddles k = true → program.Spares a f j := by
  have hstart : State.start callContext.options = .begun := State.start_default
  have hok : ((ofTests nestedCall).result? callContext (.start callContext.options)).isSome := by
    rw [hstart]
    decide +kernel
  have hlives : (livesAcross nestedCall).result? callContext (.start callContext.options) =
      some true := by
    rw [hstart]
    decide +kernel
  obtain ⟨program, hprogram⟩ := Option.isSome_iff_exists.1 hok
  obtain ⟨final, h⟩ := Lower.result?_eq_some.1 hprogram
  exact ⟨program, final, h, hlives, fun routine hroutine => values_survive_calls h hroutine⟩

end Program
end PlanLowering
