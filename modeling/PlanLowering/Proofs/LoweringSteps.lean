import PlanLowering.Program.Lower
import PlanLowering.Proofs.Outcome

/-!
# Steps of lowering

The passes of a routine, the turns of the functions and the tests of a batch, and the runs that a
program is put together from. Results about lowered programs are inductions on the turns.
-/

namespace PlanLowering

section Turns

variable (context : Context)

inductive Program.LowersFunctions : List Action → State → List Routine → State → Prop where
  | done {s} : LowersFunctions [] s [] s
  | next {f rest s out u more t} (hout : lowerRoutine [f] context s = .ok out u)
      (h : LowersFunctions rest
        { u with clobbers := u.clobbers.insert f.id (clobberedRegisters u.clobbers out) } more t) :
      LowersFunctions (f :: rest) s (⟨f.id, out⟩ :: more) t

inductive Program.LowersTests : List TestCase → State → List Routine → State → Prop where
  | done {s} : LowersTests [] s [] s
  | next {test rest s own u more t} (hown : lowerTest test context s = .ok own u)
      (h : LowersTests rest u more t) : LowersTests (test :: rest) s (own :: more) t

end Turns

variable {context : Context} {s t : State} {actions functions : List Action} {tests : List TestCase}
variable {out : List Instruction} {routines : List Routine} {program : Program}

theorem lowerRoutine_passes (h : lowerRoutine actions context s = .ok out t) :
    ∃ expanded u selected v legal w, expandAll actions context s = .ok expanded u ∧
      Action.selectAll expanded context u = .ok selected v ∧
      legalize selected context v = .ok legal w ∧ allocate {} legal context w = .ok out t := by
  simp only [lowerRoutine, Lower.bind_ok] at h
  obtain ⟨expanded, u, hexpand, selected, v, hselect, legal, w, hlegal, hallocate⟩ := h
  exact ⟨expanded, u, selected, v, legal, w, hexpand, hselect, hlegal, hallocate⟩

namespace Program

theorem lowerFunctions_ok : lowerFunctions functions context s = .ok routines t ↔
    LowersFunctions context functions s routines t := by
  constructor
  · intro h
    induction functions generalizing s routines with
    | nil =>
      obtain ⟨rfl, rfl⟩ := Lower.pure_ok.1 h
      exact .done
    | cons f rest ih =>
      simp only [lowerFunctions, Lower.bind_ok, Lower.modify_ok, Lower.pure_ok] at h
      obtain ⟨out, u, hout, _, _, rfl, more, _, hmore, rfl, rfl⟩ := h
      exact .next hout (ih hmore)
  · intro h
    induction h with
    | done => rfl
    | @next f rest s out u more t hout _ ih =>
      simp only [lowerFunctions, Lower.bind_ok, Lower.modify_ok, Lower.pure_ok]
      exact ⟨out, u, hout, (), _, rfl, more, t, ih, rfl, rfl⟩

theorem lowerTests_ok : lowerTests tests context s = .ok routines t ↔
    LowersTests context tests s routines t := by
  constructor
  · intro h
    induction tests generalizing s routines with
    | nil =>
      obtain ⟨rfl, rfl⟩ := Lower.pure_ok.1 h
      exact .done
    | cons test rest ih =>
      simp only [lowerTests, Lower.bind_ok, Lower.pure_ok] at h
      obtain ⟨own, u, hown, more, _, hmore, rfl, rfl⟩ := h
      exact .next hown (ih hmore)
  · intro h
    induction h with
    | done => rfl
    | @next test rest s own u more t hown _ ih =>
      simp only [lowerTests, Lower.bind_ok, Lower.pure_ok]
      exact ⟨own, u, hown, more, t, ih, rfl, rfl⟩

/-- Functions first, then the storage for control registers, then the tests and the harness. -/
theorem ofTests_ok (h : ofTests tests context s = .ok program t) :
    ∃ batch u v w x, CanonicalBatch.ofTests tests context s = .ok batch u ∧
      lowerFunctions batch.functions context u = .ok program.functions v ∧
      Lower.reserve .data context.options.csrStorage (stackSpec context.options) context v =
        .ok () w ∧
      lowerTests batch.tests context w = .ok program.tests x ∧
      Harness.routines context = .ok program.harness ∧
      program.dataPages = x.pages.pages .data ∧ program.codePages = x.pages.pages .code := by
  simp only [ofTests, Lower.bind_ok, Lower.read_ok, Lower.ofExcept_ok, Lower.get_ok,
    Lower.pure_ok] at h
  obtain ⟨_, _, ⟨rfl, rfl⟩, batch, u, hbatch, functions, v, hfunctions, _, w, hstorage, lowered, x,
    hlowered, harness, _, ⟨hharness, rfl⟩, _, _, ⟨rfl, rfl⟩, rfl, _⟩ := h
  exact ⟨batch, u, v, w, x, hbatch, hfunctions, hstorage, hlowered, hharness, rfl, rfl⟩

end Program
end PlanLowering
