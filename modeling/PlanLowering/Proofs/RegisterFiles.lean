import PlanLowering.Proofs.BatchValues
import PlanLowering.Proofs.Rv64Catalog
import PlanLowering.Proofs.Calls
import PlanLowering.Proofs.FunctionCode
import PlanLowering.Proofs.LegalFiles

/-!
# Register files of routines

An interval is opened by a definition, so its file is the one file that its id has in legal code.
An operand gets the register of the interval, or a scratch register of a file in which its
instruction has the id, which comes to the same.
-/

namespace PlanLowering

variable {context : Context} {state state' : State} {code out : List Instruction}
variable {actions : List Action} {i o : Instruction} {op op' : Operand} {ops : List Operand}
variable {id : Id} {r : Register} {files : Produced} {a : Allocation} {pool : RegisterPool}
variable {n : Nat}

theorem definedFrom_of_getElem? {known : Id → Prop}
    (h : ∀ (k : Nat) (i : Instruction), code[k]? = some i → ∀ id ∈ i.virtualSources,
      known id ∨ ∃ (m : Nat) (j : Instruction), m < k ∧ code[m]? = some j ∧ j.Defines id) :
    DefinedFrom known code := by
  induction code generalizing known with
  | nil => trivial
  | cons i rest ih =>
    constructor
    · intro id hid
      rcases h 0 i rfl id hid with hknown | ⟨m, _, hm, _⟩
      · exact hknown
      · exact absurd hm (Nat.not_lt_zero m)
    · refine ih fun k j hj id hid => ?_
      rcases h (k + 1) j (by simpa using hj) id hid with hknown | ⟨m, d, hm, hd, hdef⟩
      · exact .inl (.inr hknown)
      · cases m with
        | zero =>
          rw [List.getElem?_cons_zero, Option.some.injEq] at hd
          exact .inl (.inl (hd ▸ hdef))
        | succ m => exact .inr ⟨m, d, Nat.lt_of_succ_lt_succ hm, by simpa using hd, hdef⟩

theorem LiveInterval.Describes.definedFrom {recorded : IdMap (List Register)}
    {intervals : List LiveInterval} (h : Describes recorded code intervals) :
    DefinedFrom (fun _ => False) code := by
  refine definedFrom_of_getElem? fun k i hi id hid => .inr ?_
  obtain ⟨j, hj, rfl, hstart, _⟩ := h.read k i hi id hid
  obtain ⟨d, hd, hdef⟩ := h.opened j hj
  exact ⟨j.start, d, hstart, hd, hdef.defines⟩

theorem allocate_definedFrom (h : allocate pool code context state = .ok out state') :
    DefinedFrom (fun _ => False) code := by
  obtain ⟨a, _, ha, _⟩ := allocate_ok h
  exact (Allocation.ofCode_ok ha).2.definedFrom

section Lodged

variable (hsound : a.Sound pool) (hintervals : ∀ j ∈ a.intervals, files.get? j.id = some j.file)
include hsound hintervals

theorem Allocation.Lodges.file (h : a.Lodges ops id r) (hops : ∀ op ∈ ops, op.Agrees files) :
    files.get? id = some r.file := by
  rcases h with hr | ⟨_, op, hop, hid, hfile⟩
  · obtain ⟨j, hj, rfl, hcandidate⟩ := hsound.candidate_of_get? hr
    have hpool := (RegisterPool.mem_candidates.1 hcandidate).1
    rw [hintervals j hj, RegisterPool.file_of_mem hpool]
  · exact hops op hop id r.file hid hfile

theorem Operand.Lodged.keepsFile (h : op.Lodged a ops op') (hkeeps : op.KeepsFile)
    (hagrees : op.Agrees files) (hops : ∀ op ∈ ops, op.Agrees files) : op'.KeepsFile := by
  unfold Lodged at h
  cases hid : op.virtual? with
  | none =>
    simp only [hid] at h
    exact h ▸ hkeeps
  | some id =>
    simp only [hid] at h
    obtain ⟨r, rfl, hlodges⟩ := h
    intro f s hf hs
    obtain rfl := OperandValue.reg.inj hs
    have hfile := hlodges.file hsound hintervals hops
    have htype : op.type.file? = some f := by
      have hf : op.type = .register f := hf
      rw [hf]
      rfl
    rw [hagrees id f hid htype] at hfile
    exact (Option.some.inj hfile).symm

theorem Instruction.Lodged.keepsFiles (h : i.Lodged a o) (hkeeps : i.KeepsFiles)
    (hagrees : i.Agrees files) : o.KeepsFiles := by
  intro op' hop'
  have hall := List.rel_append h.destination h.sources
  obtain ⟨op, hop, hlodged⟩ := exists_of_forall₂ hall hop'
  exact hlodged.keepsFile hsound hintervals (hkeeps op hop) (hagrees op hop) hagrees

end Lodged

section Routine

variable (hcomplete : context.catalog.Complete) (hfiled : context.catalog.Filed)
include hcomplete hfiled

theorem Allocation.apply_keepsFiles (hsound : a.Sound pool)
    (hintervals : ∀ j ∈ a.intervals, files.get? j.id = some j.file)
    (hcode : ∀ i ∈ code, i.Agrees files ∧ i.KeepsFiles) (h : a.apply context code = .ok out) :
    ∀ o ∈ out, o.KeepsFiles := by
  obtain ⟨spill, pieces, hspill, hpieces, hframe⟩ := Allocation.apply_ok h
  obtain ⟨pairs, rfl, rfl, hpairs⟩ := Allocation.replaceAll_settles hpieces
  have hmakes : ∀ o, spill.Makes o → o.KeepsFiles :=
    fun _ => SpillCode.Makes.keepsFiles hcomplete.typed hfiled hspill
  have hbody : ∀ o ∈ Piece.layout (pairs.map Prod.snd), o.KeepsFiles := by
    intro o ho
    obtain ⟨p, hp, ho⟩ := Piece.mem_layout.1 ho
    obtain ⟨pair, hpair, rfl⟩ := List.mem_map.1 hp
    obtain ⟨hlodged, hreaches, _⟩ := hpairs pair hpair
    obtain ⟨hagrees, hkeeps⟩ := hcode _ (List.mem_map_of_mem hpair)
    rcases ho with ho | rfl | ho
    · exact hmakes o (hreaches o (List.mem_append_left _ ho)).makes
    · exact hlodged.keepsFiles hsound hintervals hkeeps hagrees
    · exact hmakes o (hreaches o (List.mem_append_right _ ho)).makes
  rcases hframe with ⟨_, rfl⟩ | ⟨_, hframe⟩
  · exact hbody
  · intro o ho
    rcases (SpillCode.mem_frame hframe).2 o ho with ho | hmade
    · exact hbody o ho
    · exact hmakes o hmade

theorem allocate_keepsFiles (hcode : ∀ i ∈ code, i.Agrees files ∧ i.KeepsFiles)
    (h : allocate pool code context state = .ok out state') : ∀ o ∈ out, o.KeepsFiles := by
  obtain ⟨a, _, ha, _, happly⟩ := allocate_ok h
  obtain ⟨hsound, hdescribed⟩ := Allocation.ofCode_ok ha
  have hintervals : ∀ j ∈ a.intervals, files.get? j.id = some j.file := by
    intro j hj
    obtain ⟨i, hi, hdef⟩ := hdescribed.opened j hj
    exact (hcode i (List.mem_of_getElem? hi)).1.get? hdef
  exact Allocation.apply_keepsFiles hcomplete hfiled hsound hintervals hcode happly

theorem lowerRoutine_keepsFiles
    (hactions : ∀ a ∈ actions, a.Owned context.catalog state.ids.values)
    (h : lowerRoutine actions context state = .ok out state') : ∀ o ∈ out, o.KeepsFiles := by
  obtain ⟨expanded, _, selected, _, legal, _, hexpanded, hselected, hlegal, hallocate⟩ :=
    lowerRoutine_passes h
  have howned := Action.selected_owned hcomplete.typed hfiled hactions hexpanded hselected
  obtain ⟨files, hlegal⟩ := legalize_agrees hcomplete hfiled howned (Nat.le_refl _) hlegal
    (allocate_definedFrom hallocate)
  exact allocate_keepsFiles hcomplete hfiled hlegal hallocate

end Routine

def Routine.KeepsFiles (r : Routine) : Prop := ∀ i ∈ r.instructions, i.KeepsFiles

namespace Program

section Batch

variable {functions : List Action} {tests : List TestCase} {test : TestCase} {routine : Routine}
variable {routines : List Routine} {program : Program}
variable (hcomplete : context.catalog.Complete) (hfiled : context.catalog.Filed)
include hcomplete hfiled

theorem lowerFunctions_keepsFiles (hfunctions : ∀ f ∈ functions, f.Owned context.catalog n)
    (hcount : n ≤ state.ids.values)
    (h : lowerFunctions functions context state = .ok routines state') :
    (∀ routine ∈ routines, routine.KeepsFiles) ∧ n ≤ state'.ids.values := by
  replace h := lowerFunctions_ok.1 h
  induction h with
  | done => exact ⟨by simp, hcount⟩
  | @next f _ _ out next _ _ hout _ ih =>
    obtain ⟨hf, hrest⟩ := List.forall_mem_cons.1 hfunctions
    have hmoves : n ≤ next.ids.values :=
      Nat.le_trans hcount (lowerRoutine_moves (R := Lower.CountsOn) _ _ _ _ _ hout)
    obtain ⟨hkeeps, hlast⟩ := ih hrest hmoves
    have hown : Routine.KeepsFiles ⟨f.id, out⟩ := lowerRoutine_keepsFiles hcomplete hfiled
      (List.forall_mem_singleton.2 (hf.mono hcount)) hout
    exact ⟨List.forall_mem_cons.2 ⟨hown, hkeeps⟩, hlast⟩

theorem lowerTest_keepsFiles
    (hactions : ∀ a ∈ test.actions, a.Owned context.catalog state.ids.values)
    (h : lowerTest test context state = .ok routine state') : routine.KeepsFiles := by
  obtain ⟨c, hc, rfl⟩ := lowerTest_ok h
  obtain ⟨opened, closed, label, hreserve, hbody, _⟩ := hc.run
  have hmoves : state.ids.values ≤ opened.ids.values :=
    Lower.Moves.reserve (R := Lower.CountsOn) _ _ _ _ _ _ _ hreserve
  refine ((Framing.keepsFiles hcomplete.typed hfiled).instructions hc).2 ?_
  exact lowerRoutine_keepsFiles hcomplete hfiled (fun a ha => (hactions a ha).mono hmoves) hbody

theorem lowerTests_keepsFiles
    (htests : ∀ test ∈ tests, ∀ a ∈ test.actions, a.Owned context.catalog n)
    (hcount : n ≤ state.ids.values)
    (h : lowerTests tests context state = .ok routines state') :
    ∀ routine ∈ routines, routine.KeepsFiles := by
  replace h := lowerTests_ok.1 h
  induction h with
  | done => simp
  | next hown _ ih =>
    obtain ⟨htest, hrest⟩ := List.forall_mem_cons.1 htests
    have hmoves := lowerTest_moves (R := Lower.CountsOn) _ _ _ _ _ hown
    have hroutine :=
      lowerTest_keepsFiles hcomplete hfiled (fun a ha => (htest a ha).mono hcount) hown
    exact List.forall_mem_cons.2 ⟨hroutine, ih hrest (Nat.le_trans hcount hmoves)⟩

/-- A batch whose actions each make their own value keeps its registers where they belong. -/
theorem ofTests_keepsFiles
    (hbatch : ∀ batch s, CanonicalBatch.ofTests tests context state = .ok batch s →
      (∀ f ∈ batch.functions, f.Owned context.catalog s.ids.values) ∧
        ∀ test ∈ batch.tests, ∀ a ∈ test.actions, a.Owned context.catalog s.ids.values)
    (h : ofTests tests context state = .ok program state') :
    ∀ routine ∈ program.routines, routine.KeepsFiles := by
  obtain ⟨batch, s, t, u, _, hcanonical, hfunctions, hstorage, hlowered, hharness, _⟩ :=
    ofTests_ok h
  obtain ⟨hown, htests⟩ := hbatch batch s hcanonical
  obtain ⟨hkeeps, hcount⟩ :=
    lowerFunctions_keepsFiles hcomplete hfiled hown (Nat.le_refl _) hfunctions
  have hmoves : t.ids.values ≤ u.ids.values :=
    Lower.Moves.reserve (R := Lower.CountsOn) _ _ _ _ _ _ _ hstorage
  simp only [routines, List.forall_mem_append]
  refine ⟨⟨?_, hkeeps⟩, (Framing.keepsFiles hcomplete.typed hfiled).routines hharness⟩
  exact lowerTests_keepsFiles hcomplete hfiled htests (Nat.le_trans hcount hmoves) hlowered

end Batch

/-- Registers stay in the file of their operand unless an action makes a float out of its own
value. -/
theorem registers_keep_files {scenarios : List Scenario} {tests : List TestCase}
    {program : Program}
    (hcatalog : Catalog.builtin context.environment.xlen = .ok context.catalog)
    (htests : buildTests .standard scenarios = .ok tests)
    (happart : ∀ test ∈ tests, test.Apart context.catalog)
    (h : lowerScenarios .standard context scenarios = .ok program) :
    ∀ routine ∈ program.routines, ∀ i ∈ routine.instructions, i.KeepsFiles := by
  obtain ⟨tests', final, htests', hrun⟩ := lowerScenarios_ok h
  obtain rfl : tests' = tests := Except.ok.inj (htests'.symm.trans htests)
  exact ofTests_keepsFiles (Catalog.builtin_complete hcatalog) (Catalog.builtin_filed hcatalog)
    (fun _ _ hbatch => CanonicalBatch.ofTests_owned (buildTests_pins htests).1 happart hbatch) hrun

/-- An integer that reads itself, next to a float loaded from memory. -/
def crossing : List Scenario :=
  [{ name := "t", steps := [
    { id := "page", kind := .memory {} },
    { id := "f", kind := .load 0 none (some "flw"), inputs := [.ref "page"] },
    { id := "a", kind := .arithmetic (some "add"), inputs := [.ref "a", .ref "a"] }] }]

theorem crossing_registers_keep_files : ∃ tests program,
    Catalog.builtin .rv64 = .ok .rv64 ∧ buildTests .standard crossing = .ok tests ∧
    (∀ test ∈ tests, test.Apart .rv64) ∧
    lowerScenarios .standard (standardContext .rv64) crossing = .ok program ∧
    ∀ routine ∈ program.routines, ∀ i ∈ routine.instructions, i.KeepsFiles := by
  have hbuilt : (do
      let tests ← (buildTests .standard crossing).toOption
      return decide (∀ test ∈ tests, ∀ a ∈ Action.partsAll test.actions,
        (a.id ∈ a.reads → ∀ t ∈ a.templates Catalog.rv64, t.destination ≠ some .fpr) ∧
          ∀ x ∈ a.reads, x ∈ (Action.partsAll test.actions).map Action.id)) = some true := by
    decide +kernel
  simp only [Option.bind_eq_bind, Option.bind_eq_some_iff, Option.pure_def, Option.some.injEq,
    decide_eq_true_eq, except_toOption_eq_some] at hbuilt
  obtain ⟨tests, htests, hall⟩ := hbuilt
  obtain ⟨program, h, -⟩ : ∃ program,
      lowerScenarios .standard (standardContext .rv64) crossing = .ok program ∧ True :=
    exists_lowered rfl (by decide +kernel)
  have happart : ∀ test ∈ tests, test.Apart Catalog.rv64 := fun test htest =>
    ⟨fun a ha => (hall test htest a ha).1,
      fun a ha x hx hnone => absurd ((hall test htest a ha).2 x hx) hnone⟩
  have hbuiltin : Catalog.builtin (standardContext .rv64).environment.xlen =
      .ok (standardContext .rv64).catalog := Catalog.builtin_rv64
  exact ⟨tests, program, Catalog.builtin_rv64, htests, happart, h,
    registers_keep_files hbuiltin htests happart h⟩

def selfRead : List Scenario :=
  [{ name := "t", steps := [
    { id := "x", kind := .load 0 none (some "flw"), inputs := [.ref "x"] }] }]

theorem selfRead_leaves_file : ¬ ∀ (context : Context) (scenarios : List Scenario)
    (program : Program), Catalog.builtin context.environment.xlen = .ok context.catalog →
      lowerScenarios .standard context scenarios = .ok program →
      ∀ routine ∈ program.routines, ∀ i ∈ routine.instructions, i.KeepsFiles := by
  obtain ⟨program, h, hbreaks⟩ : ∃ program,
      lowerScenarios .standard (standardContext .rv64) selfRead = .ok program ∧
      ¬ ∀ routine ∈ program.routines, ∀ i ∈ routine.instructions, i.KeepsFiles :=
    exists_lowered rfl (by decide +kernel)
  exact fun hall => hbreaks (hall (standardContext .rv64) selfRead program Catalog.builtin_rv64 h)

end Program
end PlanLowering
