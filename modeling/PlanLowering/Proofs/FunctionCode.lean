import PlanLowering.Proofs.Conventional
import PlanLowering.Proofs.Placeholders

/-!
# The code of a function

A function is its label, the code of its page and a return. No pass puts code in front of the
label or behind the return; allocation opens a frame behind the label if it needs slots.
-/

namespace PlanLowering

open FreshIds (NamesLabel NamesPage)

section Lift

theorem Op.labels_of_not_synthetic {op : Op} (h : op.isSynthetic = false) : op.labels = [] := by
  cases op <;> simp_all [isSynthetic, labels]

namespace Action

/-- A code page whose nested code has no code pages left. -/
inductive IsFunction : Action → Prop where
  | intro {id spec code} (hid : NamesPage id) (hcode : ∀ a ∈ code, a.Labelled) :
      IsFunction (.block id false (.codePage spec) code)

structure Lifted (lifted : List Action × List Action) : Prop where
  kept : ∀ a ∈ lifted.1, a.Labelled
  functions : ∀ f ∈ lifted.2, NamesPage f.id → f.IsFunction

mutual

theorem lift_lifted {a : Action} (hfresh : a.isFresh) : Lifted a.lift := by
  match a with
  | .simple id expanded op =>
    have hlabels : op.labels = [] := Op.labels_of_not_synthetic (by simp_all [isFresh])
    have hlabelled : Labelled (.simple id expanded op) := .simple (by simp [hlabels])
    cases op <;> constructor <;> simp [lift, hlabelled]
  | .block id expanded (.codePage spec) code =>
    simp only [isFresh, Bool.and_eq_true, Bool.not_eq_true'] at hfresh
    obtain ⟨rfl, hcode⟩ := hfresh
    obtain ⟨hkept, hfunctions⟩ := liftAll_lifted hcode
    constructor
    · simp [lift]
    · simp only [lift, List.forall_mem_append, List.forall_mem_singleton]
      exact ⟨hfunctions, fun hid => .intro hid hkept⟩
  | .block id expanded (.assertException cause fault resume) code =>
    simp only [isFresh, Bool.and_eq_true, Bool.not_eq_true'] at hfresh
    obtain ⟨rfl, hcode⟩ := hfresh
    obtain ⟨hkept, hfunctions⟩ := liftAll_lifted hcode
    constructor
    · simp only [lift, List.forall_mem_singleton]
      exact .assertException (by simp) hkept
    · exact hfunctions

theorem liftAll_lifted {actions : List Action} (hfresh : areFresh actions) :
    Lifted (liftAll actions) := by
  match actions with
  | [] => constructor <;> simp [liftAll]
  | a :: rest =>
    simp only [areFresh, Bool.and_eq_true] at hfresh
    obtain ⟨hkept, hfunctions⟩ := lift_lifted hfresh.1
    obtain ⟨hmore, hfurther⟩ := liftAll_lifted hfresh.2
    exact ⟨List.forall_mem_append.2 ⟨hkept, hmore⟩, List.forall_mem_append.2 ⟨hfunctions, hfurther⟩⟩

end
end Action

variable {context : Context} {state state' : State}

theorem CanonicalBatch.ofTests_functions {tests : List TestCase} {batch : CanonicalBatch}
    (hfresh : ∀ test ∈ tests, Action.areFresh test.actions)
    (h : ofTests tests context state = .ok batch state') : ∀ f ∈ batch.functions, f.IsFunction := by
  have hspelled := (ofTests_claims h).spelled
  have hlifted : ∀ f ∈ batch.functions, NamesPage f.id → f.IsFunction := by
    clear hspelled
    induction tests generalizing state batch with
    | nil =>
      rw [ofTests, Lower.pure_ok] at h
      simp [← h.1]
    | cons test rest ih =>
      simp only [ofTests, ofTest, Lower.bind_ok, Lower.ofExcept_ok, Lower.pure_ok, Prod.exists,
        Prod.mk.injEq] at h
      obtain ⟨_, functions, next, ⟨map, _, _, actions, _, ⟨hrename, rfl⟩, ⟨rfl, rfl⟩, rfl⟩, more,
        _, hmore, rfl, rfl⟩ := h
      have hsame := (Action.renameAll_pins hrename).1
      rw [hfresh test List.mem_cons_self] at hsame
      exact List.forall_mem_append.2 ⟨(Action.liftAll_lifted hsame).functions,
        ih (fun t ht => hfresh t (List.mem_cons_of_mem _ ht)) hmore⟩
  exact fun f hf => hlifted f hf (hspelled f.id (List.mem_map_of_mem hf))

end Lift

variable {context : Context} {state state' : State} {id r : Id} {spec : PageSpec}

namespace Action

variable {actions body out : List Action} {code : List Instruction}

/-- A function becomes its page without code, what the code expands to, and a return. -/
theorem expandAll_function
    (h : expandAll [.block id false (.codePage spec) body] context state = .ok out state') :
    ∃ r, Bounded (.block id true (.codePage spec) []) (.simple r true .ret) out := by
  obtain ⟨e, _, he, h⟩ := (expandAll_ok.1 h).of_new rfl
  obtain ⟨r, _, rfl⟩ := codePage_ok he
  obtain ⟨first, _, _, hfirst, hret, rfl⟩ := h.of_append
  obtain rfl := hret.of_alone fun _ => rfl
  cases hfirst with
  | kept _ hbody => exact ⟨r, _, rfl⟩
  | next hnew => cases hnew

end Action

structure Instruction.IsReturn (i : Instruction) : Prop where
  name : i.name = "ret"
  native : i.form = .native
  destination : i.destination = none
  sources : i.sources = []

variable {actions body : List Action} {code out : List Instruction}

section Complete

variable (hcomplete : context.catalog.Complete)
include hcomplete

theorem Action.select_return {i : Instruction}
    (h : (Action.simple r true .ret).select context state = .ok i state') :
    (Action.openDestination r i).IsReturn := by
  obtain ⟨ret, hret, rfl⟩ := Action.select_simple_ok h
  have hdrawn :=
    Catalog.drawn_instruction (fun _ _ => True) (Lower.instruction_ok.1 hret).1 fun _ => trivial
  obtain ⟨t, ht, hname, hshaped⟩ := hdrawn.shaped
  have hslots : t.slots = [] := List.subset_nil.1 <|
    hcomplete.named ("ret", []) (by simp [Catalog.namedOpcodes]) t ht hname
  simp only [Template.slots, List.map_eq_nil_iff, Template.fields, List.append_eq_nil_iff,
    Option.toList_eq_nil_iff, Option.map_eq_none_iff] at hslots
  have hdest := hshaped.destination
  have hsources := hshaped.sources
  simp only [hslots.1, hslots.2, Option.map_none, Option.map_eq_none_iff, List.map_eq_nil_iff]
    at hdest hsources
  exact ⟨hdrawn.name, hdrawn.native, by simp [Action.openDestination, hdest], hsources⟩

/-- Legal code of a function starts with its label and ends with its return. -/
theorem legalizedCode_bounded
    (h : legalizedCode [.block id false (.codePage spec) body] context state = .ok code state') :
    ∃ last : Instruction, last.IsReturn ∧ Bounded (.label id id false) last code := by
  simp only [legalizedCode, Lower.bind_ok] at h
  obtain ⟨expanded, _, hexpanded, selected, _, hselected, hlegal⟩ := h
  obtain ⟨r, hbounded⟩ := Action.expandAll_function hexpanded
  obtain ⟨first, last, ⟨i, s, t, hi, rfl⟩, ⟨j, s', t', hj, rfl⟩, hbounded⟩ :=
    hbounded.forall₂ (Action.selectAll_each hselected)
  obtain ⟨_, ⟨⟩, _, rfl⟩ := Action.select_block_ok hi
  have hreturn := Action.select_return hcomplete hj
  refine ⟨_, hreturn, legalize_bounded hcomplete.typed hlegal hbounded ⟨rfl, rfl⟩
    ⟨hreturn.sources, ?_⟩⟩
  simp [Instruction.isPointerLabel, hreturn.native]

end Complete

def closed (leave : Instruction) (code : List Instruction) : List Instruction :=
  code.flatMap fun i => if i.name = "ret" then [leave, i] else [i]

section Closed

variable {leave i o : Instruction}

@[simp] theorem closed_nil : closed leave [] = [] := rfl

theorem closed_cons : closed leave (i :: code) =
    if i.name = "ret" then leave :: i :: closed leave code else i :: closed leave code := by
  unfold closed
  rw [List.flatMap_cons]
  split <;> rfl

theorem mem_closed {leave : Instruction} (h : o ∈ closed leave code) : o ∈ code ∨ o = leave := by
  obtain ⟨i, hi, ho⟩ := List.mem_flatMap.1 h
  split at ho
  · simp only [List.mem_cons, List.not_mem_nil, or_false] at ho
    rcases ho with rfl | rfl
    · exact .inr rfl
    · exact .inl hi
  · rw [List.mem_singleton] at ho
    exact .inl (ho ▸ hi)

end Closed

/-- How allocation lays out a function: what stands behind its label, and the frame around that. -/
structure Allocation.Lays (a : Allocation) (spill : SpillCode) (name : Id)
    (rest out : List Instruction) : Prop where
  members : ∀ o ∈ rest, o.Conventional ∨ a.Reaches spill o
  returns : ∃ (mid : List Instruction) (last : Instruction), rest = mid ++ [last] ∧ last.IsReturn
  framed : a.slots.size = 0 ∧ out = .label name name false :: rest ∨
    ∃ enter leave, spill.moveStack (-spill.offset a.slots.size) "spill_frame_open" = .ok enter ∧
      spill.moveStack (spill.offset a.slots.size) "spill_frame_close" = .ok leave ∧
      out = .label name name false :: enter :: closed leave rest

theorem allocate_lays {pool : RegisterPool} (hcode : ∀ i ∈ code, i.Conventional)
    (hbounded : ∃ last : Instruction, last.IsReturn ∧ Bounded (.label id id false) last code)
    (h : allocate pool code context state = .ok out state') :
    ∃ (a : Allocation) (spill : SpillCode) (rest : List Instruction), a.Sound pool ∧
      SpillCode.ofContext context = .ok spill ∧ a.Lays spill id rest out := by
  obtain ⟨a, _, ha, _, happly⟩ := allocate_ok h
  have hsound := (Allocation.ofCode_ok ha).1
  obtain ⟨spill, pieces, hspill, hpieces, hframe⟩ := Allocation.apply_ok happly
  obtain ⟨pairs, rfl, rfl, hpairs⟩ := Allocation.replaceAll_settles hpieces
  have hmembers : ∀ o ∈ Piece.layout (pairs.map Prod.snd),
      o.Conventional ∨ a.Reaches spill o := by
    intro o ho
    obtain ⟨p, hp, ho⟩ := Piece.mem_layout.1 ho
    obtain ⟨pair, hpair, rfl⟩ := List.mem_map.1 hp
    have hsettles := hpairs pair hpair
    rcases ho with ho | rfl | ho
    · exact .inr (hsettles.reaches o (List.mem_append_left _ ho))
    · exact .inl ((hcode _ (List.mem_map_of_mem hpair)).lodged hsettles.lodged hsound)
    · exact .inr (hsettles.reaches o (List.mem_append_right _ ho))
  obtain ⟨last, hlast, hbounded⟩ := hbounded
  have hsettles : List.Forall₂ (a.Settles spill) (pairs.map Prod.fst) (pairs.map Prod.snd) :=
    List.forall₂_map_left_iff.2 (List.forall₂_map_right_iff.2 (List.forall₂_same.2 hpairs))
  have hplaced : Bounded (.label id id false) last (Piece.layout (pairs.map Prod.snd)) := by
    refine Piece.layout_bounded hsettles hbounded ?_ ?_ ⟨rfl, ?_⟩
    · intro p hp
      rw [hp.idle rfl rfl]
      exact ⟨rfl, rfl⟩
    · intro p hp
      rw [hp.idle hlast.sources hlast.destination]
      exact ⟨rfl, rfl⟩
    · simp [Instruction.isPointerLabel, hlast.native]
  obtain ⟨mid, hbody⟩ := hplaced
  rw [List.cons_append] at hbody
  rw [hbody] at hframe hmembers
  refine ⟨a, spill, mid ++ [last], hsound, hspill, ?_, ⟨mid, last, rfl, hlast⟩, ?_⟩
  · exact fun o ho => hmembers o (List.mem_cons_of_mem _ ho)
  · rcases hframe with hbare | ⟨_, hframe⟩
    · exact .inl hbare
    · simp only [SpillCode.frame, except_bind_ok, Instruction.label, Instruction.isLabel, if_pos,
        except_pure_ok] at hframe
      obtain ⟨enter, henter, leave, hleave, rfl⟩ := hframe
      exact .inr ⟨enter, leave, henter, hleave, rfl⟩

theorem lowerScenarios_ok {builders : StepBuilders} {scenarios : List Scenario} {program : Program}
    (h : lowerScenarios builders context scenarios = .ok program) :
    ∃ tests final, Program.buildTests builders scenarios = .ok tests ∧
      Program.ofTests tests context (.start context.options) = .ok program final := by
  simp only [lowerScenarios, except_bind_ok] at h
  obtain ⟨tests, htests, h⟩ := h
  cases hrun : Program.ofTests tests context (.start context.options) with
  | error e final => simp [hrun] at h
  | ok lowered final =>
    simp only [hrun, except_pure_ok] at h
    exact ⟨tests, final, htests, h ▸ hrun⟩

/-- Every function of a lowered program is laid out under its own name. -/
theorem Program.functions_lay {scenarios : List Scenario} {program : Program} {routine : Routine}
    (hcatalog : Catalog.builtin context.environment.xlen = .ok context.catalog)
    (h : lowerScenarios .standard context scenarios = .ok program)
    (hroutine : routine ∈ program.functions) :
    ∃ (a : Allocation) (spill : SpillCode) (rest : List Instruction), a.Sound {} ∧
      SpillCode.ofContext context = .ok spill ∧ NamesPage routine.name ∧
      a.Lays spill routine.name rest routine.instructions := by
  obtain ⟨tests, final, htests, hrun⟩ := lowerScenarios_ok h
  obtain ⟨batch, s, t, _, _, hbatch, hfunctions, _⟩ := ofTests_ok hrun
  obtain ⟨before, f, after, lowered, out, t, u, hsplit, _, hlower, rfl⟩ :=
    lowerFunctions_turn hfunctions hroutine
  have hfunction : f.IsFunction :=
    CanonicalBatch.ofTests_functions (buildTests_pins htests).1 hbatch f (by simp [hsplit])
  obtain ⟨hid, hcode⟩ := hfunction
  obtain ⟨code, next, hlegal, hallocate⟩ := lowerRoutine_ok.1 hlower
  have hcomplete := Catalog.builtin_complete hcatalog
  obtain ⟨a, spill, rest, hsound, hspill, hlays⟩ :=
    allocate_lays (legalizedCode_conventional hcomplete.typed
      (List.forall_mem_singleton.2 (.codePage hid hcode)) hlegal)
      (legalizedCode_bounded hcomplete hlegal) hallocate
  exact ⟨a, spill, rest, hsound, hspill, hid, hlays⟩

def standardContext (catalog : Catalog) : Context := { catalog, environment := {}, options := {} }

end PlanLowering
