import Mathlib.Logic.Equiv.Basic
import PlanLowering.Proofs.FunctionCode
import PlanLowering.Proofs.Rv64Catalog
import PlanLowering.Proofs.StepRenaming

/-!
# Step ids leave no trace

The names of a canonical batch come from the supply, in an order in which the old ids play no part.
Tests that differ by an injective renaming of their ids so become the same batch, and nothing behind
canonicalization sees the old ids.
-/

namespace PlanLowering

section Actions

variable {f g h : Id → Id}

theorem Access.mapIds_comp (a : Access) (hagree : ∀ x ∈ a.ids, g (f x) = h x) :
    (a.mapIds f).mapIds g = a.mapIds h := by
  have hbase : (a.base.map f).map g = a.base.map h := by
    rw [Option.map_map]
    exact Option.map_congr fun x hx => hagree x (List.mem_append_right _ (Option.mem_toList.2 hx))
  have hmemory : ∀ found ∈ a.memory, g (f found.id) = h found.id := fun found hfound =>
    hagree _ (List.mem_append_left _ (by simp [Option.mem_def.1 hfound]))
  cases hm : a.memory with
  | none => simp [mapIds, hm, hbase]
  | some found =>
    have := hmemory found hm
    cases found <;> simp_all [mapIds, Address.id]

theorem PteTarget.mapIds_comp (t : PteTarget) (hagree : ∀ x ∈ t.ids, g (f x) = h x) :
    (t.mapIds f).mapIds g = t.mapIds h := by
  cases hs : t.src <;> simp_all [mapIds, ids]

theorem Op.mapIds_comp (op : Op) (hagree : ∀ x ∈ op.ids, g (f x) = h x) :
    (op.mapIds f).mapIds g = op.mapIds h := by
  cases op with
  | arithmetic a => cases h₁ : a.src1 <;> cases h₂ : a.src2 <;> simp_all [mapIds, ids]
  | load access => simp [mapIds, Access.mapIds_comp access hagree]
  | store access value =>
    simp only [ids, List.forall_mem_append] at hagree
    cases value <;> simp_all [mapIds, Access.mapIds_comp access hagree.2]
  | call target base => cases base <;> simp_all [mapIds, ids]
  | csrWrite w => cases hs : w.src <;> simp_all [mapIds, ids]
  | readPte t => simp [mapIds, PteTarget.mapIds_comp t hagree]
  | writePte t => simp [mapIds, PteTarget.mapIds_comp t hagree]
  | _ => simp_all [mapIds, ids]

end Actions

namespace Action

variable {f g h : Id → Id}

def Composes (f g h : Id → Id) (a : Action) : Prop := g (f a.id) = h a.id ∧ ∀ x ∈ a.ids, g (f x) = h x

mutual

theorem kept_mapIds (a : Action) (hagree : ∀ b ∈ a.postorder, b.Composes f g h) :
    (a.mapIds f).kept g = a.kept h := by
  match a with
  | .simple id expanded op =>
    obtain ⟨hid, hids⟩ := hagree _ (mem_postorder_self _)
    have hop := Op.mapIds_comp op hids
    rw [Action.id] at hid
    cases op <;> simp_all [mapIds, kept, Op.mapIds]
  | .block id expanded (.codePage spec) code => rfl
  | .block id expanded (.assertException cause fault resume) code =>
    simp only [postorder, List.forall_mem_append, List.forall_mem_singleton] at hagree
    have hid : g (f id) = h id := hagree.2.1
    simp [mapIds, kept, keptAll_mapIds code hagree.1, hid]

theorem keptAll_mapIds (actions : List Action)
    (hagree : ∀ b ∈ postorderAll actions, b.Composes f g h) :
    keptAll g (mapIdsAll f actions) = keptAll h actions := by
  match actions with
  | [] => rfl
  | a :: rest =>
    rw [postorderAll, List.forall_mem_append] at hagree
    rw [mapIdsAll, keptAll, keptAll, kept_mapIds a hagree.1, keptAll_mapIds rest hagree.2]

end

theorem function?_mapIds (a : Action) (hagree : ∀ b ∈ a.postorder, b.Composes f g h) :
    (a.mapIds f).function? g = a.function? h := by
  match a with
  | .simple .. => rfl
  | .block id expanded (.assertException ..) code => rfl
  | .block id expanded (.codePage spec) code =>
    simp only [postorder, List.forall_mem_append, List.forall_mem_singleton] at hagree
    have hid : g (f id) = h id := hagree.2.1
    simp [mapIds, function?, keptAll_mapIds code hagree.1, hid]

end Action

namespace Action

mutual

theorem mem_postorder_trans {a c : Action} (b : Action) (ha : a ∈ b.postorder)
    (hc : c ∈ a.postorder) : c ∈ b.postorder := by
  match b with
  | .simple id expanded op =>
    rw [List.mem_singleton.1 ha] at hc
    exact hc
  | .block id expanded owner code =>
    rw [postorder, List.mem_append] at ha
    rcases ha with ha | ha
    · exact List.mem_append_left _ (mem_postorderAll_trans code ha hc)
    · rw [List.mem_singleton.1 ha] at hc
      exact hc

theorem mem_postorderAll_trans {a c : Action} (actions : List Action)
    (ha : a ∈ postorderAll actions) (hc : c ∈ a.postorder) : c ∈ postorderAll actions := by
  match actions with
  | [] => cases ha
  | b :: rest =>
    rw [postorderAll, List.mem_append] at ha ⊢
    exact ha.imp (mem_postorder_trans b · hc) (mem_postorderAll_trans rest · hc)

end

end Action

namespace TestCase

variable {f : Id → Id} {test test' : TestCase} {supply : FreshIds} {x : Id}

theorem order_mapIds (f : Id → Id) (test : TestCase) :
    (test.mapIds f).order = test.order.map (Action.mapIds f) :=
  Action.postorderAll_mapIds f test.actions

theorem ids_mapIds (f : Id → Id) (test : TestCase) : (test.mapIds f).ids = test.ids.map f := by
  simp [ids, order_mapIds]

theorem requests_mapIds (f : Id → Id) (test : TestCase) :
    (test.mapIds f).requests = test.requests := by
  simp [requests, order_mapIds]

theorem lookup_zip_map {keys values : List Id} (hinj : Set.InjOn f {y | y ∈ x :: keys}) :
    ((keys.map f).zip values).lookup (f x) = (keys.zip values).lookup x := by
  induction keys generalizing values with
  | nil => rfl
  | cons key rest ih =>
    have hrest := hinj.mono fun y (hy : y ∈ x :: rest) => by
      rcases List.mem_cons.1 hy with rfl | hy <;> simp_all
    obtain _ | ⟨value, more⟩ := values
    · rfl
    · have hkey : (f x == f key) = (x == key) := by
        rw [Bool.eq_iff_iff, beq_iff_eq, beq_iff_eq]
        exact hinj.eq_iff (by simp) (by simp)
      simp only [List.map_cons, List.zip_cons_cons, List.lookup_cons, hkey, ih hrest]

/-- A renamed id gets the name that the id would have got. -/
theorem naming_mapIds (hinj : Set.InjOn f {y | y ∈ test.ids}) (hx : x ∈ test.ids) :
    (test.mapIds f).naming supply (f x) = test.naming supply x := by
  have hkeys : Set.InjOn f {y | y ∈ x :: test.ids} := hinj.mono fun y (hy : y ∈ x :: test.ids) => by
    rcases List.mem_cons.1 hy with rfl | hy
    · exact hx
    · exact hy
  have hlookup : ((test.ids.map f).zip (supply.handOut test.requests)).lookup (f x) = _ :=
    lookup_zip_map hkeys
  rw [naming, naming, ids_mapIds, requests_mapIds, hlookup]
  cases hfound : (test.ids.zip (supply.handOut test.requests)).lookup x with
  | some new => rfl
  | none =>
    have hkey : x ∈ (test.ids.zip (supply.handOut test.requests)).map Prod.fst := by
      rwa [List.map_fst_zip (by simp [ids, requests])]
    obtain ⟨entry, hentry, rfl⟩ := List.mem_map.1 hkey
    simpa using List.lookup_eq_none_iff.1 hfound entry hentry

def Renames (test test' : TestCase) : Prop :=
  ∃ f, Set.InjOn f {x | x ∈ test.ids} ∧ test.Closed ∧ test' = test.mapIds f

theorem Renames.requests (h : test.Renames test') : test'.requests = test.requests := by
  obtain ⟨f, _, _, rfl⟩ := h
  exact requests_mapIds f test

theorem Renames.nodup_iff (h : test.Renames test') : test'.ids.Nodup ↔ test.ids.Nodup := by
  obtain ⟨f, hinj, _, rfl⟩ := h
  rw [ids_mapIds]
  exact ⟨.of_map f, fun hnodup => hnodup.map_on fun x hx y hy => @hinj x hx y hy⟩

theorem Renames.composes (hinj : Set.InjOn f {y | y ∈ test.ids}) (hclosed : test.Closed)
    (supply : FreshIds) : ∀ a ∈ test.order,
      a.Composes f ((test.mapIds f).naming supply) (test.naming supply) := fun a ha =>
  ⟨naming_mapIds hinj (List.mem_map_of_mem ha),
    fun _ hx => naming_mapIds hinj (hclosed a ha _ hx)⟩

theorem Renames.kept (h : test.Renames test') :
    test'.kept (test'.naming supply) = test.kept (test.naming supply) := by
  obtain ⟨f, hinj, hclosed, rfl⟩ := h
  have hactions := Action.keptAll_mapIds test.actions (composes hinj hclosed supply)
  simp only [TestCase.kept, mapIds] at hactions ⊢
  rw [hactions]

theorem Renames.functions (h : test.Renames test') :
    test'.functions (test'.naming supply) = test.functions (test.naming supply) := by
  obtain ⟨f, hinj, hclosed, rfl⟩ := h
  rw [TestCase.functions, order_mapIds, List.filterMap_map, TestCase.functions]
  refine List.filterMap_congr fun a ha => Action.function?_mapIds a fun b hb => ?_
  exact composes hinj hclosed supply b (Action.mem_postorderAll_trans _ ha hb)

theorem Renames.claims (h : test.Renames test') (s : State) :
    test'.order.foldl State.claim s = test.order.foldl State.claim s := by
  obtain ⟨f, _, _, rfl⟩ := h
  have hclaim : ∀ (s : State) (a : Action), s.claim (a.mapIds f) = s.claim a := by
    simp [State.claim, State.claimPage]
  simp only [order_mapIds, List.foldl_map, hclaim]

end TestCase

namespace CanonicalBatch

variable {tests tests' : List TestCase} {context : Context} {s s' : State} {batch : CanonicalBatch}

theorem ofNamed_renames (h : List.Forall₂ TestCase.Renames tests tests') (supply : FreshIds) :
    ofNamed (namedTests supply tests') = ofNamed (namedTests supply tests) := by
  induction h generalizing supply with
  | nil => rfl
  | @cons test _ _ _ htest _ ih =>
    have hmore := ih (supply.after test.requests)
    simp only [ofNamed, CanonicalBatch.mk.injEq] at hmore
    simp only [ofNamed, namedTests, List.map_cons, List.flatMap_cons, htest.kept, htest.functions,
      htest.requests, hmore.1, hmore.2]

theorem ofTests_renames (h : List.Forall₂ TestCase.Renames tests tests') (hpages : s.PagesGiven) :
    ofTests tests' context s = .ok batch s' ↔ ofTests tests context s = .ok batch s' := by
  have hnodup : (∀ test ∈ tests', test.ids.Nodup) ↔ ∀ test ∈ tests, test.ids.Nodup := by
    induction h with
    | nil => rfl
    | cons htest _ ih => rw [List.forall_mem_cons, List.forall_mem_cons, htest.nodup_iff, ih]
  have hclaims : (tests'.flatMap TestCase.order).foldl State.claim s =
      (tests.flatMap TestCase.order).foldl State.claim s := by
    clear hnodup hpages
    induction h generalizing s with
    | nil => rfl
    | cons htest _ ih => simp only [List.flatMap_cons, List.foldl_append, htest.claims, ih]
  constructor
  · intro hrun
    have hids := hnodup.1 (ofTests_nodup hrun)
    rw [ofTests_run hpages (ofTests_nodup hrun), ofNamed_renames h, hclaims] at hrun
    exact (ofTests_run hpages hids).trans hrun
  · intro hrun
    have hids := hnodup.2 (ofTests_nodup hrun)
    rw [ofTests_run hpages (ofTests_nodup hrun), ← ofNamed_renames h, ← hclaims] at hrun
    exact (ofTests_run hpages hids).trans hrun

end CanonicalBatch

namespace Program

variable {context : Context} {program : Program}

theorem ofTests_congr {tests tests' : List TestCase} {s s' : State}
    (h : ∀ batch final, CanonicalBatch.ofTests tests' context s = .ok batch final ↔
      CanonicalBatch.ofTests tests context s = .ok batch final) :
    ofTests tests' context s = .ok program s' ↔ ofTests tests context s = .ok program s' := by
  simp only [ofTests, Lower.bind_ok, Lower.read_ok, and_assoc, exists_and_left, exists_eq_left', h]

theorem buildTests_rename {plans : List (Scenario × (Id → Id))}
    (hclosed : ∀ plan ∈ plans, plan.1.Closed)
    (hinj : ∀ plan ∈ plans, Set.InjOn plan.2 {x | x ∈ plan.1.ids}) :
    Option.Rel (List.Forall₂ TestCase.Renames)
      (buildTests .standard (plans.map Prod.fst)).toOption
      (buildTests .standard (plans.map fun (scenario, f) => scenario.rename f)).toOption := by
  induction plans with
  | nil => exact .some .nil
  | cons plan rest ih =>
    obtain ⟨scenario, f⟩ := plan
    rw [List.forall_mem_cons] at hclosed hinj
    have hmore := ih hclosed.2 hinj.2
    simp only [List.map_cons, buildTests, toOption_bind,
      StepBuilders.buildTest_rename hclosed.1 hinj.1]
    cases htest : (StepBuilders.standard.buildTest scenario).toOption with
    | none => exact .none
    | some test =>
      obtain ⟨hids, htestClosed⟩ :=
        StepBuilders.buildTest_closed hclosed.1 (except_toOption_eq_some.1 htest)
      have hrenames : test.Renames (test.mapIds f) := ⟨f, hids ▸ hinj.1, htestClosed, rfl⟩
      generalize (buildTests .standard (rest.map Prod.fst)).toOption = before at hmore ⊢
      generalize (buildTests .standard
        (rest.map fun (scenario, f) => scenario.rename f)).toOption = after at hmore ⊢
      cases hmore with
      | none => exact .none
      | some hrest => exact .some (.cons hrenames hrest)

end Program

theorem lowerScenarios_iff {builders : StepBuilders} {context : Context} {scenarios : List Scenario}
    {program : Program} : lowerScenarios builders context scenarios = .ok program ↔
      ∃ tests ∈ (Program.buildTests builders scenarios).toOption, ∃ final,
        Program.ofTests tests context (.start context.options) = .ok program final := by
  constructor
  · intro h
    obtain ⟨tests, final, htests, hrun⟩ := lowerScenarios_ok h
    exact ⟨tests, except_toOption_eq_some.2 htests, final, hrun⟩
  · rintro ⟨tests, htests, final, hrun⟩
    rw [lowerScenarios, except_bind_ok]
    refine ⟨tests, except_toOption_eq_some.1 htests, ?_⟩
    rw [hrun]
    rfl

/-- Other step ids give the same program, or none if there was none. -/
theorem lowerScenarios_rename {context : Context} {plans : List (Scenario × (Id → Id))}
    (hclosed : ∀ plan ∈ plans, plan.1.Closed)
    (hinj : ∀ plan ∈ plans, Set.InjOn plan.2 {x | x ∈ plan.1.ids}) (program : Program) :
    lowerScenarios .standard context (plans.map fun (scenario, f) => scenario.rename f) =
        .ok program ↔
      lowerScenarios .standard context (plans.map Prod.fst) = .ok program := by
  rw [lowerScenarios_iff, lowerScenarios_iff]
  have hbuilt := Program.buildTests_rename hclosed hinj
  generalize (Program.buildTests .standard (plans.map Prod.fst)).toOption = before at hbuilt ⊢
  generalize (Program.buildTests .standard
    (plans.map fun (scenario, f) => scenario.rename f)).toOption = after at hbuilt ⊢
  cases hbuilt with
  | none => simp
  | @some tests tests' h =>
    have hrun (final : State) :
        Program.ofTests tests' context (.start context.options) = .ok program final ↔
          Program.ofTests tests context (.start context.options) = .ok program final :=
      Program.ofTests_congr fun _ _ =>
        CanonicalBatch.ofTests_renames h (State.pagesGiven_start context.options)
    simp [hrun]

/-- A call of a function. -/
def pageCall : Scenario :=
  { name := "t", steps := [
    { id := "g", kind := .codePage {}, code := [{ id := "c", kind := .comment "inner" }] },
    { id := "k", kind := .call, inputs := [.ref "g"] }] }

theorem pageCall_swapped : ∃ program,
    lowerScenarios .standard (standardContext .rv64) [pageCall] = .ok program ∧
    lowerScenarios .standard (standardContext .rv64) [pageCall.rename (Equiv.swap "g" "k")] =
      .ok program := by
  obtain ⟨program, hrun, -⟩ : ∃ program,
      lowerScenarios .standard (standardContext .rv64) [pageCall] = .ok program ∧ True :=
    exists_lowered rfl (by decide +kernel)
  have hclosed : ∀ plan ∈ [(pageCall, (Equiv.swap "g" "k" : Id → Id))], plan.1.Closed :=
    List.forall_mem_singleton.2 (by decide)
  have hinj : ∀ plan ∈ [(pageCall, (Equiv.swap "g" "k" : Id → Id))],
      Set.InjOn plan.2 {x | x ∈ plan.1.ids} :=
    List.forall_mem_singleton.2 (Equiv.swap "g" "k").injective.injOn
  exact ⟨program, hrun, (lowerScenarios_rename hclosed hinj program).2 hrun⟩

end PlanLowering
