import Mathlib.Data.List.Flatten
import PlanLowering.Proofs.Numbering

/-!
# What canonicalization makes of tests

Each test is renamed by a map of its own, whose values come from one supply for the whole batch. So
the ids of a batch are distinct although those of its tests need not be. Memory leaves its page in
the registry and code pages become functions; all else stays where it was.
-/

namespace PlanLowering

namespace Action

variable {f : Id → Id}

mutual

theorem kept_reserves_nothing (f : Id → Id) (a : Action) :
    ∀ b ∈ postorderAll (a.kept f), b.page? = none := by
  match a with
  | .simple id expanded op =>
    cases op <;> simp [kept, postorderAll, postorder, page?, Op.mapIds]
  | .block id expanded (.codePage spec) code => simp [kept, postorderAll]
  | .block id expanded (.assertException cause fault resume) code =>
    have hcode := keptAll_reserves_nothing f code
    simpa [kept, postorderAll, postorder, page?, or_imp, forall_and] using hcode

/-- No page is left in a test or in nested code. -/
theorem keptAll_reserves_nothing (f : Id → Id) (actions : List Action) :
    ∀ b ∈ postorderAll (keptAll f actions), b.page? = none := by
  match actions with
  | [] => simp [keptAll, postorderAll]
  | a :: rest =>
    rw [keptAll, postorderAll_append, List.forall_mem_append]
    exact ⟨kept_reserves_nothing f a, keptAll_reserves_nothing f rest⟩

end

def isMemory (a : Action) : Bool := a.page?.map Prod.fst = some .data

theorem not_isMemory_of_mem_ids {a : Action} {id : Id} (h : id ∈ a.ids) : a.isMemory = false := by
  match a with
  | .simple id expanded op =>
    cases op with
    | memory spec => simp [ids, Op.ids] at h
    | _ => rfl
  | .block .. => simp [ids] at h

theorem function?_reserves_nothing {a b : Action} (h : a.function? f = some b) :
    ∃ id expanded spec code, b = .block id expanded (.codePage spec) code ∧
      ∀ c ∈ postorderAll code, c.page? = none := by
  match a with
  | .simple .. => simp [function?] at h
  | .block id expanded (.codePage spec) code =>
    rw [function?, Option.some.injEq] at h
    exact ⟨f id, expanded, spec, keptAll f code, h.symm, keptAll_reserves_nothing f code⟩
  | .block id expanded (.assertException ..) code => simp [function?] at h

/-- The action under new ids, without the pages nested in it. -/
def moved (f : Id → Id) : Action → Action
  | .simple id expanded op => .simple (f id) expanded (op.mapIds f)
  | .block id expanded owner code => .block (f id) expanded owner (keptAll f code)

mutual

theorem kept_perm (f : Id → Id) (a : Action) :
    (postorderAll (a.kept f) ++ postorderAll (a.postorder.filterMap (function? f))).Perm
      ((a.postorder.filter (!·.isMemory)).map (moved f)) := by
  match a with
  | .simple id expanded op =>
    cases op <;> simp [kept, postorder, postorderAll, List.filterMap_cons, function?, isMemory,
      page?, moved, Op.mapIds]
  | .block id expanded (.codePage spec) code =>
    have hcode := keptAll_perm f code
    simp only [kept, postorder, postorderAll, List.filterMap_append, postorderAll_append,
      List.map_append, List.filter_append, List.nil_append] at hcode ⊢
    refine .trans ?_ (hcode.append (.refl _))
    simpa [function?, postorder, postorderAll, isMemory, page?, moved]
      using (List.perm_append_comm_assoc _ _ _)
  | .block id expanded (.assertException cause fault resume) code =>
    have hcode := keptAll_perm f code
    simp only [kept, postorder, postorderAll, List.filterMap_append, postorderAll_append,
      List.map_append, List.filter_append, List.append_nil] at hcode ⊢
    refine .trans ?_ (hcode.append (.refl _))
    simpa [List.filterMap_cons, function?, postorder, postorderAll, isMemory, page?, moved]
      using (List.perm_append_singleton _ _).symm.append_left _

theorem keptAll_perm (f : Id → Id) (actions : List Action) :
    (postorderAll (keptAll f actions) ++
      postorderAll ((postorderAll actions).filterMap (function? f))).Perm
        (((postorderAll actions).filter (!·.isMemory)).map (moved f)) := by
  match actions with
  | [] => simp [keptAll, postorderAll]
  | a :: rest =>
    have hall := (kept_perm f a).append (keptAll_perm f rest)
    simp only [keptAll, postorderAll, postorderAll_append, List.filterMap_append, List.map_append,
      List.filter_append] at hall ⊢
    refine .trans ?_ hall
    simp only [List.append_assoc]
    exact (List.perm_append_comm_assoc _ _ _).append_left _

end

def label (a : Action) : Id × List Id := (a.id, a.ids)

def relabel (f : Id → Id) (l : Id × List Id) : Id × List Id := (f l.1, l.2.map f)

theorem label_moved (f : Id → Id) (a : Action) : (a.moved f).label = relabel f a.label := by
  cases a <;> simp [moved, label, relabel, Action.id, ids, Op.ids_mapIds]

end Action

namespace TestCase

variable {supply : FreshIds} {test : TestCase} {id : Id} {context : Context} {s s' : State}

/-- Actions in the order in which they are numbered. -/
def order (test : TestCase) : List Action := Action.postorderAll test.actions

def ids (test : TestCase) : List Id := test.order.map Action.id

def requests (test : TestCase) : List IdRequest := test.order.map Action.request

theorem flatMap_requests (tests : List TestCase) :
    (tests.flatMap order).map Action.request = tests.flatMap requests :=
  List.map_flatMap

/-- The new names of the test's actions, handed out by the supply. Other ids stay as they are. -/
def naming (supply : FreshIds) (test : TestCase) (id : Id) : Id :=
  ((test.ids.zip (supply.handOut test.requests)).lookup id).getD id

def kept (f : Id → Id) (test : TestCase) : TestCase :=
  { test with actions := Action.keptAll f test.actions }

def functions (f : Id → Id) (test : TestCase) : List Action :=
  test.order.filterMap (Action.function? f)

def pages (f : Id → Id) (test : TestCase) : List (Id × PageKind × PageSpec) :=
  test.order.filterMap fun a => a.page?.map (f a.id, ·)

theorem map_lookup_zip {keys values : List Id} (hnodup : keys.Nodup)
    (hlength : keys.length = values.length) :
    keys.map (fun key => ((keys.zip values).lookup key).getD key) = values := by
  induction keys generalizing values with
  | nil => simpa using hlength.symm
  | cons key rest ih =>
    obtain _ | ⟨value, more⟩ := values
    · simp at hlength
    · obtain ⟨hnew, hrest⟩ := List.nodup_cons.1 hnodup
      have htail : rest.map (fun k => (((key :: rest).zip (value :: more)).lookup k).getD k) =
          rest.map (fun k => ((rest.zip more).lookup k).getD k) := by
        refine List.map_congr_left fun k hk => ?_
        have hne : (k == key) = false := by
          simpa using fun h : k = key => hnew (h ▸ hk)
        simp [List.lookup_cons, hne]
      rw [List.map_cons, htail, ih hrest (by simpa using hlength)]
      simp

theorem map_naming (hnodup : test.ids.Nodup) :
    test.ids.map (test.naming supply) = supply.handOut test.requests :=
  map_lookup_zip hnodup (by simp [ids, requests])

theorem naming_of_not_mem (h : id ∉ test.ids) : test.naming supply id = id := by
  have hnone : (test.ids.zip (supply.handOut test.requests)).lookup id = none := by
    rw [List.lookup_eq_none_iff]
    intro entry hentry
    have hmem : entry.1 ∈ test.ids := (List.of_mem_zip hentry).1
    simpa using fun hid : id = entry.1 => h (hid ▸ hmem)
  simp [naming, hnone]

theorem ofTest_run (hpages : s.PagesGiven) (hnodup : test.ids.Nodup) :
    CanonicalBatch.ofTest test context s =
      .ok (test.kept (test.naming s.ids), test.functions (test.naming s.ids))
        (test.order.foldl State.claim s) := by
  obtain ⟨map, hrun, hentries⟩ : ∃ map,
      Action.numberAll (.test test.name) {} test.actions context s =
        .ok map (test.order.foldl State.claim s) ∧
      map.entries = test.ids.zip (s.ids.handOut test.requests) := by
    rw [Action.numberAll_eq_foldlM]
    exact Action.foldlM_numberOwn_run hpages (by simpa [order, ids] using hnodup)
  have hrenamed : renamed map = test.naming s.ids := by
    funext id
    rw [renamed, IdMap.get?, hentries, naming]
  have hknown : ∀ b ∈ Action.postorderAll test.actions, map.contains b.id := by
    intro b hb
    have hkeys : map.entries.map Prod.fst = test.ids := by
      rw [hentries, List.map_fst_zip (by simp [ids, requests])]
    by_contra hnone
    rw [IdMap.contains, Option.isSome_iff_ne_none, not_not, IdMap.get?_eq_none, hkeys] at hnone
    exact hnone (List.mem_map_of_mem hb)
  simp only [CanonicalBatch.ofTest, Lower.bind_ok, Lower.ofExcept_ok, Lower.pure_ok]
  refine ⟨_, _, hrun, _, _, ⟨Action.renameAll_run _ hknown, rfl⟩, ?_, rfl⟩
  rw [hrenamed, Action.liftAll_mapIds]
  rfl

theorem ofTest_nodup {result : TestCase × List Action}
    (h : CanonicalBatch.ofTest test context s = .ok result s') : test.ids.Nodup := by
  rw [CanonicalBatch.ofTest, Lower.bind_ok, Action.numberAll_eq_foldlM] at h
  obtain ⟨_, _, hrun, _⟩ := h
  simpa [order, ids] using Action.foldlM_numberOwn_nodup hrun

theorem ofTest_error {e : LoweringError} (hpages : s.PagesGiven)
    (h : CanonicalBatch.ofTest test context s = .error e s') :
    ∃ id, List.Duplicate id test.ids ∧ e = .duplicateId id (.test test.name) := by
  have hdup : ¬ test.ids.Nodup := by
    intro hnodup
    rw [ofTest_run hpages hnodup] at h
    cases h
  rw [CanonicalBatch.ofTest, Lower.bind_error, Action.numberAll_eq_foldlM] at h
  rcases h with h | ⟨map, next, hrun, _⟩
  · obtain ⟨id, hid, rfl⟩ := Action.foldlM_numberOwn_error hpages h
    exact ⟨id, by simpa [order, ids] using hid, rfl⟩
  · exact absurd (by simpa [order, ids] using Action.foldlM_numberOwn_nodup hrun) hdup

end TestCase

/-- The tests of a batch, each with the new names of its actions. -/
def namedTests (supply : FreshIds) : List TestCase → List (TestCase × (Id → Id))
  | [] => []
  | test :: rest => (test, test.naming supply) :: namedTests (supply.after test.requests) rest

namespace CanonicalBatch

variable {tests : List TestCase} {test : TestCase} {context : Context} {s s' : State}
variable {supply : FreshIds} {batch : CanonicalBatch} {named : List (TestCase × (Id → Id))}

def ofNamed (named : List (TestCase × (Id → Id))) : CanonicalBatch where
  tests := named.map fun (test, f) => test.kept f
  functions := named.flatMap fun (test, f) => test.functions f

/-- Tests whose ids are distinct, each for itself, are canonicalized. -/
theorem ofTests_run (hpages : s.PagesGiven) (hnodup : ∀ test ∈ tests, test.ids.Nodup) :
    ofTests tests context s = .ok (ofNamed (namedTests s.ids tests))
      ((tests.flatMap TestCase.order).foldl State.claim s) := by
  induction tests generalizing s with
  | nil => rfl
  | cons test rest ih =>
    obtain ⟨htest, hrest⟩ := List.forall_mem_cons.1 hnodup
    have hmore := ih (hpages.claims test.order) hrest
    rw [State.ids_claims] at hmore
    simp only [ofTests, Lower.bind_ok, Lower.pure_ok, Prod.exists, List.flatMap_cons,
      List.foldl_append]
    exact ⟨_, _, _, TestCase.ofTest_run hpages htest, _, _, hmore, rfl, rfl⟩

theorem ofTests_nodup (h : ofTests tests context s = .ok batch s') :
    ∀ test ∈ tests, test.ids.Nodup := by
  induction tests generalizing s s' batch with
  | nil => simp
  | cons test rest ih =>
    simp only [ofTests, Lower.bind_ok, Prod.exists] at h
    obtain ⟨_, _, _, htest, _, _, hrest, _⟩ := h
    exact List.forall_mem_cons.2 ⟨TestCase.ofTest_nodup htest, ih hrest⟩

theorem ofTests_error {e : LoweringError} (hpages : s.PagesGiven)
    (h : ofTests tests context s = .error e s') :
    ∃ test ∈ tests, ∃ id, List.Duplicate id test.ids ∧ e = .duplicateId id (.test test.name) := by
  induction tests generalizing s with
  | nil => cases h
  | cons test rest ih =>
    rw [ofTests, Lower.bind_error] at h
    rcases h with h | ⟨result, next, htest, h⟩
    · obtain ⟨id, hid⟩ := TestCase.ofTest_error hpages h
      exact ⟨test, List.mem_cons_self, id, hid⟩
    · have hnext := htest
      rw [TestCase.ofTest_run hpages (TestCase.ofTest_nodup htest)] at hnext
      cases hnext
      rcases Lower.bind_error.1 h with h | ⟨_, _, _, h⟩
      · obtain ⟨test', htest', hid⟩ := ih (hpages.claims test.order) h
        exact ⟨test', List.mem_cons_of_mem _ htest', hid⟩
      · cases h

/-- All actions of a batch, at any depth. -/
def actions (batch : CanonicalBatch) : List Action :=
  batch.tests.flatMap TestCase.order ++ Action.postorderAll batch.functions

def ids (batch : CanonicalBatch) : List Id := batch.actions.map Action.id

/-- The new names of all actions of the tests, pages included, are what the supply hands out. -/
theorem ids_namedTests (hnodup : ∀ test ∈ tests, test.ids.Nodup) :
    (namedTests supply tests).flatMap (fun (test, f) => test.ids.map f) =
      supply.handOut (tests.flatMap TestCase.requests) := by
  induction tests generalizing supply with
  | nil => rfl
  | cons test rest ih =>
    obtain ⟨htest, hrest⟩ := List.forall_mem_cons.1 hnodup
    simp only [namedTests, List.flatMap_cons, FreshIds.handOut_append]
    rw [TestCase.map_naming htest, ih hrest]

theorem pages_namedTests (hnodup : ∀ test ∈ tests, test.ids.Nodup) :
    ((tests.flatMap TestCase.order).zip (supply.handOut (tests.flatMap TestCase.requests))).filterMap
        (fun (a, id) => a.page?.map (id, ·)) =
      (namedTests supply tests).flatMap fun (test, f) => test.pages f := by
  induction tests generalizing supply with
  | nil => rfl
  | cons test rest ih =>
    obtain ⟨htest, hrest⟩ := List.forall_mem_cons.1 hnodup
    have hlength : test.order.length = (supply.handOut test.requests).length := by
      simp [TestCase.requests]
    have hown : test.order.zip (supply.handOut test.requests) =
        test.order.map fun a => (a, test.naming supply a.id) := by
      rw [← TestCase.map_naming htest, TestCase.ids, List.map_map]
      exact List.map_prod_left_eq_zip.symm
    simp only [namedTests, List.flatMap_cons, FreshIds.handOut_append]
    rw [List.zip_append hlength, List.filterMap_append, ih hrest, hown, List.filterMap_map]
    rfl

/-- The actions of a batch are those of its tests that are no memory, under their new names. -/
theorem moved_perm (named : List (TestCase × (Id → Id))) :
    (ofNamed named).actions.Perm (named.flatMap fun (test, f) =>
      (test.order.filter (!·.isMemory)).map (Action.moved f)) := by
  induction named with
  | nil => exact .refl _
  | cons entry rest ih =>
    obtain ⟨test, f⟩ := entry
    have hall := (Action.keptAll_perm f test.actions).append ih
    simp only [ofNamed, actions, List.map_cons, List.flatMap_cons, Action.postorderAll_append]
      at hall ⊢
    refine .trans ?_ hall
    simp only [List.append_assoc, TestCase.order, TestCase.kept, TestCase.functions]
    exact (List.perm_append_comm_assoc _ _ _).append_left _

theorem actions_perm (named : List (TestCase × (Id → Id))) :
    ((ofNamed named).actions.map Action.label).Perm (named.flatMap fun (test, f) =>
      (test.order.filter (!·.isMemory)).map (Action.relabel f ∘ Action.label)) := by
  have hlabels := (moved_perm named).map Action.label
  simpa only [List.map_flatMap, List.map_map, Function.comp_def, Action.label_moved] using hlabels

/-- What a batch is, given the tests it was made of and the state it left behind. -/
structure Canonical (tests : List TestCase) (batch : CanonicalBatch) (final : State) : Prop where
  /-- No two actions share an id, be it in tests, in nested code or in functions. -/
  ids_nodup : batch.ids.Nodup
  /-- No id of the batch is ever handed out again. -/
  ids_retired : ∀ requests, ∀ id ∈ final.ids.handOut requests, id ∉ batch.ids
  tests_reserve_nothing : ∀ test ∈ batch.tests, ∀ a ∈ test.order, a.page? = none
  functions_reserve_nothing : ∀ f ∈ batch.functions, ∃ id expanded spec code,
    f = .block id expanded (.codePage spec) code ∧ ∀ a ∈ Action.postorderAll code, a.page? = none
  tests_kept : batch.tests = (namedTests {} tests).map fun (test, f) => test.kept f
  /-- Every code page has become a function, nested pages before their owners. -/
  functions_lifted : batch.functions = (namedTests {} tests).flatMap fun (test, f) =>
    test.functions f
  pages_registered : final.pages.entries.entries = (namedTests {} tests).flatMap fun (test, f) =>
    test.pages f

theorem ids_sublist (supply : FreshIds) (hnodup : ∀ test ∈ tests, test.ids.Nodup) :
    ∃ ids, (ofNamed (namedTests supply tests)).ids.Perm ids ∧
      ids.Sublist (supply.handOut (tests.flatMap TestCase.requests)) := by
  have hperm := (actions_perm (namedTests supply tests)).map Prod.fst
  rw [List.map_map] at hperm
  refine ⟨_, hperm, ?_⟩
  rw [← ids_namedTests hnodup, List.map_flatMap]
  refine List.Sublist.flatMap_right _ fun ⟨test, f⟩ _ => ?_
  simp only [List.map_map, TestCase.ids]
  exact List.filter_sublist.map _

theorem canonical_of_nodup (hnodup : ∀ test ∈ tests, test.ids.Nodup) (options : Options) :
    Canonical tests (ofNamed (namedTests {} tests))
      ((tests.flatMap TestCase.order).foldl State.claim (.start options)) := by
  obtain ⟨ids, hperm, hsublist⟩ := ids_sublist {} hnodup
  have hpages := State.pagesGiven_start options
  constructor
  case ids_nodup =>
    exact hperm.nodup_iff.2 ((FreshIds.handOut_nodup _ _).sublist hsublist)
  case ids_retired =>
    intro requests id hid hmem
    rw [State.ids_claims] at hid
    have hfirst : id ∈ FreshIds.handOut {} (tests.flatMap TestCase.requests) :=
      hsublist.subset (hperm.mem_iff.1 hmem)
    have hall := FreshIds.handOut_nodup {} (tests.flatMap TestCase.requests ++ requests)
    rw [FreshIds.handOut_append] at hall
    refine (List.nodup_append.1 hall).2.2 id hfirst id ?_ rfl
    rwa [← TestCase.flatMap_requests]
  case tests_reserve_nothing =>
    intro test' htest'
    obtain ⟨⟨test, f⟩, _, rfl⟩ := List.mem_map.1 htest'
    exact Action.keptAll_reserves_nothing f test.actions
  case functions_reserve_nothing =>
    intro page hpage
    obtain ⟨⟨test, f⟩, _, hpage⟩ := List.mem_flatMap.1 hpage
    obtain ⟨a, _, ha⟩ := List.mem_filterMap.1 hpage
    exact Action.function?_reserves_nothing ha
  case tests_kept => rfl
  case functions_lifted => rfl
  case pages_registered =>
    rw [State.entries_claims hpages, TestCase.flatMap_requests, ← pages_namedTests hnodup]
    rfl

/-- Canonicalization fails at duplicate ids only, and otherwise gives one batch with one space of
ids. -/
theorem ofTests_canonical (tests : List TestCase) (context : Context) :
    ((∃ e s, ofTests tests context (.start context.options) = .error e s) ↔
      ∃ test ∈ tests, ∃ id, List.Duplicate id test.ids) ∧
    match ofTests tests context (.start context.options) with
    | .error e _ => ∃ test ∈ tests, ∃ id, List.Duplicate id test.ids ∧
        e = .duplicateId id (.test test.name)
    | .ok batch final => Canonical tests batch final := by
  have hpages := State.pagesGiven_start context.options
  cases hrun : ofTests tests context (.start context.options) with
  | error e s =>
    obtain ⟨test, htest, id, hid, rfl⟩ := ofTests_error hpages hrun
    exact ⟨⟨fun _ => ⟨test, htest, id, hid⟩, fun _ => ⟨_, s, rfl⟩⟩, test, htest, id, hid, rfl⟩
  | ok batch final =>
    have hnodup := ofTests_nodup hrun
    rw [ofTests_run hpages hnodup] at hrun
    cases hrun
    refine ⟨⟨fun ⟨_, _, h⟩ => (nomatch h), fun ⟨test, htest, id, hid⟩ => ?_⟩,
      canonical_of_nodup hnodup context.options⟩
    exact absurd hid (List.nodup_iff_forall_not_duplicate.1 (hnodup test htest) id)

end CanonicalBatch

end PlanLowering
