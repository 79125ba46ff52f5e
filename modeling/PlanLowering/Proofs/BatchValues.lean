import PlanLowering.Proofs.FunctionIds
import PlanLowering.Proofs.OwnValues
import PlanLowering.Proofs.Pins

/-!
# Values of a canonical batch

A test is renamed by a map that gives each action an id of its own, spelled as a value if the action
reads any. An id that no action has is left as it stands, so a plan could name a value by its later
spelling. Where none does, an action reads its own value in the batch only if it did so in the plan.
-/

namespace PlanLowering

open FreshIds (Below)

namespace Action

mutual

def parts : Action → List Action
  | .simple id expanded op => [.simple id expanded op]
  | .block id expanded owner code => .block id expanded owner code :: partsAll code

def partsAll : List Action → List Action
  | [] => []
  | a :: rest => a.parts ++ partsAll rest

end

def reads : Action → List Id
  | .simple _ _ op => op.reads
  | .block .. => []

def templates (catalog : Catalog) : Action → List Template
  | .simple _ _ op => op.templates catalog
  | .block .. => []

/-- New ids were given out before number `n`, and values are told apart by theirs. -/
structure Names (n : Nat) (map : IdMap Id) : Prop where
  given : ∀ id new, map.get? id = some new → new ≠ "" ∧ Below n new
  apart : ∀ id id' (k : Nat), map.get? id = some s!"r{k}" → map.get? id' = some s!"r{k}" → id = id'

def Known (map : IdMap Id) (a : Action) : Prop :=
  ∃ new, map.get? a.id = some new ∧ (a.reads ≠ [] → ∃ k : Nat, new = s!"r{k}")

end Action

/-- An action that reads its own value makes no float. Whatever else is read is the id of an action,
or at least is not spelled like a value of a batch. -/
structure TestCase.Apart (catalog : Catalog) (test : TestCase) : Prop where
  own : ∀ a ∈ Action.partsAll test.actions, a.id ∈ a.reads →
    ∀ t ∈ a.templates catalog, t.destination ≠ some .fpr
  foreign : ∀ a ∈ Action.partsAll test.actions, ∀ x ∈ a.reads,
    x ∉ (Action.partsAll test.actions).map Action.id → ∀ k : Nat, x ≠ s!"r{k}"

theorem Op.reads_mapIds {op : Op} (h : op.isSynthetic = false) (f : Id → Id) :
    (op.mapIds f).reads = op.reads.map f := by
  have hbase (a : Access) : (a.mapIds f).base = a.base.map f := rfl
  cases op with
  | arithmetic a => cases h₁ : a.src1 <;> cases h₂ : a.src2 <;> simp [mapIds, reads, h₁, h₂]
  | load a => cases h : a.base <;> simp [mapIds, reads, hbase, h]
  | store a value => cases value <;> cases h : a.base <;> simp [mapIds, reads, hbase, h]
  | call t base => cases base <;> simp [mapIds, reads]
  | csrWrite w => cases h : w.src <;> simp [mapIds, reads, h]
  | writePte t => cases h : t.src <;> simp [mapIds, reads, PteTarget.mapIds, h]
  | jumpToFail => simp [isSynthetic] at h
  | _ => simp [mapIds, reads]

theorem Op.templates_mapIds (f : Id → Id) (op : Op) (catalog : Catalog) :
    (op.mapIds f).templates catalog = op.templates catalog := by
  cases op with
  | arithmetic a =>
    cases h₁ : a.src1 <;> cases h₂ : a.src2 <;>
      simp [mapIds, templates, Arithmetic.filter, h₁, h₂]
  | _ => simp [mapIds, templates, Access.templates, Access.mapIds]

namespace Action

variable {catalog : Catalog} {context : Context} {state state' : State} {map map' : IdMap Id}
variable {scope : IdScope} {a a' : Action} {actions actions' : List Action} {n n' : Nat} {id new : Id}
variable {op : Op} {expanded : Bool}

theorem Names.empty : Names n {} := by
  constructor <;> simp

theorem Names.mono (h : Names n map) (hle : n ≤ n') : Names n' map where
  given id new hnew := ⟨(h.given id new hnew).1, (h.given id new hnew).2.mono hle⟩
  apart := h.apart

theorem Known.extend (h : a.Known map) (hextends : Extends map map') : a.Known map' := by
  obtain ⟨new, hnew, hvalue⟩ := h
  exact ⟨new, hextends _ _ hnew, hvalue⟩

/-- An action that reads values makes one, and only pages have names of another kind. -/
theorem freshId_ok (h : a.freshId context state = .ok new state') :
    (new = s!"r{state.ids.values}" ∧ state'.ids.values = state.ids.values + 1) ∨
      a.reads = [] ∧ new.toList.head? ≠ some 'r' ∧ new ≠ "" ∧
        state'.ids.values = state.ids.values := by
  unfold freshId at h
  split at h
  · simp only [Lower.bind_ok, Lower.freshDataPage, Lower.fresh_ok, Lower.reserve_ok,
      Lower.pure_ok] at h
    obtain ⟨_, _, ⟨rfl, rfl⟩, _, _, ⟨_, rfl⟩, rfl, rfl⟩ := h
    exact .inr ⟨rfl, by simp [FreshIds.dataPage, ToString.toString],
      by simp [FreshIds.dataPage, ToString.toString, String.ext_iff], rfl⟩
  · simp only [Lower.bind_ok, Lower.freshCodePage, Lower.fresh_ok, Lower.reserve_ok,
      Lower.pure_ok] at h
    obtain ⟨_, _, ⟨rfl, rfl⟩, _, _, ⟨_, rfl⟩, rfl, rfl⟩ := h
    exact .inr ⟨rfl, by simp [FreshIds.codePage, ToString.toString],
      by simp [FreshIds.codePage, ToString.toString, String.ext_iff], rfl⟩
  · exact .inl (Lower.freshValue_ok h)

theorem numberOwn_names (hnames : Names state.ids.values map)
    (h : a.numberOwn scope map context state = .ok map' state') :
    Names state'.ids.values map' ∧ a.Known map' := by
  obtain ⟨new, hnew, hfresh, rfl⟩ := numberOwn_ok h
  have hknown (hvalue : a.reads ≠ [] → ∃ k : Nat, new = s!"r{k}") : a.Known (map.insert a.id new) :=
    ⟨new, by simp, hvalue⟩
  have hcases : ∀ id v, (map.insert a.id new).get? id = some v →
      id = a.id ∧ v = new ∨ map.get? id = some v := by
    intro id v hv
    rw [IdMap.get?_insert] at hv
    split at hv
    · next hid => exact .inl ⟨hid, (Option.some.inj hv).symm⟩
    · exact .inr hv
  rcases freshId_ok hfresh with ⟨rfl, hcount⟩ | ⟨hreads, hinitial, hne, hcount⟩
  · refine ⟨⟨fun id v hv => ?_, fun id id' k hk hk' => ?_⟩, hknown fun _ => ⟨_, rfl⟩⟩
    · rcases hcases id v hv with ⟨_, rfl⟩ | hold
      · exact ⟨FreshIds.value_ne_empty, FreshIds.below_value.2 (by omega)⟩
      · exact (hnames.mono (by omega)).given id v hold
    · have hlast : ∀ key, map.get? key ≠ some s!"r{state.ids.values}" := fun key hkey =>
        absurd (FreshIds.below_value.1 (hnames.given _ _ hkey).2) (Nat.lt_irrefl _)
      rcases hcases id _ hk with ⟨rfl, hsame⟩ | hold <;>
        rcases hcases id' _ hk' with ⟨rfl, hsame'⟩ | hold'
      · rfl
      · exact absurd (hsame ▸ hold') (hlast id')
      · exact absurd (hsame' ▸ hold) (hlast id)
      · exact hnames.apart id id' k hold hold'
  · have hpage : ∀ k : Nat, new ≠ s!"r{k}" := fun k hk =>
      absurd (FreshIds.below_of_initial (n := 0) hinitial k hk) (Nat.not_lt_zero k)
    rw [hcount]
    refine ⟨⟨fun id v hv => ?_, fun id id' k hk hk' => ?_⟩, hknown fun hsome => absurd hreads hsome⟩
    · rcases hcases id v hv with ⟨_, rfl⟩ | hold
      · exact ⟨hne, FreshIds.below_of_initial hinitial⟩
      · exact hnames.given id v hold
    · have hold := (hcases id _ hk).resolve_left fun h => hpage k h.2.symm
      have hold' := (hcases id' _ hk').resolve_left fun h => hpage k h.2.symm
      exact hnames.apart id id' k hold hold'

mutual

theorem number_names {a : Action} {map map' : IdMap Id} {state state' : State}
    (hnames : Names state.ids.values map)
    (h : a.number scope map context state = .ok map' state') :
    Names state'.ids.values map' ∧ ∀ b ∈ a.parts, b.Known map' := by
  match a with
  | .simple id expanded op =>
    rw [number] at h
    obtain ⟨hnames', hknown⟩ := numberOwn_names hnames h
    exact ⟨hnames', by simpa [parts] using hknown⟩
  | .block id expanded owner code =>
    rw [number, Lower.bind_ok] at h
    obtain ⟨nested, next, hcode, hown⟩ := h
    obtain ⟨hnested, hparts⟩ := numberAll_names hnames hcode
    obtain ⟨hnames', hknown⟩ := numberOwn_names hnested hown
    refine ⟨hnames', ?_⟩
    rw [parts, List.forall_mem_cons]
    exact ⟨hknown, fun b hb => (hparts b hb).extend (numberOwn_extends hown)⟩

theorem numberAll_names {actions : List Action} {map map' : IdMap Id} {state state' : State}
    (hnames : Names state.ids.values map)
    (h : numberAll scope map actions context state = .ok map' state') :
    Names state'.ids.values map' ∧ ∀ b ∈ partsAll actions, b.Known map' := by
  match actions with
  | [] =>
    rw [numberAll, Lower.pure_ok] at h
    obtain ⟨rfl, rfl⟩ := h
    exact ⟨hnames, by simp [partsAll]⟩
  | a :: rest =>
    rw [numberAll, Lower.bind_ok] at h
    obtain ⟨nested, next, ha, hrest⟩ := h
    obtain ⟨hnested, hparts⟩ := number_names hnames ha
    obtain ⟨hnames', hmore⟩ := numberAll_names hnested hrest
    refine ⟨hnames', ?_⟩
    rw [partsAll, List.forall_mem_append]
    exact ⟨fun b hb => (hparts b hb).extend (numberAll_numbers hrest).extends_, hmore⟩

end

/-- A renamed action reads its own value only if it did so before. -/
theorem Names.owned {test : TestCase} (hnames : Names n map)
    (hknown : ∀ b ∈ partsAll test.actions, b.Known map) (happart : test.Apart catalog)
    (hmem : .simple id expanded op ∈ partsAll test.actions) (hop : op.isSynthetic = false)
    (hnew : map.get? id = some new) :
    Owned catalog n (.simple new expanded (op.mapIds (renamed map))) := by
  have hforeign : ∀ x ∈ op.reads, map.get? x = none → ∀ k : Nat, x ≠ s!"r{k}" := by
    intro x hx hnone
    refine happart.foreign _ hmem x hx fun hid => ?_
    obtain ⟨b, hb, rfl⟩ := List.mem_map.1 hid
    obtain ⟨v, hv, _⟩ := hknown b hb
    rw [hnone] at hv
    cases hv
  refine .simple (hnames.given id new hnew).1 (hnames.given id new hnew).2 ?_ ?_
  · intro y hy
    rw [Op.reads_mapIds hop] at hy
    obtain ⟨x, hx, rfl⟩ := List.mem_map.1 hy
    cases hv : map.get? x with
    | some v =>
      rw [renamed_of_get? hv]
      exact (hnames.given x v hv).2
    | none =>
      rw [renamed_of_unknown hv]
      exact fun k hk => absurd hk (hforeign x hx hv k)
  · intro hown
    rw [Op.reads_mapIds hop] at hown
    obtain ⟨x, hx, hsame⟩ := List.mem_map.1 hown
    obtain ⟨v, hv, hvalue⟩ := hknown _ hmem
    obtain rfl : v = new := Option.some.inj (hv.symm.trans hnew)
    obtain ⟨k, rfl⟩ := hvalue (List.ne_nil_of_mem hx)
    have hself : x = id := by
      cases hv : map.get? x with
      | some v =>
        rw [renamed_of_get? hv] at hsame
        exact hnames.apart x id k (hsame ▸ hv) hnew
      | none =>
        rw [renamed_of_unknown hv] at hsame
        exact absurd hsame (hforeign x hx hv k)
    intro t ht
    rw [Op.templates_mapIds] at ht
    exact happart.own _ hmem (hself ▸ hx) t ht

mutual

theorem renameDeep_owned {a a' : Action} (hfresh : a.isFresh)
    (hsimple : ∀ id expanded op new, .simple id expanded op ∈ a.parts → op.isSynthetic = false →
      map.get? id = some new → Owned catalog n (.simple new expanded (op.mapIds (renamed map))))
    (h : a.renameDeep map = .ok a') : a'.Owned catalog n := by
  match a with
  | .simple id expanded op =>
    simp only [isFresh, Bool.and_eq_true, Bool.not_eq_true'] at hfresh
    simp only [renameDeep, rename] at h
    split at h
    · simp at h
    · next new hnew =>
      rw [except_pure_ok] at h
      exact h ▸ hsimple id expanded op new (by simp [parts]) hfresh.2 hnew
  | .block id expanded owner code =>
    simp only [isFresh, Bool.and_eq_true] at hfresh
    simp only [renameDeep, except_bind_ok, except_pure_ok] at h
    obtain ⟨_, _, code', hcode, rfl⟩ := h
    refine .block (renameAll_owned hfresh.2 (fun id expanded op new hmem => ?_) hcode)
    exact hsimple id expanded op new (List.mem_cons_of_mem _ hmem)

theorem renameAll_owned {actions actions' : List Action} (hfresh : areFresh actions)
    (hsimple : ∀ id expanded op new, .simple id expanded op ∈ partsAll actions →
      op.isSynthetic = false → map.get? id = some new →
        Owned catalog n (.simple new expanded (op.mapIds (renamed map))))
    (h : renameAll map actions = .ok actions') : ∀ a ∈ actions', a.Owned catalog n := by
  match actions with
  | [] =>
    simp only [renameAll, except_pure_ok] at h
    simp [← h]
  | a :: rest =>
    simp only [areFresh, Bool.and_eq_true] at hfresh
    simp only [renameAll, except_bind_ok, except_pure_ok] at h
    obtain ⟨a', ha, more, hmore, rfl⟩ := h
    rw [List.forall_mem_cons]
    constructor
    · exact renameDeep_owned hfresh.1 (fun id expanded op new hmem =>
        hsimple id expanded op new (List.mem_append_left _ hmem)) ha
    · exact renameAll_owned hfresh.2 (fun id expanded op new hmem =>
        hsimple id expanded op new (List.mem_append_right _ hmem)) hmore

end

mutual

theorem lift_owned {a : Action} (h : a.Owned catalog n) :
    (∀ b ∈ a.lift.1, b.Owned catalog n) ∧ ∀ f ∈ a.lift.2, f.Owned catalog n := by
  match a with
  | .simple id expanded op => cases op <;> simp [lift, h]
  | .block id expanded (.codePage spec) code =>
    obtain _ | ⟨hcode⟩ := h
    obtain ⟨hkept, hfunctions⟩ := liftAll_owned hcode
    simp only [lift, List.forall_mem_append, List.forall_mem_singleton]
    exact ⟨by simp, hfunctions, .block hkept⟩
  | .block id expanded (.assertException cause fault resume) code =>
    obtain _ | ⟨hcode⟩ := h
    obtain ⟨hkept, hfunctions⟩ := liftAll_owned hcode
    simp only [lift, List.forall_mem_singleton]
    exact ⟨.block hkept, hfunctions⟩

theorem liftAll_owned {actions : List Action} (h : ∀ a ∈ actions, a.Owned catalog n) :
    (∀ b ∈ (liftAll actions).1, b.Owned catalog n) ∧
      ∀ f ∈ (liftAll actions).2, f.Owned catalog n := by
  match actions with
  | [] => simp [liftAll]
  | a :: rest =>
    obtain ⟨ha, hrest⟩ := List.forall_mem_cons.1 h
    obtain ⟨hkept, hfunctions⟩ := lift_owned ha
    obtain ⟨hmore, hfurther⟩ := liftAll_owned hrest
    exact ⟨List.forall_mem_append.2 ⟨hkept, hmore⟩, List.forall_mem_append.2 ⟨hfunctions, hfurther⟩⟩

end

end Action

namespace CanonicalBatch

variable {catalog : Catalog} {context : Context} {state state' : State}

theorem ofTest_owned {test test' : TestCase} {functions : List Action}
    (hfresh : Action.areFresh test.actions) (happart : test.Apart catalog)
    (h : ofTest test context state = .ok (test', functions) state') :
    (∀ a ∈ test'.actions, a.Owned catalog state'.ids.values) ∧
      ∀ f ∈ functions, f.Owned catalog state'.ids.values := by
  simp only [ofTest, Lower.bind_ok, Lower.ofExcept_ok, Lower.pure_ok, Prod.mk.injEq] at h
  obtain ⟨map, next, hnumber, actions, _, ⟨hrename, rfl⟩, ⟨rfl, rfl⟩, rfl⟩ := h
  obtain ⟨hnames, hknown⟩ := Action.numberAll_names .empty hnumber
  have howned : ∀ a ∈ actions, a.Owned catalog next.ids.values :=
    Action.renameAll_owned hfresh
      (fun id expanded op new hmem hop hnew => hnames.owned hknown happart hmem hop hnew) hrename
  exact Action.liftAll_owned howned

theorem ofTests_owned {tests : List TestCase} {batch : CanonicalBatch}
    (hfresh : ∀ test ∈ tests, Action.areFresh test.actions)
    (happart : ∀ test ∈ tests, test.Apart catalog)
    (h : ofTests tests context state = .ok batch state') :
    (∀ f ∈ batch.functions, f.Owned catalog state'.ids.values) ∧
      ∀ test ∈ batch.tests, ∀ a ∈ test.actions, a.Owned catalog state'.ids.values := by
  induction tests generalizing state batch with
  | nil =>
    rw [ofTests, Lower.pure_ok] at h
    simp [← h.1]
  | cons test rest ih =>
    obtain ⟨htestFresh, hrestFresh⟩ := List.forall_mem_cons.1 hfresh
    obtain ⟨htestApart, hrestApart⟩ := List.forall_mem_cons.1 happart
    simp only [ofTests, Lower.bind_ok, Lower.pure_ok, Prod.exists] at h
    obtain ⟨test', functions, next, htest, more, _, hrest, rfl, rfl⟩ := h
    have hmoves := ofTests_moves (R := Lower.CountsOn) rest _ _ _ _ hrest
    obtain ⟨hactions, hown⟩ := ofTest_owned htestFresh htestApart htest
    obtain ⟨hfunctions, hmore⟩ := ih hrestFresh hrestApart hrest
    rw [List.forall_mem_append, List.forall_mem_cons]
    exact ⟨⟨fun f hf => (hown f hf).mono hmoves, hfunctions⟩,
      fun a ha => (hactions a ha).mono hmoves, hmore⟩

end CanonicalBatch
end PlanLowering
