import PlanLowering.Proofs.BatchValues
import PlanLowering.Proofs.ExpansionRuns
import PlanLowering.Proofs.LoweredTests

/-!
# Order under expansion

Something of every action stays under its id, an owner in front of what is nested in it. Helpers and
labels come between these under ids that are handed out for them. A modification of a table entry is
the one operation of which nothing stays.
-/

namespace PlanLowering

theorem FreshIds.settled_of_not_spelled {id : Id} (ids : FreshIds) (h : ¬ Spelled id) :
    ids.Settled id := by
  intro requests hid
  obtain ⟨r, k, _, hspelled⟩ := given_of_handOut hid
  exact h ⟨r, k, hspelled⟩

def Op.isReplaced : Op → Bool
  | .modifyPte .. => true
  | _ => false

namespace Action

def isReplaced : Action → Bool
  | .simple _ _ op => op.isReplaced
  | .block .. => false

/-- Ids of all actions that are not replaced, owners in front of what is nested in them. -/
def lasting (actions : List Action) : List Id :=
  ((partsAll actions).filter fun a => !a.isReplaced).map id

mutual

def trail : Action → List Id
  | .simple id expanded op => if !expanded && op.isReplaced then [] else [id]
  | .block id true _ _ => [id]
  | .block id false _ code => id :: trailAll code

def trailAll : List Action → List Id
  | [] => []
  | a :: rest => a.trail ++ trailAll rest

end

variable {context : Context} {s t : State} {a : Action} {actions out xs ys : List Action}
variable {ids ids' ids'' : FreshIds}

@[simp] theorem trailAll_nil : trailAll [] = [] := rfl

@[simp] theorem trailAll_cons (a : Action) (rest : List Action) :
    trailAll (a :: rest) = a.trail ++ trailAll rest := rfl

@[simp] theorem trailAll_append (xs ys : List Action) :
    trailAll (xs ++ ys) = trailAll xs ++ trailAll ys := by
  induction xs with
  | nil => rfl
  | cons a rest ih => simp [ih]

@[simp] theorem trail_expanded (id : Id) (op : Op) : (Action.simple id true op).trail = [id] := rfl

@[simp] theorem trail_owner (id : Id) (owner : Block) (code : List Action) :
    (Action.block id true owner code).trail = [id] := rfl

theorem trail_new (id : Id) (op : Op) (h : op.isReplaced = false) :
    (Action.new id op).trail = [id] := by
  simp [new, trail, h]

theorem trailAll_eq_flatMap (actions : List Action) : trailAll actions = actions.flatMap trail := by
  induction actions with
  | nil => rfl
  | cons a rest ih => rw [trailAll_cons, ih, List.flatMap_cons]

theorem trail_of_expanded (h : a.isExpanded) : a.trail = [a.id] := by
  cases a <;> cases h <;> rfl

theorem trailAll_of_expanded (h : ∀ a ∈ actions, a.isExpanded) :
    trailAll actions = actions.map id := by
  induction actions with
  | nil => rfl
  | cons a rest ih =>
    obtain ⟨ha, hrest⟩ := List.forall_mem_cons.1 h
    rw [trailAll_cons, trail_of_expanded ha, ih hrest]
    rfl

mutual

theorem trail_of_new {a : Action} (h : ∀ b ∈ a.parts, b.isExpanded = false) :
    a.trail = (a.parts.filter fun b => !b.isReplaced).map id := by
  match a with
  | .simple id true op | .block id true owner code => cases h _ List.mem_cons_self
  | .simple id false op =>
    cases hop : op.isReplaced <;> simp [trail, parts, isReplaced, hop, Action.id]
  | .block id false owner code =>
    rw [trail, trailAll_of_new (List.forall_mem_cons.1 h).2]
    rfl

/-- Where nothing was expanded yet, something comes of all that is not replaced. -/
theorem trailAll_of_new {actions : List Action} (h : ∀ b ∈ partsAll actions, b.isExpanded = false) :
    trailAll actions = lasting actions := by
  match actions with
  | [] => rfl
  | a :: rest =>
    rw [partsAll, List.forall_mem_append] at h
    rw [trailAll, trail_of_new h.1, trailAll_of_new h.2]
    simp [lasting, partsAll]

end

/-- What becomes of actions, by the ids that last: these stay in order, and all others are new. -/
structure Trails (ids ids' : FreshIds) (actions out : List Action) : Prop where
  order : (trailAll actions).Sublist (trailAll out)
  supply : ∃ new, ids.Assigns ids' new ∧ (trailAll out).Perm (trailAll actions ++ new)

namespace Trails

variable {more out' : List Action}

theorem refl (ids : FreshIds) (actions : List Action) : Trails ids ids actions actions :=
  ⟨List.Sublist.refl _, [], .refl ids, by simp⟩

theorem append (h : Trails ids ids' actions out) (h' : Trails ids' ids'' more out') :
    Trails ids ids'' (actions ++ more) (out ++ out') := by
  constructor
  · rw [trailAll_append, trailAll_append]
    exact h.order.append h'.order
  · obtain ⟨new, hnew, hperm⟩ := h.supply
    obtain ⟨new', hnew', hperm'⟩ := h'.supply
    rw [trailAll_append, trailAll_append]
    exact ⟨new ++ new', hnew.append hnew', FreshIds.perm_append_extended hperm hperm'⟩

theorem trans (h : Trails ids ids' actions out) (h' : Trails ids' ids'' out out') :
    Trails ids ids'' actions out' := by
  obtain ⟨new, hnew, hperm⟩ := h.supply
  obtain ⟨new', hnew', hperm'⟩ := h'.supply
  exact ⟨h.order.trans h'.order, new ++ new', hnew.append hnew',
    FreshIds.perm_trans_extended hperm hperm'⟩

end Trails

theorem sublist_insertBeforeLast {α : Type} (x : α) (xs : List α) :
    xs.Sublist (insertBeforeLast x xs) := by
  induction xs with
  | nil => exact List.nil_sublist _
  | cons y rest ih =>
    cases rest with
    | nil => exact List.sublist_cons_self _ _
    | cons z more => exact ih.cons_cons y

end Action

section Shapes

open PlanLowering.Action (Trails trailAll)

variable {op : Op} {id : Id} {env : Environment} {ids ids' : FreshIds} {actions : List Action}

theorem Op.isReplaced_of_staysLast (h : op.staysLast env) : op.isReplaced = false := by
  cases op <;> first | rfl | cases h

theorem Op.isReplaced_of_leavesT2 (h : (op.form env).leavesT2) : op.isReplaced = false := by
  cases op <;> first | rfl | cases h

theorem Op.Helps.isReplaced (h : op.Helps) : op.isReplaced = false := by
  cases op <;> first | rfl | cases h

theorem Op.Expands.trails (h : op.Expands env ids ids' id actions) :
    Trails ids ids' [.simple id false op] actions := by
  cases h with
  | @last _ op' before hlast hprepared hbefore hnew =>
    have hhelpers : trailAll before = before.map Action.id := by
      clear hprepared hnew
      induction before with
      | nil => rfl
      | cons b rest ih =>
        obtain ⟨⟨i, helper, rfl, hhelps⟩, hrest⟩ := List.forall_mem_cons.1 hbefore
        rw [Action.trailAll_cons, Action.trail_new i _ hhelps.isReplaced, ih hrest]
        rfl
    have hself := Action.trail_new id _ (isReplaced_of_staysLast hlast)
    rw [Action.new] at hself
    constructor
    · simp [hself, hhelpers]
    · exact ⟨_, hnew, by simp [hself, hhelpers]⟩
  | @fetched _ read hleaves _ hnew =>
    have hself := Action.trail_new id _ (isReplaced_of_leavesT2 hleaves)
    rw [Action.new] at hself
    have hmove := Action.trail_new id (.moveFromT2 Register.t2.name) rfl
    constructor
    · simp [hself, hmove]
    · exact ⟨_, hnew, by simpa [hself, hmove] using List.Perm.swap id read []⟩
  | @branched relation lhs rhs old pass fail label _ hactions =>
    have hself : (Action.simple id false (.compare relation lhs rhs old)).trail = [id] := rfl
    have hfail := Action.trail_new fail (.jumpToFail none) rfl
    have hlabel := Action.trail_new label (.label pass false) rfl
    constructor
    · simp [hself, hfail, hlabel]
    · exact ⟨_, hactions, by simp [hself, hfail, hlabel]⟩
  | @stored page level recursive entry value write access table _ hnew =>
    have hself : (Action.simple id false (.modifyPte page level recursive)).trail = [] := rfl
    have hentry := Action.trail_new entry (.li value) rfl
    have hwrite := Action.trail_new write (.store access (some entry)) rfl
    constructor
    · simp [hself]
    · exact ⟨_, hnew, by simp [Action.li, hself, hentry, hwrite]⟩

end Shapes

namespace Action

variable {context : Context}

mutual

/-- One expansion keeps the order of what lasts, at any depth. -/
theorem expand_trails {s t : State} {a : Action} {e : Expansion}
    (h : a.expand context s = .ok e t) : Trails s.ids t.ids [a] e.actions := by
  match a with
  | .simple id true op | .block id true owner code =>
    obtain ⟨rfl, rfl⟩ := expand_of_expanded rfl h
    exact .refl _ _
  | .simple id false op =>
    rw [expand] at h
    exact (Op.expand_expands h).trails
  | .block id false (.codePage spec) code =>
    obtain ⟨ret, hactions, hnew⟩ := expand_codePage h
    have hret := trail_new ret .ret rfl
    rw [hactions]
    constructor
    · simp [trail, hret]
    · exact ⟨_, hnew, by simp [trail, hret]⟩
  | .block id false (.assertException cause old old') code =>
    obtain ⟨_, body, next, hbody, fault, resume, label, fail, label', _, hids, hactions⟩ :=
      expand_assertException h
    obtain ⟨horder, made, hmade, hkept⟩ := expandEach_trails hbody
    have hmarks := trail_new label (.label fault true) rfl
    have hfail := trail_new fail (.jumpToFail none) rfl
    have hresume := trail_new label' (.label resume false) rfl
    have hinserted : (trailAll (insertBeforeLast (new label (.label fault true)) body)).Perm
        (trailAll body ++ [label]) := by
      have hperm := (insertBeforeLast_perm (new label (.label fault true)) body).flatMap_right trail
      rw [← trailAll_eq_flatMap, ← trailAll_eq_flatMap, trailAll_cons, hmarks] at hperm
      exact hperm.trans List.perm_append_comm
    have hlasting : (trailAll body).Sublist
        (trailAll (insertBeforeLast (new label (.label fault true)) body)) := by
      rw [trailAll_eq_flatMap, trailAll_eq_flatMap]
      exact (sublist_insertBeforeLast _ _).flatMap trail
    rw [hactions]
    constructor
    · have hbehind := (horder.trans hlasting).trans (List.sublist_append_left _ [fail, label'])
      simpa [trail, hfail, hresume] using hbehind.cons_cons id
    · refine ⟨made ++ [label, fail, label'], hmade.append hids, ?_⟩
      have hbehind : (trailAll (insertBeforeLast (Action.new label (.label fault true)) body) ++
          [fail, label']).Perm (trailAll code ++ (made ++ [label, fail, label'])) := by
        refine (hinserted.append_right [fail, label']).trans ?_
        simpa using
          FreshIds.perm_trans_extended hkept (.refl (trailAll body ++ [label, fail, label']))
      simpa [trail, hfail, hresume] using hbehind.cons id

theorem expandEach_trails {s t : State} {code body : List Action}
    (h : expandEach code context s = .ok body t) : Trails s.ids t.ids code body := by
  match code with
  | [] =>
    obtain ⟨rfl, rfl⟩ := expandEach_nil_ok.1 h
    exact .refl _ _
  | a :: rest =>
    obtain ⟨e, next, more, ha, hmore, rfl⟩ := expandEach_cons_ok h
    exact (expand_trails ha).append (expandEach_trails hmore)

end

variable {s t : State} {a b : Action} {actions out xs ys code : List Action} {e : Expansion}

/-- A list that is worked off keeps the order of what lasts. -/
theorem Worked.trails (h : Worked context actions s out t) : Trails s.ids t.ids actions out := by
  induction h with
  | done => exact .refl _ _
  | @kept a rest more s t _ _ ih => exact (Trails.refl s.ids [a]).append ih
  | @next a rest out e s t u _ he _ ih =>
    exact ((expand_trails he).append (.refl t.ids rest)).trans ih

section Nesting

theorem mem_partsAll : b ∈ partsAll actions ↔ ∃ a ∈ actions, b ∈ a.parts := by
  induction actions with
  | nil => simp [partsAll]
  | cons a rest ih => simp [partsAll, ih]

theorem mem_parts_self (a : Action) : a ∈ a.parts := by
  cases a <;> simp [parts]

def Emptied (actions : List Action) : Prop := ∀ b ∈ partsAll actions, b.isExpanded → b.parts = [b]

theorem emptied_iff : Emptied actions ↔ ∀ a ∈ actions, Emptied [a] := by
  constructor
  · intro h a ha b hb
    obtain ⟨c, hc, hb⟩ := mem_partsAll.1 hb
    rw [List.mem_singleton.1 hc] at hb
    exact h b (mem_partsAll.2 ⟨a, ha, hb⟩)
  · intro h b hb
    obtain ⟨a, ha, hb⟩ := mem_partsAll.1 hb
    exact h a ha b (mem_partsAll.2 ⟨a, List.mem_singleton.2 rfl, hb⟩)

theorem emptied_simple (id : Id) (expanded : Bool) (op : Op) : Emptied [.simple id expanded op] := by
  simp [Emptied, partsAll, parts]

theorem emptied_owner (id : Id) (owner : Block) : Emptied [.block id true owner []] := by
  simp [Emptied, partsAll, parts]

theorem Emptied.append (h : Emptied xs) (h' : Emptied ys) : Emptied (xs ++ ys) := by
  rw [emptied_iff, List.forall_mem_append]
  exact ⟨emptied_iff.1 h, emptied_iff.1 h'⟩

theorem Emptied.nested {id : Id} {expanded : Bool} {owner : Block}
    (h : Emptied [.block id expanded owner code]) : Emptied code := by
  intro b hb
  exact h b (by simp [partsAll, parts, hb])

theorem Emptied.insertBeforeLast (h : Emptied [a]) (h' : Emptied xs) :
    Emptied (insertBeforeLast a xs) := by
  rw [emptied_iff]
  intro b hb
  rcases insertBeforeLast_mem.1 hb with rfl | hb
  · exact h
  · exact emptied_iff.1 h' b hb

theorem expands_emptied {env : Environment} {ids ids' : FreshIds} {id : Id}
    {op : Op} (h : op.Expands env ids ids' id actions) : Emptied actions := by
  rw [emptied_iff]
  cases h with
  | last _ _ hbefore =>
    rw [List.forall_mem_append, List.forall_mem_singleton]
    refine ⟨fun b hb => ?_, emptied_simple _ _ _⟩
    obtain ⟨i, helper, rfl, _⟩ := hbefore b hb
    exact emptied_simple _ _ _
  | _ => simp only [List.forall_mem_cons, new, li, emptied_simple, List.not_mem_nil, false_imp_iff,
      implies_true, and_self]

mutual

theorem expand_emptied {s t : State} {a : Action} {e : Expansion} (ha : Emptied [a])
    (h : a.expand context s = .ok e t) : Emptied e.actions := by
  match a with
  | .simple id true op | .block id true owner code =>
    obtain ⟨rfl, _⟩ := expand_of_expanded rfl h
    exact ha
  | .simple id false op =>
    rw [expand] at h
    exact expands_emptied (Op.expand_expands h)
  | .block id false (.codePage spec) code =>
    obtain ⟨ret, hactions, _⟩ := expand_codePage h
    rw [hactions]
    exact ((emptied_owner id _).append ha.nested).append (emptied_simple _ _ _)
  | .block id false (.assertException cause old old') code =>
    obtain ⟨_, body, next, hbody, fault, resume, label, fail, label', _, _, hactions⟩ :=
      expand_assertException h
    have hinserted := (emptied_simple label false (.label fault true)).insertBeforeLast
      (expandEach_emptied ha.nested hbody)
    have hbehind := (emptied_simple fail false (.jumpToFail none)).append
      (emptied_simple label' false (.label resume false))
    rw [hactions]
    exact ((emptied_owner id _).append hinserted).append hbehind

theorem expandEach_emptied {s t : State} {code body : List Action} (hcode : Emptied code)
    (h : expandEach code context s = .ok body t) : Emptied body := by
  match code with
  | [] =>
    obtain ⟨rfl, _⟩ := expandEach_nil_ok.1 h
    exact hcode
  | a :: rest =>
    obtain ⟨e, next, more, ha, hmore, rfl⟩ := expandEach_cons_ok h
    obtain ⟨hfirst, hrest⟩ := List.forall_mem_cons.1 (emptied_iff.1 hcode)
    exact (expand_emptied hfirst ha).append (expandEach_emptied (emptied_iff.2 hrest) hmore)

end

theorem Worked.emptied (h : Worked context actions s out t) (hactions : Emptied actions) :
    Emptied out := by
  induction h with
  | done => exact hactions
  | kept _ _ ih =>
    obtain ⟨hfirst, hrest⟩ := List.forall_mem_cons.1 (emptied_iff.1 hactions)
    exact hfirst.append (ih (emptied_iff.2 hrest))
  | next _ he _ ih =>
    obtain ⟨hfirst, hrest⟩ := List.forall_mem_cons.1 (emptied_iff.1 hactions)
    exact ih ((expand_emptied hfirst he).append (emptied_iff.2 hrest))

theorem Emptied.partsAll (h : Emptied actions) (hexpanded : ∀ a ∈ actions, a.isExpanded) :
    Action.partsAll actions = actions := by
  induction actions with
  | nil => rfl
  | cons a rest ih =>
    obtain ⟨hfirst, hrest⟩ := List.forall_mem_cons.1 (emptied_iff.1 h)
    obtain ⟨ha, hexpanded⟩ := List.forall_mem_cons.1 hexpanded
    have hself : a.parts = [a] :=
      h a (mem_partsAll.2 ⟨a, List.mem_cons_self, mem_parts_self a⟩) ha
    rw [Action.partsAll, hself, ih (emptied_iff.2 hrest) hexpanded, List.singleton_append]

end Nesting

/-- Where the ids of a list are distinct and no action to come is given one of them, expansion leaves
a flat list of distinct ids. All that is not replaced has its id in it once, in the order of the
list, and every other id was handed out meanwhile. -/
theorem expandAll_keeps_order (hnew : ∀ a ∈ partsAll actions, a.isExpanded = false)
    (hdistinct : ((partsAll actions).map id).Nodup)
    (hunassigned : ∀ a ∈ partsAll actions, s.ids.Unassigned a.id)
    (h : expandAll actions context s = .ok out t) :
    partsAll out = out ∧ (out.map id).Nodup ∧ (lasting actions).Sublist (out.map id) ∧
      ∀ i ∈ out.map id, i ∈ lasting actions ∨ t.ids.Given i ∧ ¬ s.ids.Given i := by
  have hworked := expandAll_ok.1 h
  have hexpanded := hworked.expanded
  obtain ⟨horder, new, hadds, hperm⟩ := hworked.trails
  rw [trailAll_of_new hnew, trailAll_of_expanded hexpanded] at horder hperm
  have hlasting : (lasting actions).Sublist ((partsAll actions).map id) := List.filter_sublist.map id
  have hempty : Emptied actions := fun b hb hexpanded => by simp [hnew b hb] at hexpanded
  refine ⟨(hworked.emptied hempty).partsAll hexpanded, ?_, horder, fun i hi => ?_⟩
  · rw [hperm.nodup_iff, List.nodup_append]
    refine ⟨hdistinct.sublist hlasting, hadds.nodup, ?_⟩
    rintro i hi _ hinew rfl
    obtain ⟨a, ha, rfl⟩ := List.mem_map.1 (hlasting.subset hi)
    exact hadds.fresh _ hinew ((hunassigned a ha).given (hadds.assignable _ hinew))
  · rcases List.mem_append.1 (hperm.mem_iff.1 hi) with hi | hi
    · exact .inl hi
    · exact .inr ⟨hadds.given i hi, hadds.fresh i hi⟩

/-- A comparison and an assertion that owns a read through the runtime, a modification of a table
entry in a code page, and another assertion. -/
def nestedWork : List Action :=
  [.new "first" (.compare .equal "a" "b" none),
    .block "outer" false (.assertException .loadPageFault none none) [
      .new "read" (.readPte { memory := "page", level := none, src := none }),
      .block "code" false (.codePage {}) [.new "entry" (.modifyPte "page" 1 false)],
      .block "inner" false (.assertException .breakpoint none none) [
        .new "load" (.load (.to (some (.symbol "page")) 4096))]]]

theorem nestedWork_keeps_order : ∃ out t,
    expandAll nestedWork (standardContext .rv64) (.start {}) = .ok out t ∧
    partsAll out = out ∧ (out.map id).Nodup ∧
    ["first", "outer", "read", "code", "inner", "load"].Sublist (out.map id) ∧
    ∀ i ∈ out.map id, i ∈ lasting nestedWork ∨
      t.ids.Given i ∧ ¬ (State.start {}).ids.Given i := by
  have hok : ((expandAll nestedWork).result? (standardContext .rv64) (.start {})).isSome := by
    decide +kernel
  obtain ⟨out, hout⟩ := Option.isSome_iff_exists.1 hok
  obtain ⟨t, hrun⟩ := Lower.result?_eq_some.1 hout
  have hletters : ∀ a ∈ partsAll nestedWork, ∃ front last,
      a.id.toList = front ++ [last] ∧ ¬ last.isDigit := by
    intro a ha
    have hlast : ∀ a ∈ partsAll nestedWork, a.id.toList.getLast?.any (!·.isDigit) := by decide
    obtain ⟨last, hlast, hdigit⟩ := (Option.any_eq_true _ _).1 (hlast a ha)
    obtain ⟨front, hfront⟩ := List.getLast?_eq_some_iff.1 hlast
    exact ⟨front, last, hfront, by simpa using hdigit⟩
  have hunassigned : ∀ a ∈ partsAll nestedWork, (State.start {}).ids.Unassigned a.id := by
    intro a ha
    obtain ⟨front, last, hsplit, hdigit⟩ := hletters a ha
    exact (FreshIds.settled_of_not_spelled _ (FreshIds.not_spelled hsplit hdigit)).unassigned
  exact ⟨out, t, hrun, expandAll_keeps_order (by decide) (by decide) hunassigned hrun⟩

end Action
end PlanLowering
