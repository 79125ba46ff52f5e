import PlanLowering.Proofs.Lockstep
import PlanLowering.Proofs.ExpansionShapes

/-!
# Expansion in lockstep

Actions that differ in the numbers of their values expand to actions that differ in the numbers of
their values. Pages, symbols and labels keep their names. An expanded list falls into the parts that
its halves expand to.
-/

namespace PlanLowering

open Lower (Lockstep)

section Values

variable (f : Id → Id)

def Address.mapValue : Address → Address
  | .value id => .value (f id)
  | address => address

def Access.mapValues (a : Access) : Access :=
  { a with memory := a.memory.map (Address.mapValue f), base := a.base.map f }

def CsrWrite.mapValues (w : CsrWrite) : CsrWrite := { w with src := w.src.map f }

def PteTarget.mapValues (t : PteTarget) : PteTarget := { t with src := t.src.map f }

def Op.mapValues : Op → Op
  | .arithmetic a => .arithmetic { a with src1 := a.src1.map f, src2 := a.src2.map f }
  | .moveToT2 src => .moveToT2 (f src)
  | .load access => .load (access.mapValues f)
  | .store access value => .store (access.mapValues f) (value.map f)
  | .call target base => .call target (base.map f)
  | .csrWrite w => .csrWrite (w.mapValues f)
  | .compare relation lhs rhs pass => .compare relation (f lhs) (f rhs) pass
  | .jumpToFail address => .jumpToFail (address.map f)
  | .readPte target => .readPte (target.mapValues f)
  | .writePte target => .writePte (target.mapValues f)
  | op => op

end Values

/-- The same action under another number. A code page that was opened keeps its name. -/
inductive Action.Renumbered (f : Id → Id) : Action → Action → Prop where
  | simple (id : Id) (expanded : Bool) (op : Op) :
      Renumbered f (.simple id expanded op) (.simple (f id) expanded (op.mapValues f))
  | page {id : Id} (spec : PageSpec) (hid : f id = id) :
      Renumbered f (.block id true (.codePage spec) []) (.block id true (.codePage spec) [])
  | assertion (id : Id) (expanded : Bool) (cause : ExceptionCause) (fault resume : Option String)
      {code code' : List Action} (hcode : List.Forall₂ (Renumbered f) code code') :
      Renumbered f (.block id expanded (.assertException cause fault resume) code)
        (.block (f id) expanded (.assertException cause fault resume) code')

namespace Action

variable {f : Id → Id} {a a' : Action} {actions actions' : List Action}

theorem Renumbered.new (id : Id) (op : Op) :
    (Action.new id op).Renumbered f (.new (f id) (op.mapValues f)) := .simple id false op

theorem Renumbered.label {id : Id} (hid : f id = id) (name : String) (pointer : Bool) :
    (Action.new id (.label name pointer)).Renumbered f (.new id (.label name pointer)) := by
  have hnew := @Renumbered.new f id (.label name pointer)
  rwa [hid] at hnew

theorem cost_mapValues (op : Op) : (op.mapValues f).cost = op.cost := by
  cases op <;> rfl

mutual

theorem Renumbered.cost {a a' : Action} (h : a.Renumbered f a') : a'.cost = a.cost := by
  match a, h with
  | .simple id true op, .simple .. => rfl
  | .simple id false op, .simple .. => exact cost_mapValues op
  | .block _ true (.codePage spec) [], .page .. => rfl
  | .block id true (.assertException ..) code, .assertion .. => rfl
  | .block id false (.assertException ..) code, .assertion _ _ _ _ _ hcode =>
    rw [Action.cost, Action.cost, Renumbered.costs hcode]

theorem Renumbered.costs {actions actions' : List Action}
    (h : List.Forall₂ (Renumbered f) actions actions') : costs actions' = costs actions := by
  match actions, h with
  | [], .nil => rfl
  | a :: rest, .cons ha hrest => rw [costs_cons, costs_cons, Renumbered.cost ha, Renumbered.costs hrest]

end

end Action

inductive Expansion.Renumbered (f : Id → Id) : Expansion → Expansion → Prop where
  | alone {a a' : Action} (h : a.Renumbered f a') : Renumbered f (.alone a) (.alone a')
  | spliced {actions actions' : List Action} (h : List.Forall₂ (Action.Renumbered f) actions actions') :
      Renumbered f (.spliced actions) (.spliced actions')

theorem Expansion.Renumbered.actions {f : Id → Id} {e e' : Expansion} (h : e.Renumbered f e') :
    List.Forall₂ (Action.Renumbered f) e.actions e'.actions := by
  cases h with
  | alone h => exact .cons h .nil
  | spliced h => exact h

section Expand

variable {m : Nat} {context : Context} {id : Id} {op : Op}

def Prepares {α : Type} (f : Id → Id) (map : α → α) (x y : List Action × α) : Prop :=
  List.Forall₂ (Action.Renumbered f) x.1 y.1 ∧ y.2 = map x.2

namespace Access

theorem reserveNew_lockstep (flags : PageFlags) :
    Lockstep m context Eq (reserveNew flags) (reserveNew flags) := by
  refine (Lockstep.draw_self _).bind fun size _ hsize => ?_
  subst hsize
  refine Lockstep.freshDataPage.bind fun page _ hpage => ?_
  subst hpage
  exact (Lockstep.reserve _ _ _).bind fun _ _ _ => .pure rfl

theorem anchor_lockstep (flags : PageFlags) (a : Access) :
    Lockstep m context (fun x y => y = (x.1.mapValues (FreshIds.skip m), x.2)) (a.anchor flags)
      ((a.mapValues (FreshIds.skip m)).anchor flags) := by
  unfold anchor
  cases hmemory : a.memory with
  | none =>
    simp only [mapValues, hmemory, Option.map_none]
    refine (reserveNew_lockstep flags).bind fun page _ hpage => .pure ?_
    subst hpage
    rfl
  | some memory =>
    cases memory with
    | page id =>
      simp only [mapValues, hmemory, Option.map_some, Address.mapValue]
      refine Lockstep.get.bind fun s s' hs => ?_
      have hpages : s'.pages = s.pages := by rw [hs.2]; rfl
      rw [hpages]
      exact .ite Iff.rfl (.pure (by simp [hmemory, Address.mapValue])) (.throw _ _)
    | symbol name =>
      simp only [mapValues, hmemory, Option.map_some, Address.mapValue]
      exact .pure (by simp [hmemory, Address.mapValue])
    | value id =>
      simp only [mapValues, hmemory, Option.map_some, Address.mapValue]
      exact .pure (by simp [hmemory, Address.mapValue])

theorem widen_lockstep {address address' : List Action}
    (h : List.Forall₂ (Action.Renumbered (FreshIds.skip m)) address address') (a : Access) :
    Lockstep m context (Prepares (FreshIds.skip m) (mapValues (FreshIds.skip m))) (a.widen address)
      ((a.mapValues (FreshIds.skip m)).widen address') := by
  refine .ite Iff.rfl (.pure ⟨h, rfl⟩) ?_
  cases hbase : a.base with
  | none =>
    simp only [mapValues, hbase, Option.map_none]
    exact .throw _ _
  | some base =>
    simp only [mapValues, hbase, Option.map_some]
    refine Lockstep.freshValue.bind fun offset _ hoffset => ?_
    refine Lockstep.freshValue.bind fun sum _ hsum => .pure ?_
    subst hoffset hsum
    exact ⟨List.rel_append h (.cons (.new _ _) (.cons (.new _ _) .nil)), rfl⟩

theorem expand_lockstep (flags : PageFlags) (a : Access) :
    Lockstep m context (Prepares (FreshIds.skip m) (mapValues (FreshIds.skip m))) (a.expand flags)
      ((a.mapValues (FreshIds.skip m)).expand flags) := by
  refine (anchor_lockstep flags a).bind fun x y hxy => ?_
  obtain ⟨anchored, label⟩ := x
  subst hxy
  cases label with
  | none => exact widen_lockstep .nil anchored
  | some label =>
    refine Lockstep.freshValue.bind fun base _ hbase => ?_
    subst hbase
    exact widen_lockstep (.cons (.new _ _) .nil) { anchored with base := some base }

end Access

theorem CsrWrite.expand_lockstep (w : CsrWrite) :
    Lockstep m context (Prepares (FreshIds.skip m) (mapValues (FreshIds.skip m))) w.expand
      (w.mapValues (FreshIds.skip m)).expand := by
  refine Lockstep.environment_bind ?_
  cases hsrc : w.src with
  | some src =>
    simp only [mapValues, hsrc, Option.map_some]
    refine .ite Iff.rfl (Lockstep.freshValue.bind fun id _ hid => .pure ?_) (.pure ?_)
    · subst hid
      exact ⟨.cons (.new _ _) .nil, rfl⟩
    · exact ⟨.nil, by simp [mapValues, hsrc]⟩
  | none =>
    simp only [mapValues, hsrc, Option.map_none]
    have hpure (v : Int) : Lockstep m context Eq (pure v : Lower Int) (pure v) := .pure rfl
    cases w.value
    case' none => refine (Lockstep.draw_self Draw.word).bind ?_
    case' some v => refine (hpure v).bind ?_
    all_goals
      rintro value _ rfl
      refine .ite Iff.rfl (.pure ⟨.nil, rfl⟩) (Lockstep.freshValue.bind fun id _ hid => .pure ?_)
      subst hid
      refine ⟨.cons ?_ .nil, rfl⟩
      split <;> exact .new _ _

theorem PteTarget.expandWrite_lockstep (t : PteTarget) :
    Lockstep m context (Prepares (FreshIds.skip m) (mapValues (FreshIds.skip m))) t.expandWrite
      (t.mapValues (FreshIds.skip m)).expandWrite := by
  unfold expandWrite
  cases hsrc : t.src with
  | some src =>
    simp only [mapValues, hsrc, Option.map_some]
    have hmove : Lockstep m context (fun op op' => op' = op.mapValues (FreshIds.skip m))
        (pure (Op.moveToT2 src)) (pure (Op.moveToT2 (FreshIds.skip m src))) := .pure rfl
    refine hmove.bind fun op op' hop => Lockstep.freshValue.bind fun id _ hid => .pure ?_
    subst hid hop
    exact ⟨.cons (.new _ _) .nil, rfl⟩
  | none =>
    simp only [mapValues, hsrc, Option.map_none]
    refine (Lockstep.draw_self Draw.word).bind fun value _ hvalue => ?_
    subst hvalue
    have hload : Lockstep m context (fun op op' => op' = op.mapValues (FreshIds.skip m))
        (pure (Op.liToT2 (.value value))) (pure (Op.liToT2 (.value value))) := .pure rfl
    refine hload.bind fun op op' hop => Lockstep.freshValue.bind fun id _ hid => .pure ?_
    subst hid hop
    exact ⟨.cons (.new _ _) .nil, rfl⟩

namespace Op

theorem behind_renumbered {f : Id → Id} {before before' : List Action}
    (h : List.Forall₂ (Action.Renumbered f) before before') (id : Id) (op : Op) :
    (behind id op before).Renumbered f (behind (f id) (op.mapValues f) before') := by
  cases h with
  | nil => exact .alone (.simple id true op)
  | cons hfirst hrest =>
    exact .spliced (List.rel_append (.cons hfirst hrest) (.cons (.simple id true op) .nil))

theorem readThroughT2_lockstep (id : Id) (op : Op) :
    Lockstep m context (Expansion.Renumbered (FreshIds.skip m)) (readThroughT2 id op)
      (readThroughT2 (FreshIds.skip m id) (op.mapValues (FreshIds.skip m))) := by
  refine Lockstep.freshValue.bind fun read _ hread => .pure ?_
  subst hread
  exact .spliced (.cons (.simple _ _ _) (.cons (.new _ _) .nil))

theorem expandJumpToFail_lockstep (id : Id) :
    Lockstep m context (Expansion.Renumbered (FreshIds.skip m)) (expandJumpToFail id)
      (expandJumpToFail (FreshIds.skip m id)) := by
  refine Lockstep.options_bind ?_
  refine Lockstep.environment_bind ?_
  refine Lockstep.freshValue.bind fun address _ haddress => ?_
  refine Lockstep.freshValue.bind fun target _ htarget => .pure ?_
  subst haddress htarget
  exact .spliced (.cons (.new _ _) (.cons (.new _ _) (.cons (.simple _ _ _) .nil)))

theorem expandCompare_lockstep (id : Id) (relation : Relation) (lhs rhs : Id) :
    Lockstep m context (Expansion.Renumbered (FreshIds.skip m)) (expandCompare id relation lhs rhs)
      (expandCompare (FreshIds.skip m id) relation (FreshIds.skip m lhs) (FreshIds.skip m rhs)) := by
  refine (Lockstep.freshNamed _).bind fun pass _ hpass => ?_
  refine Lockstep.freshValue.bind fun fail _ hfail => ?_
  refine Lockstep.freshLabel.bind fun label _ hlabel => .pure ?_
  rw [hlabel.1]
  subst hpass hfail
  exact .spliced (.cons (.simple _ _ _) (.cons (.new _ _) (.cons (.label hlabel.2 _ _) .nil)))

theorem expandModifyPte_lockstep (page : Id) (level : UInt8) (recursive : Bool) :
    Lockstep m context (Expansion.Renumbered (FreshIds.skip m)) (expandModifyPte page level recursive)
      (expandModifyPte page level recursive) := by
  refine (Lockstep.targetLevel level recursive).bind fun target _ htarget => ?_
  refine Lockstep.environment_bind ?_
  refine Lockstep.freshValue.bind fun entry _ hentry => ?_
  refine Lockstep.freshValue.bind fun write _ hwrite => .pure ?_
  subst htarget hentry hwrite
  exact .spliced (.cons (.new _ _) (.cons (.new _ _) .nil))

theorem behind_lockstep {α : Type} {map : α → α} (id : Id) (f g : α → Op) {p p' : Lower (List Action × α)}
    (hmake : ∀ x, g (map x) = (f x).mapValues (FreshIds.skip m))
    (hp : Lockstep m context (Prepares (FreshIds.skip m) map) p p') :
    Lockstep m context (Expansion.Renumbered (FreshIds.skip m))
      (p >>= fun x => pure (behind id (f x.2) x.1))
      (p' >>= fun x => pure (behind (FreshIds.skip m id) (g x.2) x.1)) := by
  refine hp.bind fun x y hxy => .pure ?_
  rw [hxy.2, hmake]
  exact behind_renumbered hxy.1 id (f x.2)

theorem expand_lockstep (id : Id) (op : Op) :
    Lockstep m context (Expansion.Renumbered (FreshIds.skip m)) (op.expand id)
      ((op.mapValues (FreshIds.skip m)).expand (FreshIds.skip m id)) := by
  cases op with
  | load access =>
    exact behind_lockstep id load load (fun _ => rfl) (Access.expand_lockstep .read access)
  | store access value =>
    exact behind_lockstep id (store · value) (store · (value.map (FreshIds.skip m))) (fun _ => rfl)
      (Access.expand_lockstep .readWrite access)
  | call target base =>
    refine Lockstep.freshValue.bind fun base _ hbase => .pure ?_
    subst hbase
    exact behind_renumbered (.cons (.new _ _) .nil) id (.call target (some base))
  | csrRead csr direct =>
    refine Lockstep.environment_bind ?_
    exact .ite Iff.rfl (readThroughT2_lockstep id (.csrRead csr direct))
      (.pure (behind_renumbered .nil id (.csrRead csr direct)))
  | csrWrite w => exact behind_lockstep id csrWrite csrWrite (fun _ => rfl) w.expand_lockstep
  | compare relation lhs rhs pass => exact expandCompare_lockstep id relation lhs rhs
  | jumpToFail address => exact expandJumpToFail_lockstep id
  | readPte target => exact readThroughT2_lockstep id (.readPte target)
  | writePte target =>
    exact behind_lockstep id writePte writePte (fun _ => rfl) target.expandWrite_lockstep
  | modifyPte page level recursive => exact expandModifyPte_lockstep page level recursive
  | arithmetic a => exact .pure (behind_renumbered .nil id (.arithmetic a))
  | moveToT2 src => exact .pure (behind_renumbered .nil id (.moveToT2 src))
  | _ => exact .pure (behind_renumbered .nil id _)

end Op

theorem insertBeforeLast_rel {α β : Type} {R : α → β → Prop} {x : α} {y : β} {xs : List α}
    {ys : List β} (hxy : R x y) (h : List.Forall₂ R xs ys) :
    List.Forall₂ R (insertBeforeLast x xs) (insertBeforeLast y ys) := by
  induction h with
  | nil => exact .cons hxy .nil
  | cons hfirst hrest ih =>
    cases hrest with
    | nil => exact .cons hxy (.cons hfirst .nil)
    | cons hsecond hmore => exact .cons hfirst ih

namespace Action

mutual

theorem expand_lockstep {a a' : Action} (h : a.Renumbered (FreshIds.skip m) a') :
    Lockstep m context (Expansion.Renumbered (FreshIds.skip m)) a.expand a'.expand := by
  match a, h with
  | .simple id true op, .simple .. => exact .pure (.alone (.simple id true op))
  | .simple id false op, .simple .. => exact Op.expand_lockstep id op
  | .block id true (.codePage spec) [], .page _ hid => exact .pure (.alone (.page spec hid))
  | .block id true (.assertException ..) code, .assertion _ _ _ _ _ hcode =>
    exact .pure (.alone (.assertion id true _ _ _ hcode))
  | .block id false (.assertException cause old old') code, .assertion _ _ _ _ _ hcode =>
    rw [expand, expand]
    refine .ite (by cases hcode <;> simp) (.throw_bind _ _ _ _) ?_
    refine (expandEach_lockstep hcode).bind fun body body' hbody => ?_
    refine (Lockstep.freshNamed _).bind fun fault _ hfault => ?_
    refine (Lockstep.freshNamed _).bind fun resume _ hresume => ?_
    refine Lockstep.freshLabel.bind fun faultId _ hfaultId => ?_
    refine Lockstep.freshValue.bind fun fail _ hfail => ?_
    refine Lockstep.freshLabel.bind fun resumeId _ hresumeId => .pure (.spliced ?_)
    rw [hfaultId.1, hresumeId.1]
    subst hfault hfail hresume
    refine .cons (.assertion id true cause _ _ .nil) (List.rel_append ?_ ?_)
    · exact insertBeforeLast_rel (.label hfaultId.2 _ _) hbody
    · exact .cons (.new _ _) (.cons (.label hresumeId.2 _ _) .nil)

theorem expandEach_lockstep {actions actions' : List Action}
    (h : List.Forall₂ (Renumbered (FreshIds.skip m)) actions actions') :
    Lockstep m context (List.Forall₂ (Renumbered (FreshIds.skip m))) (expandEach actions)
      (expandEach actions') := by
  match actions, h with
  | [], .nil => exact .pure .nil
  | a :: rest, .cons ha hrest =>
    refine (expand_lockstep ha).bind fun e e' he => ?_
    exact (expandEach_lockstep hrest).bind fun _ _ hmore => .pure (List.rel_append he.actions hmore)

end

theorem expandWithin_lockstep {actions actions' : List Action} (turns : Nat)
    (h : List.Forall₂ (Renumbered (FreshIds.skip m)) actions actions') :
    Lockstep m context (List.Forall₂ (Renumbered (FreshIds.skip m))) (expandWithin turns actions)
      (expandWithin turns actions') := by
  induction turns generalizing actions actions' with
  | zero => exact .pure .nil
  | succ turns ih =>
    cases h with
    | nil => exact .pure .nil
    | cons ha hrest =>
      refine (Lockstep.expanding (expand_lockstep ha)).bind fun e e' he => ?_
      cases he with
      | alone hb => exact (ih hrest).bind fun _ _ hmore => .pure (.cons hb hmore)
      | spliced hactions => exact ih (List.rel_append hactions hrest)

theorem expandAll_lockstep {actions actions' : List Action}
    (h : List.Forall₂ (Renumbered (FreshIds.skip m)) actions actions') :
    Lockstep m context (List.Forall₂ (Renumbered (FreshIds.skip m))) (expandAll actions)
      (expandAll actions') := by
  rw [expandAll, expandAll, Renumbered.costs h]
  exact expandWithin_lockstep _ h

end Action

end Expand

namespace Action

def isPointerLabel : Action → Bool
  | .simple _ _ (.label _ pointer) => pointer
  | _ => false

def isLabel : Action → Bool
  | .simple _ _ op => op.mark?.isSome
  | .block _ _ (.codePage _) _ => true
  | _ => false

abbrev Seam : List Action → List Action → Prop := PlanLowering.Seam isPointerLabel isLabel

def notes (m : Nat) (expanded : Bool) (text : Option String) : List Action :=
  text.toList.map fun text => .simple s!"r{m}" expanded (.comment text)

variable {m : Nat} {context : Context} {s t u : State} {a : Action} {e : Expansion}
variable {actions out xs ys : List Action}

theorem isPointerLabel_simple {id : Id} {expanded : Bool} {op : Op} (h : op.mark? = none) :
    (Action.simple id expanded op).isPointerLabel = false := by
  cases op with
  | label name pointer => cases h
  | _ => rfl

theorem Helps.isLabel {b : Action} (h : ∃ i helper, b = .new i helper ∧ helper.Helps) :
    b.isLabel = false := by
  obtain ⟨i, helper, rfl, hhelps⟩ := h
  cases helper with
  | label name pointer => cases hhelps
  | _ => rfl

theorem Op.Expands.ends {env : Environment} {ids ids' : FreshIds} {id : Id} {op : Op}
    (h : op.Expands env ids ids' id actions) (hmark : op.mark? = none) :
    (∃ first rest, actions = first :: rest ∧ first.isLabel = false) ∧
      ∀ b ∈ actions.getLast?, b.isPointerLabel = false := by
  cases h with
  | @last _ op' before _ hprepared hbefore =>
    have hmark' : op'.mark? = none := hprepared.mark.trans hmark
    constructor
    · cases before with
      | nil => exact ⟨_, _, rfl, by simp [isLabel, hmark']⟩
      | cons first rest => exact ⟨_, _, rfl, Helps.isLabel (hbefore first List.mem_cons_self)⟩
    · intro b hb
      rw [List.getLast?_append_of_ne_nil _ (by simp)] at hb
      cases hb
      exact isPointerLabel_simple hmark'
  | fetched =>
    refine ⟨⟨_, _, rfl, by simp [isLabel, hmark]⟩, fun b hb => ?_⟩
    cases hb
    rfl
  | branched =>
    refine ⟨⟨_, _, rfl, rfl⟩, fun b hb => ?_⟩
    cases hb
    rfl
  | stored =>
    refine ⟨⟨_, _, rfl, rfl⟩, fun b hb => ?_⟩
    cases hb
    rfl

/-- An expansion begins with a label, or ends with one that is glued to what comes next, only if the
action is one. -/
theorem expand_ends (h : a.expand context s = .ok e t) :
    (∃ first rest, e.actions = first :: rest ∧ (a.isLabel = false → first.isLabel = false)) ∧
      (a.isPointerLabel = false → ∀ b ∈ e.actions.getLast?, b.isPointerLabel = false) := by
  have halone (hself : e = .alone a) :
      (∃ first rest, e.actions = first :: rest ∧ (a.isLabel = false → first.isLabel = false)) ∧
      (a.isPointerLabel = false → ∀ b ∈ e.actions.getLast?, b.isPointerLabel = false) := by
    subst hself
    exact ⟨⟨a, [], rfl, fun ha => ha⟩, fun ha b hb => (Option.some.inj hb) ▸ ha⟩
  cases hexpanded : a.isExpanded with
  | true => exact halone (expand_of_expanded hexpanded h).1
  | false =>
    cases a with
    | simple id expanded op =>
      cases hexpanded
      cases hmark : op.mark? with
      | some name =>
        cases op with
        | label name' pointer =>
          cases h
          exact ⟨⟨_, [], rfl, fun ha => ha⟩, fun ha b hb => (Option.some.inj hb) ▸ ha⟩
        | _ => cases hmark
      | none =>
        obtain ⟨⟨first, rest, hactions, hfirst⟩, hlast⟩ := Op.Expands.ends (Op.expand_expands h) hmark
        exact ⟨⟨first, rest, hactions, fun _ => hfirst⟩, fun _ => hlast⟩
    | block id expanded owner code =>
      cases hexpanded
      cases owner with
      | codePage spec =>
        obtain ⟨ret, hactions, -⟩ := expand_codePage h
        rw [hactions]
        refine ⟨⟨_, _, rfl, nofun⟩, fun _ b hb => ?_⟩
        rw [List.getLast?_append_of_ne_nil _ (by simp)] at hb
        cases hb
        rfl
      | assertException cause old old' =>
        obtain ⟨-, body, u, -, fault, resume, label, fail, label', -, -, hactions⟩ :=
          expand_assertException h
        rw [hactions]
        refine ⟨⟨_, _, rfl, fun _ => rfl⟩, fun _ b hb => ?_⟩
        rw [List.getLast?_append_of_ne_nil _ (by simp)] at hb
        cases hb
        rfl

namespace Worked

theorem eq_nil_iff (h : Worked context actions s out t) : out = [] ↔ actions = [] := by
  induction h with
  | done => rfl
  | kept => simp
  | next ha he _ ih =>
    obtain ⟨⟨first, rest, hactions, -⟩, -⟩ := expand_ends he
    simp [ih, hactions]

theorem loose (h : Worked context actions s out t)
    (hlast : ∀ a ∈ actions.getLast?, a.isPointerLabel = false) :
    ∀ a ∈ out.getLast?, a.isPointerLabel = false := by
  induction h with
  | done => exact hlast
  | @kept a rest more s t ha hrest ih =>
    rcases List.eq_nil_or_concat rest with rfl | ⟨front, last, rfl⟩
    · cases hrest
      exact hlast
    · have hmore : more ≠ [] := fun hnil => by simpa using hrest.eq_nil_iff.1 hnil
      rw [← List.singleton_append, List.getLast?_append_of_ne_nil _ hmore]
      refine ih fun b hb => hlast b ?_
      rwa [← List.singleton_append, List.getLast?_append_of_ne_nil _ (by simp)]
  | @next a rest out e s t u ha he hrest ih =>
    refine ih fun b hb => ?_
    rcases List.eq_nil_or_concat rest with rfl | ⟨front, last, rfl⟩
    · rw [List.append_nil] at hb
      exact (expand_ends he).2 (hlast a rfl) b hb
    · rw [List.getLast?_append_of_ne_nil _ (by simp)] at hb
      refine hlast b ?_
      rwa [← List.singleton_append, List.getLast?_append_of_ne_nil _ (by simp)]

theorem entered (h : Worked context actions s out t)
    (hfirst : ∀ a ∈ actions.head?, a.isLabel = false) : ∀ a ∈ out.head?, a.isLabel = false := by
  induction h with
  | done => exact hfirst
  | kept => exact hfirst
  | next ha he _ ih =>
    obtain ⟨⟨first, rest, hactions, hlabel⟩, -⟩ := expand_ends he
    refine ih fun b hb => ?_
    rw [hactions] at hb
    cases hb
    exact hlabel (hfirst _ rfl)

theorem seam {first second : List Action} {u v : State} (h : Seam xs ys)
    (hfirst : Worked context xs s first t) (hsecond : Worked context ys u second v) :
    Seam first second where
  loose := hfirst.loose h.loose
  entered hnil := hsecond.entered (h.entered (hfirst.eq_nil_iff.1 hnil))

end Worked

theorem expandAll_append : expandAll (xs ++ ys) context s = .ok out t ↔ ∃ first u second,
    expandAll xs context s = .ok first u ∧ expandAll ys context u = .ok second t ∧
      out = first ++ second := by
  simp only [expandAll_ok]
  constructor
  · exact Worked.of_append
  · rintro ⟨first, u, second, hfirst, hsecond, rfl⟩
    exact hfirst.append hsecond

theorem expandAll_notes (m : Nat) (text : Option String) (s : State) :
    expandAll (notes m false text) context s = .ok (notes m true text) s := by
  cases text <;> rfl

theorem expandAll_noted {text : Option String}
    (h : Noted (Renumbered (FreshIds.skip m)) Seam (notes m false text) xs ys) :
    Lockstep m context (Noted (Renumbered (FreshIds.skip m)) Seam (notes m true text)) (expandAll xs)
      (expandAll ys) :=
  Lower.lockstep_noted (fun _ _ _ _ _ => expandAll_append) (expandAll_notes m text)
    (fun _ _ => expandAll_lockstep)
    (fun hseam hfirst hsecond => Worked.seam hseam (expandAll_ok.1 hfirst) (expandAll_ok.1 hsecond)) h

end Action
end PlanLowering
