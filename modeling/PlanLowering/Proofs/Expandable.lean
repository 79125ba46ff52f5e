import PlanLowering.Proofs.WorkedLists
import PlanLowering.Proofs.Success

/-!
# When expansion succeeds

Expansion asks for three things: an access to a page finds it registered, code that is asserted to
trap holds something that can, and a table entry points to a level that a byte can count. What an
action expands to asks for nothing that the action did not.
-/

namespace PlanLowering

def Access.Anchored (pages : Id → Prop) (a : Access) : Prop :=
  match a.memory with
  | some (.page id) => pages id
  | some (.value _) => a.base ≠ none
  | _ => True

def Op.Anchored (pages : Id → Prop) : Op → Prop
  | .load access => access.Anchored pages
  | .store access _ => access.Anchored pages
  | _ => True

def Op.Harmless (op : Op) : Prop :=
  (∀ pages, op.Anchored pages) ∧ ∀ overflow, op.Counts overflow

namespace Action

def Anchored (pages : Id → Prop) : Action → Prop
  | .simple _ false op => op.Anchored pages
  | _ => True

/-- Code that is still asserted to trap has an instruction that may, and what is still to become an
entry has a level to point to. -/
def Expandable (overflow : Overflow) : Action → Prop
  | .block _ false (.assertException ..) code => code ≠ []
  | .simple _ false op => op.Counts overflow
  | _ => True

structure Ready (overflow : Overflow) (pages : Id → Prop) (a : Action) : Prop where
  anchored : a.Anchored pages
  expandable : a.Expandable overflow

def Harmless : Action → Prop
  | .simple _ expanded op => expanded = false → op.Harmless
  | .block .. => False

mutual

def pending : Action → List Action
  | .simple id expanded op => [.simple id expanded op]
  | .block id true owner code => [.block id true owner code]
  | .block id false owner code => pendingAll code ++ [.block id false owner code]

def pendingAll : List Action → List Action
  | [] => []
  | a :: rest => a.pending ++ pendingAll rest

end

theorem mem_pendingAll {actions : List Action} {b : Action} :
    b ∈ pendingAll actions ↔ ∃ a ∈ actions, b ∈ a.pending := by
  induction actions with
  | nil => simp [pendingAll]
  | cons a rest ih => simp [pendingAll, ih]

@[simp] theorem pendingAll_append (xs ys : List Action) :
    pendingAll (xs ++ ys) = pendingAll xs ++ pendingAll ys := by
  induction xs with
  | nil => rfl
  | cons a rest ih => simp [pendingAll, ih]

theorem mem_pending_self (a : Action) : a ∈ a.pending := by
  match a with
  | .simple .. | .block _ true _ _ | .block _ false _ _ => simp [pending]

theorem pending_of_expanded {a : Action} (h : a.isExpanded) : a.pending = [a] := by
  match a with
  | .simple .. | .block _ true _ _ => rfl

mutual

theorem pending_of_new {a : Action} (h : ∀ b ∈ a.postorder, b.isExpanded = false) :
    a.pending = a.postorder := by
  match a with
  | .simple .. => rfl
  | .block id true owner code => exact absurd (h _ (mem_postorder_self _)) (by simp [isExpanded])
  | .block id false owner code =>
    rw [postorder, List.forall_mem_append] at h
    rw [pending, postorder, pendingAll_of_new h.1]

/-- Where nothing was expanded yet, expansion comes to all of it. -/
theorem pendingAll_of_new {actions : List Action}
    (h : ∀ b ∈ postorderAll actions, b.isExpanded = false) :
    pendingAll actions = postorderAll actions := by
  match actions with
  | [] => rfl
  | a :: rest =>
    rw [postorderAll, List.forall_mem_append] at h
    rw [pendingAll, postorderAll, pending_of_new h.1, pendingAll_of_new h.2]

end

end Action

variable {context : Context} {s s' : State} {pages : Id → Prop} {id : Id}
variable {actions out : List Action}

open Lower

theorem Action.harmless_new {op : Op} (h : op.Harmless) : (Action.new id op).Harmless := fun _ => h

theorem Action.Harmless.ready {a : Action} (h : a.Harmless) :
    ∀ b ∈ a.pending, b.Ready context.overflow pages := by
  match a with
  | .simple _ true _ => exact List.forall_mem_singleton.2 ⟨trivial, trivial⟩
  | .simple _ false _ => exact List.forall_mem_singleton.2 ⟨(h rfl).1 pages, (h rfl).2 _⟩
  | .block .. => exact h.elim

theorem Action.ready_of_harmless (h : ∀ a ∈ actions, a.Harmless) :
    ∀ b ∈ pendingAll actions, b.Ready context.overflow pages := by
  intro b hb
  obtain ⟨a, ha, hb⟩ := mem_pendingAll.1 hb
  exact (h a ha).ready b hb

theorem Op.behind_harmless {op : Op} {before : List Action} (h : ∀ a ∈ before, a.Harmless) :
    ∀ a ∈ (Op.behind id op before).actions, a.Harmless := by
  have hown : (Action.simple id true op).Harmless := fun h => absurd h (by decide)
  rw [behind_actions]
  exact List.forall_mem_append.2 ⟨h, List.forall_mem_singleton.2 hown⟩

section Access

variable {flags : PageFlags} {access : Access}

theorem Access.reserveNew_succeeds (h : s.Offers pages) :
    (reserveNew flags).Succeeds context s fun _ s' => s'.Offers pages := by
  rw [reserveNew, succeeds_bind]
  refine succeeds_draw (Draw.width_total (by decide) (by decide)) fun size random _ => ?_
  simp only [freshDataPage, succeeds_bind, succeeds_fresh, succeeds_reserve, succeeds_pure]
  exact ⟨h.unknown_next (.page .data), (h.random random).register_next (.page .data) .data _⟩

theorem Access.anchor_succeeds (h : s.Offers pages) (ha : access.Anchored pages) :
    (access.anchor flags).Succeeds context s fun result s' =>
      s'.Offers pages ∧ (result.2 = none → result.1.base ≠ none) := by
  unfold anchor
  unfold Anchored at ha
  split at ha
  · next id hmemory =>
    have hlabel : s.pages.isLabel id := h.known id ha
    simp [hmemory, hlabel, h]
  · next hmemory => simp [hmemory, h, ha]
  · next hpage hvalue =>
    cases hmemory : access.memory with
    | none =>
      simp only [succeeds_bind, succeeds_pure]
      exact (reserveNew_succeeds h).mono fun page s' h' => ⟨h', by simp⟩
    | some address =>
      cases address with
      | page id => exact absurd hmemory (hpage id)
      | value id => exact absurd hmemory (hvalue id)
      | symbol name => simp [h]

theorem Access.widen_succeeds {address : List Action} (h : s.Offers pages)
    (hbase : access.base ≠ none) (haddress : ∀ a ∈ address, a.Harmless) :
    (access.widen address).Succeeds context s fun result s' =>
      s'.Offers pages ∧ ∀ a ∈ result.1, a.Harmless := by
  unfold widen
  obtain ⟨base, hbase⟩ := Option.ne_none_iff_exists'.1 hbase
  split
  · simpa [h] using haddress
  · simp only [hbase, freshValue, succeeds_bind, succeeds_fresh, succeeds_pure]
    refine ⟨(h.next .value).next .value, fun a ha => ?_⟩
    simp only [List.mem_append, List.mem_cons, List.not_mem_nil, or_false] at ha
    rcases ha with ha | rfl | rfl
    · exact haddress a ha
    · exact fun _ => ⟨fun _ => trivial, fun _ => trivial⟩
    · exact fun _ => ⟨fun _ => trivial, fun _ => trivial⟩

theorem Access.expand_succeeds (h : s.Offers pages) (ha : access.Anchored pages) :
    (access.expand flags).Succeeds context s fun result s' =>
      s'.Offers pages ∧ ∀ a ∈ result.1, a.Harmless := by
  rw [expand, succeeds_bind]
  refine (anchor_succeeds h ha).mono ?_
  rintro ⟨anchored, label⟩ s' ⟨h', hbase⟩
  cases label with
  | none => exact widen_succeeds h' (hbase rfl) (by simp)
  | some label =>
    simp only [freshValue, succeeds_bind, succeeds_fresh]
    exact widen_succeeds (h'.next .value) (by simp)
      (List.forall_mem_singleton.2 fun _ => ⟨fun _ => trivial, fun _ => trivial⟩)

end Access

section Op

theorem CsrWrite.expand_succeeds {w : CsrWrite} (h : s.Offers pages) :
    w.expand.Succeeds context s fun result s' =>
      s'.Offers pages ∧ ∀ a ∈ result.1, a.Harmless := by
  simp only [expand, succeeds_bind, succeeds_environment]
  cases hsrc : w.src with
  | some src =>
    simp only
    split
    · simp only [freshValue, succeeds_bind, succeeds_fresh, succeeds_pure]
      exact ⟨h.next .value, List.forall_mem_singleton.2 fun _ => ⟨fun _ => trivial, fun _ => trivial⟩⟩
    · simp [h]
  | none =>
    have hvalue : ∀ (value : Int) (s : State), s.Offers pages →
        (if 0 ≤ value ∧ value < 32 ∧ !context.environment.needsRuntime w.csr then
          return ([], { w with value := some value, src := none })
        else do
          let id ← freshValue
          let op := if context.environment.needsRuntime w.csr then Op.liToT2 (.value value)
            else Op.li (.value value)
          return ([Action.new id op], { w with value := some value, src := some id }) :
            Lower (List Action × CsrWrite)).Succeeds context s fun result s' =>
              s'.Offers pages ∧ ∀ a ∈ result.1, a.Harmless := by
      intro value s h
      split
      · simp [h]
      · simp only [freshValue, succeeds_bind, succeeds_fresh, succeeds_pure]
        refine ⟨h.next .value, List.forall_mem_singleton.2 fun _ => ?_⟩
        split <;> exact ⟨fun _ => trivial, fun _ => trivial⟩
    cases w.value with
    | none =>
      simp only [succeeds_bind]
      exact succeeds_draw Draw.word_total fun value random _ => hvalue value _ (h.random random)
    | some value =>
      simp only [succeeds_bind, succeeds_pure]
      exact hvalue value s h

theorem PteTarget.expandWrite_succeeds {t : PteTarget} (h : s.Offers pages) :
    t.expandWrite.Succeeds context s fun result s' =>
      s'.Offers pages ∧ ∀ a ∈ result.1, a.Harmless := by
  unfold expandWrite
  cases t.src with
  | some src =>
    simp only [freshValue, succeeds_bind, succeeds_pure, succeeds_fresh]
    exact ⟨h.next .value, List.forall_mem_singleton.2 fun _ => ⟨fun _ => trivial, fun _ => trivial⟩⟩
  | none =>
    simp only [freshValue, succeeds_bind, succeeds_pure, succeeds_fresh]
    refine succeeds_draw Draw.word_total fun value random _ => ?_
    exact ⟨(h.random random).next .value, List.forall_mem_singleton.2 fun _ => ⟨fun _ => trivial, fun _ => trivial⟩⟩

theorem Op.expand_succeeds {op : Op} (h : s.Offers pages) (hop : op.Anchored pages)
    (hcounts : op.Counts context.overflow) :
    (op.expand id).Succeeds context s fun e s' =>
      s'.Offers pages ∧ ∀ a ∈ e.actions, a.Harmless := by
  cases op with
  | load access =>
    simp only [expand, succeeds_bind, succeeds_pure]
    exact (access.expand_succeeds h hop).mono fun _ _ h' => ⟨h'.1, behind_harmless h'.2⟩
  | store access value =>
    simp only [expand, succeeds_bind, succeeds_pure]
    exact (access.expand_succeeds h hop).mono fun _ _ h' => ⟨h'.1, behind_harmless h'.2⟩
  | call target base =>
    simp only [expand, freshValue, succeeds_bind, succeeds_fresh, succeeds_pure]
    exact ⟨h.next .value, behind_harmless (List.forall_mem_singleton.2 fun _ => ⟨fun _ => trivial, fun _ => trivial⟩)⟩
  | csrRead csr direct =>
    simp only [expand, succeeds_bind, succeeds_environment]
    split
    · simp only [readThroughT2, freshValue, succeeds_bind, succeeds_fresh, succeeds_pure]
      refine ⟨h.next .value, ?_⟩
      simp [Expansion.actions, Action.Harmless, Action.new, Harmless, Anchored, Counts]
    · simpa using ⟨h, behind_harmless (by simp)⟩
  | csrWrite w =>
    simp only [expand, succeeds_bind, succeeds_pure]
    exact (w.expand_succeeds h).mono fun _ _ h' => ⟨h'.1, behind_harmless h'.2⟩
  | compare relation lhs rhs pass =>
    simp only [expand, expandCompare, freshNamed, freshValue, freshLabel, succeeds_bind,
      succeeds_fresh, succeeds_pure]
    refine ⟨((h.next (.named "pass_label")).next .value).next .label, ?_⟩
    simp [Expansion.actions, Action.Harmless, Action.new, Harmless, Anchored, Counts]
  | jumpToFail address =>
    simp only [expand, expandJumpToFail, freshValue, succeeds_bind, succeeds_options,
      succeeds_environment, succeeds_fresh, succeeds_pure]
    refine ⟨(h.next .value).next .value, ?_⟩
    simp [Expansion.actions, Action.Harmless, Action.new, Action.li, Harmless, Anchored, Counts,
      Access.Anchored, Access.to]
  | modifyPte page level recursive =>
    simp only [expand, expandModifyPte, freshValue, succeeds_bind, succeeds_environment,
      succeeds_targetLevel, succeeds_fresh, succeeds_pure]
    refine ⟨hcounts, (h.next .value).next .value, ?_⟩
    simp [Expansion.actions, Action.Harmless, Action.new, Action.li, Harmless, Anchored, Counts,
      Access.Anchored, Access.to]
  | readPte target =>
    simp only [expand, readThroughT2, freshValue, succeeds_bind, succeeds_fresh, succeeds_pure]
    refine ⟨h.next .value, ?_⟩
    simp [Expansion.actions, Action.Harmless, Action.new, Harmless, Anchored, Counts]
  | writePte target =>
    simp only [expand, succeeds_bind, succeeds_pure]
    exact (target.expandWrite_succeeds h).mono fun _ _ h' => ⟨h'.1, behind_harmless h'.2⟩
  | _ =>
    simp only [expand, succeeds_pure]
    exact ⟨h, behind_harmless (by simp)⟩

theorem Op.counts_of_expand {op : Op} {e : Expansion} (h : op.expand id context s = .ok e s') :
    op.Counts context.overflow := by
  cases expand_ok h with
  | alone halone => cases op <;> trivial
  | modifyPte hcounts => exact hcounts
  | _ => trivial

end Op

namespace Action

mutual

theorem expand_succeeds {s : State} {a : Action} (h : s.Offers pages)
    (ha : ∀ b ∈ a.pending, b.Ready context.overflow pages) : a.expand.Succeeds context s fun e s' =>
      s'.Offers pages ∧ ∀ b ∈ pendingAll e.actions, b.Ready context.overflow pages := by
  match a with
  | .simple id true op =>
    rw [expand, succeeds_pure]
    have hown : (Action.simple id true op).Harmless := fun h => absurd h (by decide)
    exact ⟨h, ready_of_harmless (List.forall_mem_singleton.2 hown)⟩
  | .simple id false op =>
    rw [expand]
    obtain ⟨hop, hcounts⟩ := ha _ (mem_pending_self _)
    exact (op.expand_succeeds h hop hcounts).mono fun _ _ h' => ⟨h'.1, ready_of_harmless h'.2⟩
  | .block id true owner code =>
    rw [expand, succeeds_pure]
    refine ⟨h, fun b hb => ha b ?_⟩
    simpa [Expansion.actions, pendingAll] using hb
  | .block id false (.codePage spec) code =>
    simp only [pending, List.forall_mem_append] at ha
    simp only [expand, freshValue, succeeds_bind, succeeds_fresh, succeeds_pure]
    refine ⟨h.next .value, ?_⟩
    have hret : (new (FreshIds.value s.ids).1 .ret).Harmless :=
      harmless_new ⟨fun _ => trivial, fun _ => trivial⟩
    simp only [Expansion.actions, List.cons_append, pendingAll, pendingAll_append,
      List.forall_mem_append]
    exact ⟨List.forall_mem_singleton.2 ⟨trivial, trivial⟩, ha.1, hret.ready, by simp⟩
  | .block id false (.assertException cause fault resume) code =>
    simp only [pending, List.forall_mem_append, List.forall_mem_singleton] at ha
    obtain ⟨hcode, hown⟩ := ha
    have hempty : code.isEmpty = false := List.isEmpty_eq_false_iff.2 hown.expandable
    simp only [expand, hempty, Bool.false_eq_true, if_false, freshNamed, freshValue, freshLabel,
      succeeds_bind, succeeds_fresh, succeeds_pure]
    refine (expandEach_succeeds h hcode).mono ?_
    rintro body s' ⟨h', hbody⟩
    refine ⟨((((h'.next (.named "fault_label")).next (.named "excp_return_label")).next
      .label).next .value).next .label, fun b hb => ?_⟩
    obtain ⟨c, hc, hb⟩ := mem_pendingAll.1 hb
    simp only [Expansion.actions, List.cons_append, List.mem_cons, List.mem_append,
      insertBeforeLast_mem, List.not_mem_nil, or_false] at hc
    rcases hc with rfl | (rfl | hc) | rfl | rfl
    · rw [List.mem_singleton.1 hb]
      exact ⟨trivial, trivial⟩
    · exact (harmless_new (by exact ⟨fun _ => trivial, fun _ => trivial⟩)).ready b hb
    · exact hbody b (mem_pendingAll.2 ⟨c, hc, hb⟩)
    · exact (harmless_new (by exact ⟨fun _ => trivial, fun _ => trivial⟩)).ready b hb
    · exact (harmless_new (by exact ⟨fun _ => trivial, fun _ => trivial⟩)).ready b hb

theorem expandEach_succeeds {s : State} {code : List Action} (h : s.Offers pages)
    (hcode : ∀ b ∈ pendingAll code, b.Ready context.overflow pages) :
    (expandEach code).Succeeds context s fun body s' =>
      s'.Offers pages ∧ ∀ b ∈ pendingAll body, b.Ready context.overflow pages := by
  match code with
  | [] =>
    rw [expandEach, succeeds_pure]
    exact ⟨h, by simp [pendingAll]⟩
  | a :: rest =>
    simp only [pendingAll, List.forall_mem_append] at hcode
    simp only [expandEach, succeeds_bind, succeeds_pure]
    refine (expand_succeeds h hcode.1).mono ?_
    rintro e s' ⟨h', he⟩
    refine (expandEach_succeeds h' hcode.2).mono ?_
    rintro more s'' ⟨h'', hmore⟩
    refine ⟨h'', ?_⟩
    rw [pendingAll_append, List.forall_mem_append]
    exact ⟨he, hmore⟩

end

theorem expandWithin_succeeds {turns : Nat} (h : s.Offers pages)
    (ha : ∀ b ∈ pendingAll actions, b.Ready context.overflow pages) :
    (expandWithin turns actions).Succeeds context s fun _ s' => s'.Offers pages := by
  induction turns generalizing actions s with
  | zero => simpa [expandWithin] using h
  | succ turns ih =>
    cases actions with
    | nil => simpa [expandWithin] using h
    | cons a rest =>
      simp only [pendingAll, List.forall_mem_append] at ha
      simp only [expandWithin, succeeds_bind, succeeds_expanding]
      refine (expand_succeeds h ha.1).mono ?_
      rintro e s' ⟨h', he⟩
      cases e with
      | alone b =>
        simp only [succeeds_bind, succeeds_pure]
        exact ih h' ha.2
      | spliced actions =>
        refine ih h' ?_
        rw [pendingAll_append, List.forall_mem_append]
        exact ⟨he, ha.2⟩

theorem expandAll_succeeds (h : s.Offers pages) (ha : ∀ b ∈ pendingAll actions, b.Ready context.overflow pages) :
    (expandAll actions).Succeeds context s fun _ s' => s'.Offers pages :=
  expandWithin_succeeds h ha

mutual

theorem expandable_of_expand {s s' : State} {a : Action} {e : Expansion}
    (h : a.expand context s = .ok e s') (he : ∀ b ∈ pendingAll e.actions, b.Expandable context.overflow) :
    ∀ b ∈ a.pending, b.Expandable context.overflow := by
  match a with
  | .simple id true op => exact List.forall_mem_singleton.2 trivial
  | .simple id false op => exact List.forall_mem_singleton.2 (Op.counts_of_expand h)
  | .block id true owner code =>
    obtain ⟨rfl, _⟩ := expand_of_expanded rfl h
    simpa [Expansion.actions, pendingAll] using he
  | .block id false (.codePage spec) code =>
    obtain ⟨ret, _, rfl⟩ := codePage_ok h
    simp only [Expansion.actions, List.cons_append, pendingAll, pendingAll_append,
      List.forall_mem_append] at he
    simp only [pending, List.forall_mem_append, List.forall_mem_singleton]
    exact ⟨he.2.1, trivial⟩
  | .block id false (.assertException cause old old') code =>
    obtain ⟨hcode, body, _, _, _, _, _, _, _, _, _, _, hbody, _, _, _, _, _, rfl⟩ := assertException_ok h
    have hinner : ∀ b ∈ pendingAll body, b.Expandable context.overflow := by
      intro b hb
      obtain ⟨c, hc, hb⟩ := mem_pendingAll.1 hb
      refine he b (mem_pendingAll.2 ⟨c, ?_, hb⟩)
      simp [Expansion.actions, insertBeforeLast_mem, hc]
    simp only [pending, List.forall_mem_append, List.forall_mem_singleton]
    exact ⟨expandable_of_expandEach hbody hinner, hcode⟩

theorem expandable_of_expandEach {s s' : State} {code body : List Action}
    (h : expandEach code context s = .ok body s') (hbody : ∀ b ∈ pendingAll body, b.Expandable context.overflow) :
    ∀ b ∈ pendingAll code, b.Expandable context.overflow := by
  match code with
  | [] => simp [pendingAll]
  | a :: rest =>
    obtain ⟨e, _, more, ha, hmore, rfl⟩ := expandEach_cons_ok h
    rw [pendingAll_append, List.forall_mem_append] at hbody
    rw [pendingAll, List.forall_mem_append]
    exact ⟨expandable_of_expand ha hbody.1, expandable_of_expandEach hmore hbody.2⟩

end

theorem expandable_of_expanded {b : Action} (h : b.isExpanded) :
    b.Expandable context.overflow := by
  match b with
  | .simple _ true _ => trivial
  | .block _ true _ _ => trivial

theorem Worked.expandable (h : Worked context actions s out s') : ∀ b ∈ pendingAll actions, b.Expandable context.overflow := by
  induction h with
  | done => simp [pendingAll]
  | kept ha _ ih =>
    rw [pendingAll, List.forall_mem_append, pending_of_expanded ha, List.forall_mem_singleton]
    exact ⟨expandable_of_expanded ha, ih⟩
  | next _ he _ ih =>
    rw [pendingAll_append, List.forall_mem_append] at ih
    rw [pendingAll, List.forall_mem_append]
    exact ⟨expandable_of_expand he ih.1, ih.2⟩

theorem expandable_of_expandAll (h : expandAll actions context s = .ok out s') :
    ∀ b ∈ pendingAll actions, b.Expandable context.overflow := (expandAll_ok.1 h).expandable

end Action
end PlanLowering
