import PlanLowering.Proofs.Expanded

/-!
# Lists that are worked off

Expansion works a list off to its end: each turn makes it cheaper, so the turns that it is given
suffice, and how many these are plays no part in what comes of it. What holds of one expansion
holds of a list by induction on how it is worked off.
-/

namespace PlanLowering

variable {context : Context} {s t u : State} {actions out xs ys : List Action} {id : Id} {op : Op}
variable {e : Expansion} {a : Action}

namespace Action

/-- A list is worked off from its front: an action that was expanded before joins the output, any other is
replaced by what it expands to. -/
inductive Worked (context : Context) : List Action → State → List Action → State → Prop where
  | done {s : State} : Worked context [] s [] s
  | kept {a : Action} {rest more : List Action} {s t : State} (ha : a.isExpanded)
      (hrest : Worked context rest s more t) : Worked context (a :: rest) s (a :: more) t
  | next {a : Action} {rest out : List Action} {e : Expansion} {s t u : State}
      (ha : a.isExpanded = false) (he : a.expand context s = .ok e t)
      (hrest : Worked context (e.actions ++ rest) t out u) : Worked context (a :: rest) s out u

theorem expandWithin_worked {turns : Nat} (hcost : costs actions ≤ turns)
    (h : expandWithin turns actions context s = .ok out t) : Worked context actions s out t := by
  induction turns generalizing actions s out with
  | zero =>
    rw [expandWithin, Lower.pure_ok] at h
    obtain ⟨rfl, rfl⟩ := h
    cases actions with
    | nil => exact .done
    | cons a rest =>
      have hpos := cost_pos a
      rw [costs_cons] at hcost
      omega
  | succ turns ih =>
    cases actions with
    | nil =>
      rw [expandWithin, Lower.pure_ok] at h
      obtain ⟨rfl, rfl⟩ := h
      exact .done
    | cons a rest =>
      rw [costs_cons] at hcost
      have hpos := cost_pos a
      rw [expandWithin] at h
      obtain ⟨e, next, he, h⟩ := Lower.bind_ok.1 h
      rw [Lower.expanding_ok] at he
      have hyields := expand_yields he
      cases e with
      | alone b =>
        simp only [Lower.bind_ok, Lower.pure_ok] at h
        obtain ⟨more, _, hmore, rfl, rfl⟩ := h
        have hrest := Worked.kept (hyields.closed b rfl) (ih (by omega) hmore)
        cases ha : a.isExpanded with
        | true =>
          obtain ⟨hsame, rfl⟩ := expand_of_expanded ha he
          cases hsame
          exact hrest
        | false => exact .next ha he hrest
      | spliced more =>
        have hlt := hyields.cheaper more rfl
        cases ha : a.isExpanded with
        | true => cases (expand_of_expanded ha he).1
        | false => exact .next ha he (ih (by rw [Expansion.actions, costs_append]; omega) h)

theorem Worked.expandWithin (h : Worked context actions s out t) {turns : Nat}
    (hcost : costs actions ≤ turns) : PlanLowering.expandWithin turns actions context s = .ok out t := by
  induction h generalizing turns with
  | done => cases turns <;> simp [PlanLowering.expandWithin]
  | @kept a rest more s t ha _ ih =>
    rw [costs_cons] at hcost
    have hpos := cost_pos a
    obtain ⟨turns, rfl⟩ : ∃ n, turns = n + 1 := ⟨turns - 1, by omega⟩
    simp only [PlanLowering.expandWithin, Lower.bind_ok, Lower.expanding_ok]
    refine ⟨_, _, expand_expanded ha, ?_⟩
    simp only [Lower.bind_ok, Lower.pure_ok]
    exact ⟨more, t, ih (by omega), rfl, rfl⟩
  | @next a rest out e s t u ha he _ ih =>
    rw [costs_cons] at hcost
    have hpos := cost_pos a
    have hyields := expand_yields he
    obtain ⟨turns, rfl⟩ : ∃ n, turns = n + 1 := ⟨turns - 1, by omega⟩
    simp only [PlanLowering.expandWithin, Lower.bind_ok, Lower.expanding_ok]
    refine ⟨e, t, he, ?_⟩
    cases e with
    | spliced more =>
      have hlt := hyields.cheaper more rfl
      exact ih (by rw [Expansion.actions, costs_append]; omega)
    | alone b =>
      have hb := hyields.closed b rfl
      have hrun := @ih (turns + 1) (by simp [Expansion.actions, cost_of_expanded hb]; omega)
      simp only [Expansion.actions, List.singleton_append, PlanLowering.expandWithin, Lower.bind_ok,
        Lower.expanding_ok] at hrun
      obtain ⟨e', next, he', hrun⟩ := hrun
      obtain ⟨rfl, rfl⟩ := expand_of_expanded hb he'
      exact hrun

theorem expandAll_ok : expandAll actions context s = .ok out t ↔ Worked context actions s out t :=
  ⟨expandWithin_worked (Nat.le_refl _), fun h => h.expandWithin (Nat.le_refl _)⟩

namespace Worked

theorem append (h : Worked context actions s out t) {more out' : List Action}
    (h' : Worked context more t out' u) : Worked context (actions ++ more) s (out ++ out') u := by
  induction h with
  | done => exact h'
  | kept ha _ ih => exact .kept ha (ih h')
  | next ha he _ ih => exact .next ha he (by simpa using ih h')

theorem of_append (h : Worked context (xs ++ ys) s out u) : ∃ first t second,
    Worked context xs s first t ∧ Worked context ys t second u ∧ out = first ++ second := by
  generalize hsplit : xs ++ ys = actions at h
  induction h generalizing xs with
  | done =>
    obtain ⟨rfl, rfl⟩ := List.append_eq_nil_iff.1 hsplit
    exact ⟨[], _, [], .done, .done, rfl⟩
  | @kept a rest more s t ha hrest ih =>
    cases xs with
    | nil =>
      rw [List.nil_append] at hsplit
      subst hsplit
      exact ⟨[], s, _, .done, .kept ha hrest, rfl⟩
    | cons b xs =>
      obtain ⟨rfl, hrest⟩ := List.cons.inj hsplit
      obtain ⟨first, _, second, hfirst, hsecond, rfl⟩ := ih hrest
      exact ⟨b :: first, _, second, .kept ha hfirst, hsecond, rfl⟩
  | @next a rest out e s t u ha he hrest ih =>
    cases xs with
    | nil =>
      rw [List.nil_append] at hsplit
      subst hsplit
      exact ⟨[], s, _, .done, .next ha he hrest, rfl⟩
    | cons b xs =>
      obtain ⟨rfl, hrest⟩ := List.cons.inj hsplit
      have hspliced : (e.actions ++ xs) ++ ys = e.actions ++ rest := by
        rw [List.append_assoc, ← hrest]
        rfl
      obtain ⟨first, _, second, hfirst, hsecond, rfl⟩ := ih hspliced
      exact ⟨first, _, second, .next ha he hfirst, hsecond, rfl⟩

theorem of_expanded (ha : a.isExpanded) (h : Worked context [a] s out t) : out = [a] := by
  cases h with
  | kept _ hrest =>
    cases hrest
    rfl
  | next hnew => rw [ha] at hnew; cases hnew

theorem of_new (ha : a.isExpanded = false) (h : Worked context [a] s out u) :
    ∃ e t, a.expand context s = .ok e t ∧ Worked context e.actions t out u := by
  cases h with
  | kept hold => rw [ha] at hold; cases hold
  | next _ he hrest => exact ⟨_, _, he, by simpa using hrest⟩

theorem of_alone (hop : ∀ id, op.expand id = pure (.alone (.simple id true op)))
    (h : Worked context [new id op] s out t) : out = [.simple id true op] := by
  obtain ⟨e, _, he, hrest⟩ := h.of_new rfl
  rw [new, expand, hop, Lower.pure_ok] at he
  obtain ⟨rfl, rfl⟩ := he
  exact hrest.of_expanded rfl

theorem covers (h : Worked context actions s out t) : Covers actions out := by
  induction h with
  | done => exact .refl _
  | kept _ _ ih => exact (Covers.refl [_]).append ih
  | next _ he _ ih => exact ((expand_yields he).covers.append (.refl _)).trans ih

theorem expanded (h : Worked context actions s out t) : ∀ a ∈ out, a.isExpanded := by
  induction h with
  | done => simp
  | kept ha _ ih => exact List.forall_mem_cons.2 ⟨ha, ih⟩
  | next _ _ _ ih => exact ih

end Worked

theorem expandAll_covers (h : expandAll actions context s = .ok out t) :
    Covers actions out ∧ ∀ a ∈ out, a.isExpanded :=
  ⟨(expandAll_ok.1 h).covers, (expandAll_ok.1 h).expanded⟩

end Action
end PlanLowering
