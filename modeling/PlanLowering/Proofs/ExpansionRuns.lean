import PlanLowering.Proofs.FaultLabels

/-!
# Runs of expansion

Expansion takes the actions of a list in turn, and goes down into what an action is replaced by
before it takes the next one. Nothing in that recursion bounds it. It ends because an action costs
more than what it is replaced by, and what comes of a list is not expanded any further.
-/

namespace PlanLowering

open PlanLowering.Action

/-- What becomes of a list: expanded actions, or an error. -/
abbrev ExpansionOutcome := EStateM.Result LoweringError State (List Action)

/-- Actions that are done stand in front of what becomes of the others. -/
def ExpansionOutcome.behind (first : List Action) : ExpansionOutcome → ExpansionOutcome
  | .ok more t => .ok (first ++ more) t
  | .error e t => .error e t

/-- A run of expansion that comes to an end, without a bound on it. It counts the actions that it
takes, those inside of replacements included. -/
inductive ExpansionRun (context : Context) :
    Nat → List Action → State → ExpansionOutcome → Prop where
  | done {s} : ExpansionRun context 0 [] s (.ok [] s)
  | failed {a rest s e t} (ha : a.expand context s = .error e t) :
      ExpansionRun context 1 (a :: rest) s (.error (.expansion a.describe e) t)
  | alone {a b rest s t n r} (ha : a.expand context s = .ok (.alone b) t)
      (hrest : ExpansionRun context n rest t r) :
      ExpansionRun context (n + 1) (a :: rest) s (ExpansionOutcome.behind [b] r)
  | spliced {a actions rest first s t u m n r} (ha : a.expand context s = .ok (.spliced actions) t)
      (hactions : ExpansionRun context m actions t (.ok first u))
      (hrest : ExpansionRun context n rest u r) :
      ExpansionRun context (m + n + 1) (a :: rest) s (ExpansionOutcome.behind first r)
  | stuck {a actions rest s t e u m} (ha : a.expand context s = .ok (.spliced actions) t)
      (hactions : ExpansionRun context m actions t (.error e u)) :
      ExpansionRun context (m + 1) (a :: rest) s (.error e u)

variable {context : Context} {s t : State} {a b : Action} {actions rest xs ys out : List Action}

section Turns

/-- Beyond what the list costs, turns play no part in the outcome, be it an error or not. -/
theorem expandWithin_turns {m n : Nat} (hm : costs actions ≤ m) (hn : costs actions ≤ n) :
    expandWithin m actions context s = expandWithin n actions context s := by
  induction m generalizing n actions s with
  | zero =>
    cases actions with
    | nil => cases n <;> rfl
    | cons a rest =>
      have hpos := cost_pos a
      rw [costs_cons] at hm
      omega
  | succ m ih =>
    cases actions with
    | nil => cases n <;> rfl
    | cons a rest =>
      have hpos := cost_pos a
      rw [costs_cons] at hm hn
      obtain ⟨n, rfl⟩ : ∃ k, n = k + 1 := ⟨n - 1, by omega⟩
      simp only [expandWithin, bind, ReaderT.bind, EStateM.bind, Lower.expanding]
      cases he : a.expand context s with
      | error e t => rfl
      | ok e t =>
        have hyields := expand_yields he
        cases e with
        | alone b =>
          have hrest : expandWithin m rest context t = expandWithin n rest context t :=
            ih (by omega) (by omega)
          simp only [ReaderT.bind, bind, EStateM.bind, hrest]
        | spliced actions =>
          have hlt := hyields.cheaper actions rfl
          have hm' : costs (actions ++ rest) ≤ m := by rw [costs_append]; omega
          have hn' : costs (actions ++ rest) ≤ n := by rw [costs_append]; omega
          exact ih hm' hn'

theorem expandAll_of_failed {e : LoweringError} (ha : a.expand context s = .error e t) :
    expandAll (a :: rest) context s = .error (.expansion a.describe e) t := by
  have hpos := cost_pos a
  obtain ⟨n, hn⟩ : ∃ n, costs (a :: rest) = n + 1 := ⟨costs (a :: rest) - 1, by simp; omega⟩
  simp only [expandAll, hn, expandWithin, bind, ReaderT.bind, EStateM.bind, Lower.expanding, ha]

theorem expandAll_of_alone (ha : a.expand context s = .ok (.alone b) t) :
    expandAll (a :: rest) context s = ExpansionOutcome.behind [b] (expandAll rest context t) := by
  have hpos := cost_pos a
  obtain ⟨n, hn⟩ : ∃ n, costs (a :: rest) = n + 1 := ⟨costs (a :: rest) - 1, by simp; omega⟩
  have hcost : costs rest ≤ n := by rw [costs_cons] at hn; omega
  simp only [expandAll, hn, expandWithin, bind, ReaderT.bind, EStateM.bind, Lower.expanding, ha]
  rw [expandWithin_turns hcost (Nat.le_refl _)]
  cases expandWithin (costs rest) rest context t <;> rfl

theorem expandAll_of_spliced (ha : a.expand context s = .ok (.spliced actions) t) :
    expandAll (a :: rest) context s = expandAll (actions ++ rest) context t := by
  have hlt := (expand_yields ha).cheaper actions rfl
  obtain ⟨n, hn⟩ : ∃ n, costs (a :: rest) = n + 1 := ⟨costs (a :: rest) - 1, by simp; omega⟩
  have hcost : costs (actions ++ rest) ≤ n := by rw [costs_cons] at hn; rw [costs_append]; omega
  simp only [expandAll, hn, expandWithin, bind, ReaderT.bind, EStateM.bind, Lower.expanding, ha]
  exact expandWithin_turns hcost (Nat.le_refl _)

end Turns

/-- The halves of a list are expanded one behind the other, unless the first one fails. -/
theorem expandAll_halves (xs ys : List Action) (s : State) :
    expandAll (xs ++ ys) context s =
      match expandAll xs context s with
      | .ok first t => ExpansionOutcome.behind first (expandAll ys context t)
      | .error e t => .error e t := by
  induction hcost : costs xs using Nat.strong_induction_on generalizing xs s with
  | _ cost ih =>
    cases xs with
    | nil =>
      show expandAll ys context s = ExpansionOutcome.behind [] (expandAll ys context s)
      cases expandAll ys context s <;> rfl
    | cons a rest =>
      have hpos := cost_pos a
      rw [costs_cons] at hcost
      rw [List.cons_append]
      cases ha : a.expand context s with
      | error e t => rw [expandAll_of_failed ha, expandAll_of_failed ha]
      | ok e t =>
        cases e with
        | alone b =>
          rw [expandAll_of_alone ha, expandAll_of_alone ha, ih (costs rest) (by omega) rest t rfl]
          cases expandAll rest context t with
          | error e u => rfl
          | ok first u =>
            dsimp only [ExpansionOutcome.behind]
            cases expandAll ys context u <;> rfl
        | spliced actions =>
          have hlt := (expand_yields ha).cheaper actions rfl
          have hless : costs (actions ++ rest) < cost := by rw [costs_append]; omega
          rw [expandAll_of_spliced ha, expandAll_of_spliced ha, ← List.append_assoc]
          exact ih _ hless _ t rfl

/-- Each action that a run takes costs something, so a list that costs little is done soon. -/
theorem expandAll_run (actions : List Action) (s : State) : ∃ taken ≤ costs actions,
    ExpansionRun context taken actions s (expandAll actions context s) := by
  induction hcost : costs actions using Nat.strong_induction_on generalizing actions s with
  | _ cost ih =>
    cases actions with
    | nil => exact ⟨0, Nat.zero_le _, .done⟩
    | cons a rest =>
      have hpos := cost_pos a
      rw [costs_cons] at hcost
      cases ha : a.expand context s with
      | error e t =>
        rw [expandAll_of_failed ha]
        exact ⟨1, by omega, .failed ha⟩
      | ok e t =>
        cases e with
        | alone b =>
          obtain ⟨n, hn, hrest⟩ := ih (costs rest) (by omega) rest t rfl
          rw [expandAll_of_alone ha]
          exact ⟨n + 1, by omega, .alone ha hrest⟩
        | spliced actions =>
          have hlt := (expand_yields ha).cheaper actions rfl
          obtain ⟨m, hm, hactions⟩ := ih (costs actions) (by omega) actions t rfl
          rw [expandAll_of_spliced ha, expandAll_halves]
          cases hfirst : expandAll actions context t with
          | error e u =>
            rw [hfirst] at hactions
            exact ⟨m + 1, by omega, .stuck ha hactions⟩
          | ok first u =>
            rw [hfirst] at hactions
            obtain ⟨n, hn, hrest⟩ := ih (costs rest) (by omega) rest u rfl
            exact ⟨m + n + 1, by omega, .spliced ha hactions hrest⟩

theorem expandAll_of_expanded (h : ∀ a ∈ out, a.isExpanded) :
    expandAll out context s = .ok out s := by
  rw [expandAll_ok]
  induction out with
  | nil => exact .done
  | cons a rest ih =>
    obtain ⟨ha, hrest⟩ := List.forall_mem_cons.1 h
    exact .kept ha (ih hrest)

/-- Every list is done after finitely many actions, whatever the draws are. Where that succeeds, all
actions are expanded, and another expansion changes neither them nor the state. -/
theorem expandAll_terminates (context : Context) (actions : List Action) (s : State) :
    (∃ taken ≤ costs actions,
      ExpansionRun context taken actions s (expandAll actions context s)) ∧
    ∀ out t, expandAll actions context s = .ok out t →
      (∀ a ∈ out, a.isExpanded) ∧
        ∀ context' s', expandAll out context' s' = .ok out s' := by
  refine ⟨expandAll_run actions s, fun out t h => ?_⟩
  have hexpanded := (expandAll_covers h).2
  exact ⟨hexpanded, fun _ _ => expandAll_of_expanded hexpanded⟩

theorem nestedFaults_terminates : ∃ out t,
    (∃ taken ≤ costs nestedFaults,
      ExpansionRun (standardContext .rv64) taken nestedFaults (.start {}) (.ok out t)) ∧
    (∀ a ∈ out, a.isExpanded) ∧ expandAll out (standardContext .rv64) t = .ok out t := by
  have hok : ((expandAll nestedFaults).result? (standardContext .rv64) (.start {})).isSome := by
    decide +kernel
  obtain ⟨out, hout⟩ := Option.isSome_iff_exists.1 hok
  obtain ⟨t, hrun⟩ := Lower.result?_eq_some.1 hout
  obtain ⟨hterminates, hsettled⟩ :=
    expandAll_terminates (standardContext .rv64) nestedFaults (.start {})
  obtain ⟨hexpanded, hagain⟩ := hsettled out t hrun
  exact ⟨out, t, hrun ▸ hterminates, hexpanded, hagain _ _⟩

end PlanLowering
