import Mathlib.Data.List.Forall2
import Mathlib.Logic.Function.Basic
import PlanLowering.Proofs.IdSupply
import PlanLowering.Proofs.OwnValues

/-!
# Two runs in lockstep

The second of two runs leaves out one number of a value, so that every value behind it is named one
up. The runs go in lockstep if both fail, or both succeed with related results and the second is
still one number ahead. Errors name ids and are not compared.
-/

namespace PlanLowering

/-- Both end in an error, or both succeed with related results in related states. -/
inductive EndAlike {ε σ α β : Type} (S : σ → σ → Prop) (R : α → β → Prop) :
    EStateM.Result ε σ α → EStateM.Result ε σ β → Prop where
  | ok {a b s t} (hresult : R a b) (hstate : S s t) : EndAlike S R (.ok a s) (.ok b t)
  | error {e e' s t} : EndAlike S R (.error e s) (.error e' t)

theorem EndAlike.mono {ε σ α β : Type} {S S' : σ → σ → Prop} {R R' : α → β → Prop}
    {x : EStateM.Result ε σ α} {y : EStateM.Result ε σ β} (h : EndAlike S R x y)
    (hS : ∀ s t, S s t → S' s t) (hR : ∀ a b, R a b → R' a b) : EndAlike S' R' x y := by
  cases h with
  | ok hresult hstate => exact .ok (hR _ _ hresult) (hS _ _ hstate)
  | error => exact .error

theorem EndAlike.ok_iff {ε σ α β : Type} {S : σ → σ → Prop} {R : α → β → Prop}
    {x : EStateM.Result ε σ α} {y : EStateM.Result ε σ β} (h : EndAlike S R x y) :
    (∃ a s, x = .ok a s) ↔ ∃ b t, y = .ok b t := by
  cases h with
  | ok => exact ⟨fun _ => ⟨_, _, rfl⟩, fun _ => ⟨_, _, rfl⟩⟩
  | error => simp

theorem EndAlike.of_ok {ε σ α β : Type} {S : σ → σ → Prop} {R : α → β → Prop} {a : α} {b : β}
    {s t : σ} {x : EStateM.Result ε σ α} {y : EStateM.Result ε σ β} (h : EndAlike S R x y)
    (hx : x = .ok a s) (hy : y = .ok b t) : R a b := by
  subst hx hy
  cases h with
  | ok hresult => exact hresult

theorem EndAlike.bind {ε σ α α' β β' : Type} {S : σ → σ → Prop} {R : α → α' → Prop}
    {T : β → β' → Prop} {p : EStateM ε σ α} {p' : EStateM ε σ α'} {k : α → EStateM ε σ β}
    {k' : α' → EStateM ε σ β'} {s s' : σ} (h : EndAlike S R (p s) (p' s'))
    (hk : ∀ a a' t t', R a a' → S t t' → EndAlike S T (k a t) (k' a' t')) :
    EndAlike S T ((p >>= k) s) ((p' >>= k') s') := by
  simp only [Bind.bind, EStateM.bind]
  generalize p s = first at h ⊢
  generalize p' s' = second at h ⊢
  cases h with
  | ok hresult hstate => exact hk _ _ _ _ hresult hstate
  | error => exact .error

namespace FreshIds

noncomputable def skip (m : Nat) : Id → Id :=
  Function.extend (fun n : Nat => s!"r{m + n}") (fun n : Nat => s!"r{m + n + 1}") id

variable {m n : Nat} {id id' : Id}

theorem value_spelled (n : Nat) : s!"r{n}" = IdRequest.value.stem ++ n.repr := by
  simp [IdRequest.stem, ToString.toString]

theorem skip_value (h : m ≤ n) : skip m s!"r{n}" = s!"r{n + 1}" := by
  have hinj : Function.Injective fun n : Nat => s!"r{m + n}" := fun k k' hsame => by
    have := value_injective hsame
    omega
  obtain ⟨k, rfl⟩ := Nat.le.dest h
  exact hinj.extend_apply _ _ k

theorem skip_of_ne (h : ∀ n, m ≤ n → id ≠ s!"r{n}") : skip m id = id := by
  refine Function.extend_apply' _ _ _ ?_
  rintro ⟨n, rfl⟩
  exact h (m + n) (by omega) rfl

theorem skip_spelled {r : IdRequest} {k : Nat} (hr : r ≠ .value) :
    skip m (r.stem ++ k.repr) = r.stem ++ k.repr :=
  skip_of_ne fun n _ hsame => by
    rw [value_spelled] at hsame
    exact hr (IdRequest.spelled_inj hsame).1

theorem skip_empty (m : Nat) : skip m "" = "" :=
  skip_of_ne fun n _ hsame => by
    have hfirst := congrArg String.toList hsame
    simp at hfirst

theorem skip_ne (m : Nat) (id : Id) : skip m id ≠ s!"r{m}" := by
  by_cases h : ∃ n, m ≤ n ∧ id = s!"r{n}"
  · obtain ⟨n, hn, rfl⟩ := h
    rw [skip_value hn]
    intro hsame
    have := value_injective hsame
    omega
  · rw [skip_of_ne fun n hn hsame => h ⟨n, hn, hsame⟩]
    exact fun hsame => h ⟨m, Nat.le_refl m, hsame⟩

theorem skip_injective (m : Nat) : Function.Injective (skip m) := by
  intro id id' hsame
  by_cases h : ∃ n, m ≤ n ∧ id = s!"r{n}" <;> by_cases h' : ∃ n, m ≤ n ∧ id' = s!"r{n}"
  · obtain ⟨n, hn, rfl⟩ := h
    obtain ⟨k, hk, rfl⟩ := h'
    rw [skip_value hn, skip_value hk] at hsame
    have := value_injective hsame
    rw [show n = k by omega]
  · obtain ⟨n, hn, rfl⟩ := h
    rw [skip_value hn, skip_of_ne fun n hn hsame => h' ⟨n, hn, hsame⟩] at hsame
    exact (h' ⟨n + 1, by omega, hsame.symm⟩).elim
  · obtain ⟨n, hn, rfl⟩ := h'
    rw [skip_value hn, skip_of_ne fun n hn hsame => h ⟨n, hn, hsame⟩] at hsame
    exact (h ⟨n + 1, by omega, hsame⟩).elim
  · rwa [skip_of_ne fun n hn hsame => h ⟨n, hn, hsame⟩,
      skip_of_ne fun n hn hsame => h' ⟨n, hn, hsame⟩] at hsame

theorem skip_eq_iff : skip m id = skip m id' ↔ id = id' := (skip_injective m).eq_iff

theorem skip_eq_empty : skip m id = "" ↔ id = "" := by
  have hiff := @skip_eq_iff m id ""
  rwa [skip_empty] at hiff

end FreshIds

namespace State

def skip (s : State) : State := { s with ids := { s.ids with values := s.ids.values + 1 } }

def Ahead (m : Nat) (s s' : State) : Prop := m ≤ s.ids.values ∧ s' = s.skip

end State

namespace Lower

variable {α α' β β' : Type} {m : Nat} {context : Context} {R : α → α' → Prop} {T : β → β' → Prop}

/-- The second run, one number ahead, goes along with the first. -/
def Lockstep (m : Nat) (context : Context) (R : α → α' → Prop) (p : Lower α) (p' : Lower α') : Prop :=
  ∀ s s', State.Ahead m s s' → EndAlike (State.Ahead m) R (p context s) (p' context s')

namespace Lockstep

theorem mono {R' : α → α' → Prop} {p : Lower α} {p' : Lower α'} (h : Lockstep m context R p p')
    (hR : ∀ a a', R a a' → R' a a') : Lockstep m context R' p p' := fun s s' hs =>
  (h s s' hs).mono (fun _ _ h => h) hR

theorem and_left {Q : α → Prop} {p : Lower α} {p' : Lower α'} (h : Lockstep m context R p p')
    (hQ : ∀ s a t, p context s = .ok a t → Q a) :
    Lockstep m context (fun a a' => R a a' ∧ Q a) p p' := by
  intro s s' hs
  have hend := h s s' hs
  have hfirst := hQ s
  generalize p context s = first at hend hfirst ⊢
  generalize p' context s' = second at hend ⊢
  cases hend with
  | ok hresult hstate => exact .ok ⟨hresult, hfirst _ _ rfl⟩ hstate
  | error => exact .error

theorem modify {g g' : State → State} (h : ∀ s s', State.Ahead m s s' → State.Ahead m (g s) (g' s')) :
    Lockstep m context (fun _ _ => True) (modify g : Lower Unit) (modify g' : Lower Unit) :=
  fun s s' hs => .ok trivial (h s s' hs)

theorem congr {p q : Lower α} {p' q' : Lower α'} (h : Lockstep m context R p p')
    (hq : ∀ s a t, q context s = .ok a t ↔ p context s = .ok a t)
    (hq' : ∀ s a t, q' context s = .ok a t ↔ p' context s = .ok a t) : Lockstep m context R q q' := by
  intro s s' hs
  have hend := h s s' hs
  have hfirst := hq s
  have hsecond := hq' s'
  generalize p context s = end₁ at hend hfirst
  generalize p' context s' = end₂ at hend hsecond
  cases hend with
  | ok hresult hstate =>
    rw [(hfirst _ _).2 rfl, (hsecond _ _).2 rfl]
    exact .ok hresult hstate
  | error =>
    cases hend₁ : q context s with
    | ok a t => cases (hfirst a t).1 hend₁
    | error =>
      cases hend₂ : q' context s' with
      | ok a t => cases (hsecond a t).1 hend₂
      | error => exact .error

theorem pure {a : α} {a' : α'} (h : R a a') :
    Lockstep m context R (pure a : Lower α) (pure a' : Lower α') :=
  fun _ _ hs => .ok h hs

theorem throw_bind (e e' : LoweringError) (k : α → Lower β) (k' : α' → Lower β') :
    Lockstep m context T ((throw e : Lower α) >>= k) ((throw e' : Lower α') >>= k') :=
  fun _ _ _ => .error

theorem throw (e e' : LoweringError) :
    Lockstep m context R (throw e : Lower α) (throw e' : Lower α') :=
  fun _ _ _ => .error

theorem bind {p : Lower α} {p' : Lower α'} {k : α → Lower β} {k' : α' → Lower β'}
    (h : Lockstep m context R p p') (hk : ∀ a a', R a a' → Lockstep m context T (k a) (k' a')) :
    Lockstep m context T (p >>= k) (p' >>= k') := fun s s' hs =>
  EndAlike.bind (h s s' hs) fun a a' t t' ha ht => hk a a' ha t t' ht

/-- The second run may do something more that changes no state. -/
theorem right_bind {q : Lower β} {k : β → Lower α'} {p : Lower α} {b : β}
    (hq : ∀ s, q context s = .ok b s) (h : Lockstep m context R p (k b)) :
    Lockstep m context R p (q >>= k) := by
  intro s s' hs
  have hrun : (q >>= k) context s' = k b context s' := by
    simp only [Bind.bind, ReaderT.bind, EStateM.bind, hq]
  rw [hrun]
  exact h s s' hs

theorem ite {c c' : Prop} [Decidable c] [Decidable c'] {p q : Lower α} {p' q' : Lower α'}
    (hc : c ↔ c') (hp : Lockstep m context R p p') (hq : Lockstep m context R q q') :
    Lockstep m context R (if c then p else q) (if c' then p' else q') := by
  by_cases h : c
  · rwa [if_pos h, if_pos (hc.1 h)]
  · rwa [if_neg h, if_neg (h ∘ hc.2)]

theorem get : Lockstep m context (State.Ahead m) (get : Lower State) (get : Lower State) :=
  fun _ _ hs => .ok hs hs

theorem read_bind {k : Context → Lower β} {k' : Context → Lower β'}
    (h : Lockstep m context T (k context) (k' context)) :
    Lockstep m context T ((read : Lower Context) >>= k) ((read : Lower Context) >>= k') :=
  h

theorem environment_bind {k : Environment → Lower β} {k' : Environment → Lower β'}
    (h : Lockstep m context T (k context.environment) (k' context.environment)) :
    Lockstep m context T (environment >>= k) (environment >>= k') :=
  h

theorem options_bind {k : Options → Lower β} {k' : Options → Lower β'}
    (h : Lockstep m context T (k context.options) (k' context.options)) :
    Lockstep m context T (options >>= k) (options >>= k') :=
  h

theorem ofExcept {x : Except LoweringError α} {x' : Except LoweringError α'}
    (h : Option.Rel R x.toOption x'.toOption) :
    Lockstep m context R (ofExcept x) (ofExcept x') := by
  intro s s' hs
  cases x with
  | error e =>
    cases x' with
    | error e' => exact .error
    | ok a' => cases h
  | ok a =>
    cases x' with
    | error e' => cases h
    | ok a' =>
      cases h with
      | some h => exact .ok h hs

theorem ofExcept_self (x : Except LoweringError α) :
    Lockstep m context Eq (Lower.ofExcept x) (Lower.ofExcept x) := by
  refine ofExcept ?_
  cases x with
  | error e => exact .none
  | ok a => exact .some rfl

theorem draw {d : Draw α} {d' : Draw α'}
    (h : ∀ source, EndAlike Eq R (d source) (d' source)) :
    Lockstep m context R (draw d) (draw d') := by
  rintro s s' ⟨hm, rfl⟩
  have hend := h s.random
  have hrandom : s.skip.random = s.random := rfl
  simp only [Lower.draw, hrandom]
  generalize d s.random = first at hend ⊢
  generalize d' s.random = second at hend ⊢
  cases hend with
  | ok hresult hstate =>
    cases hstate
    exact .ok hresult ⟨hm, rfl⟩
  | error => exact .error

theorem draw_self (d : Draw α) : Lockstep m context Eq (Lower.draw d) (Lower.draw d) := by
  refine draw fun source => ?_
  cases d source with
  | ok a next => exact .ok rfl rfl
  | error e next => exact .error

theorem freshValue :
    Lockstep m context (fun id id' => id' = FreshIds.skip m id) freshValue freshValue := by
  rintro s s' ⟨hm, rfl⟩
  exact .ok (FreshIds.skip_value hm).symm ⟨Nat.le_succ_of_le hm, rfl⟩

theorem freshLabel : Lockstep m context (fun id id' => id' = id ∧ FreshIds.skip m id = id)
    freshLabel freshLabel := by
  rintro s s' ⟨hm, rfl⟩
  refine .ok ⟨rfl, ?_⟩ ⟨hm, rfl⟩
  have hname := IdRequest.next_fst .label s.ids
  have hkept : FreshIds.skip m (IdRequest.label.next s.ids).1 = (IdRequest.label.next s.ids).1 := by
    rw [hname]
    exact FreshIds.skip_spelled (by decide)
  exact hkept

theorem freshNamed (stem : String) :
    Lockstep m context Eq (freshNamed stem) (freshNamed stem) := by
  rintro s s' ⟨hm, rfl⟩
  exact .ok rfl ⟨hm, rfl⟩

theorem freshDataPage : Lockstep m context Eq freshDataPage freshDataPage := by
  rintro s s' ⟨hm, rfl⟩
  exact .ok rfl ⟨hm, rfl⟩

theorem reserve (kind : PageKind) (id : Id) (spec : PageSpec) :
    Lockstep m context Eq (reserve kind id spec) (reserve kind id spec) := by
  rintro s s' ⟨hm, rfl⟩
  unfold Lower.reserve
  rw [show s.skip.pages = s.pages from rfl]
  cases s.pages.register kind id spec with
  | ok _ pages => exact .ok rfl ⟨hm, rfl⟩
  | error e pages => exact .error

theorem instruction (name : String) :
    Lockstep m context Eq (instruction name) (instruction name) :=
  read_bind (ofExcept_self _)

theorem targetLevel (level : UInt8) (recursive : Bool) :
    Lockstep m context Eq (targetLevel level recursive) (targetLevel level recursive) :=
  read_bind (ofExcept_self _)

theorem expanding {action action' : String} {p : Lower α} {p' : Lower α'}
    (h : Lockstep m context R p p') :
    Lockstep m context R (expanding action p) (expanding action' p') := by
  intro s s' hs
  have hend := h s s' hs
  unfold Lower.expanding
  generalize p context s = first at hend ⊢
  generalize p' context s' = second at hend ⊢
  cases hend with
  | ok hresult hstate => exact .ok hresult hstate
  | error => exact .error

end Lockstep

end Lower

/-- What stands on both sides of a place: nothing is glued to it from the left, and code that begins
there does not begin with an entry. -/
structure Seam {α : Type} (glued entry : α → Bool) (front back : List α) : Prop where
  loose : ∀ x ∈ front.getLast?, glued x = false
  entered : front = [] → ∀ x ∈ back.head?, entry x = false

theorem Seam.of_forall₂ {α β : Type} {glued entry : α → Bool} {glued' entry' : β → Bool}
    {front back : List α} {front' back' : List β} (h : Seam glued entry front back)
    (hfront : List.Forall₂ (fun x y => glued' y = glued x ∧ entry' y = entry x) front front')
    (hback : List.Forall₂ (fun x y => glued' y = glued x ∧ entry' y = entry x) back back') :
    Seam glued' entry' front' back' where
  loose := by
    have hlast := h.loose
    clear h hback
    induction hfront with
    | nil => exact nofun
    | @cons x y xs ys hxy hrest ih =>
      cases hrest with
      | nil =>
        rintro z ⟨⟩
        exact hxy.1.trans (hlast x rfl)
      | cons hsecond hmore => exact ih fun z hz => hlast z hz
  entered hnil := by
    subst hnil
    cases hfront
    cases hback with
    | nil => exact nofun
    | @cons x y _ _ hxy _ =>
      rintro z ⟨⟩
      exact hxy.2.trans (h.entered rfl x rfl)

inductive Noted {α β : Type} (R : α → β → Prop) (seam : List α → List α → Prop) (notes : List β) :
    List α → List β → Prop where
  | intro {front back front' back'} (hfront : List.Forall₂ R front front')
      (hback : List.Forall₂ R back back') (hseam : seam front back) :
      Noted R seam notes (front ++ back) (front' ++ notes ++ back')

theorem Noted.append_left {α β : Type} {R : α → β → Prop} {notes : List β} {xs xs' ys ys'}
    (h : Noted R (fun _ _ => True) notes ys ys') (hfront : List.Forall₂ R xs xs') :
    Noted R (fun _ _ => True) notes (xs ++ ys) (xs' ++ ys') := by
  cases h with
  | intro hfront' hback _ =>
    rw [← List.append_assoc, ← List.append_assoc, ← List.append_assoc]
    exact .intro (List.rel_append hfront hfront') hback trivial

theorem Noted.append_right {α β : Type} {R : α → β → Prop} {notes : List β} {xs xs' ys ys'}
    (h : Noted R (fun _ _ => True) notes xs xs') (hback : List.Forall₂ R ys ys') :
    Noted R (fun _ _ => True) notes (xs ++ ys) (xs' ++ ys') := by
  cases h with
  | intro hfront hback' _ =>
    rw [List.append_assoc, List.append_assoc]
    exact .intro hfront (List.rel_append hback' hback) trivial

theorem Lower.lockstep_noted {α β : Type} {m : Nat} {context : Context} {R : α → α → Prop}
    {T : β → β → Prop} {pass : List α → Lower (List β)} {seam : List α → List α → Prop}
    {seam' : List β → List β → Prop} {notes : List α} {made : List β} {xs ys : List α}
    (happend : ∀ xs ys s out t, pass (xs ++ ys) context s = .ok out t ↔ ∃ first u second,
      pass xs context s = .ok first u ∧ pass ys context u = .ok second t ∧ out = first ++ second)
    (hnotes : ∀ s, pass notes context s = .ok made s)
    (hpass : ∀ xs ys, List.Forall₂ R xs ys → Lockstep m context (List.Forall₂ T) (pass xs) (pass ys))
    (hseam : ∀ {xs ys first second s t u v}, seam xs ys → pass xs context s = .ok first t →
      pass ys context u = .ok second v → seam' first second)
    (h : Noted R seam notes xs ys) :
    Lockstep m context (Noted T seam' made) (pass xs) (pass ys) := by
  cases h with
  | @intro front back front' back' hfront hback hxs =>
    have hparts : Lockstep m context (Noted T seam' made)
        (do
          let first ← pass front
          let second ← pass back
          pure (first ++ second))
        (do
          let first ← pass front'
          let second ← pass back'
          pure (first ++ made ++ second)) := by
      refine ((hpass _ _ hfront).and_left (Q := fun first => ∃ s t, pass front context s = .ok first t)
        fun s a t ha => ⟨s, t, ha⟩).bind fun first first' hfirst => ?_
      refine ((hpass _ _ hback).and_left (Q := fun second => ∃ s t, pass back context s = .ok second t)
        fun s a t ha => ⟨s, t, ha⟩).bind fun second second' hsecond => .pure ?_
      obtain ⟨hfirst, _, _, hrun⟩ := hfirst
      obtain ⟨hsecond, _, _, hrun'⟩ := hsecond
      exact .intro hfirst hsecond (hseam hxs hrun hrun')
    refine hparts.congr (fun s out t => ?_) fun s out t => ?_
    · simp only [happend, bind_ok, pure_ok]
      grind
    · simp only [happend, hnotes, bind_ok, pure_ok]
      grind

end PlanLowering
