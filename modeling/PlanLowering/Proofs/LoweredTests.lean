import PlanLowering.Proofs.Calls
import PlanLowering.Proofs.FrameCode
import PlanLowering.Proofs.PlainCode

/-!
# Tests that are lowered one after another

Each test takes a stack page under its own name, and no name of a page is ever handed out to anything
else. The pages of a batch stay registered, so each test finds in its turn what it relies on.
-/

namespace PlanLowering

variable {context : Context} {s s' : State} {pages pages' : Id → Prop} {id : Id} {n m : Nat}
variable {actions : List Action} {a : Action} {test : TestCase} {tests : List TestCase}

section Names

open FreshIds (Spelled)

theorem FreshIds.not_spelled {front : List Char} {last : Char} (hid : id.toList = front ++ [last])
    (hlast : ¬ last.isDigit) : ¬ Spelled id := by
  rintro ⟨r, k, rfl⟩
  have hdigit : ∀ c ∈ k.repr.toList, c.isDigit := fun c hc =>
    Nat.isDigit_of_mem_toDigits (by decide) (by decide) (Nat.toList_repr ▸ hc)
  rcases List.eq_nil_or_concat k.repr.toList with hnil | ⟨init, c, hdigits⟩
  · rw [Nat.toList_repr] at hnil
    exact Nat.toDigits_ne_nil hnil
  · rw [String.toList_append, hdigits, List.concat_eq_append, ← List.append_assoc] at hid
    obtain rfl := List.singleton_inj.1 (List.append_inj_right' hid rfl)
    exact hlast (hdigit c (by simp [hdigits]))

def TestCase.stack (test : TestCase) : Id := s!"{test.name}_stack"

theorem TestCase.stack_injective {test test' : TestCase} (h : test.stack = test'.stack) :
    test.name = test'.name := by
  simpa [stack, ToString.toString] using h

theorem TestCase.toList_stack (test : TestCase) :
    test.stack.toList = (test.name ++ "_stac").toList ++ ['k'] := by
  simp [stack, ToString.toString]

theorem TestCase.stack_not_spelled (test : TestCase) : ¬ Spelled test.stack :=
  FreshIds.not_spelled test.toList_stack (by decide)

end Names

section Kept

def State.PagesFixed (s t : State) : Prop :=
  ∀ id page, s.pages.entries.get? id = some page → t.pages.entries.get? id = some page

instance : Lower.Frame State.PagesFixed where
  refl _ _ _ h := h
  trans _ _ _ hst htu id page h := htu id page (hst id page h)
  random _ _ _ _ h := h
  ids _ _ _ _ _ h := h
  pages s kind id spec hnew key page hkey := by
    have hne : key ≠ id := by
      rintro rfl
      exact hnew (PageRegistry.isLabel_iff.2 ⟨page, hkey⟩)
    rw [PageRegistry.get?_add hnew, if_neg hne, hkey]

theorem Access.Anchored.mono {access : Access} (h : access.Anchored pages)
    (hsub : ∀ id, pages id → pages' id) : access.Anchored pages' := by
  unfold Anchored at h ⊢
  split at h <;> simp_all

theorem Action.Ready.mono {overflow : Overflow} (h : a.Ready overflow pages)
    (hsub : ∀ id, pages id → pages' id) : a.Ready overflow pages' := by
  refine ⟨?_, h.expandable⟩
  have hanchored := h.anchored
  match a with
  | .simple _ true _ | .block .. => trivial
  | .simple _ false op =>
    cases op with
    | load access | store access value => exact Access.Anchored.mono hanchored hsub
    | _ => trivial

theorem Action.Orderly.mono (h : Orderly n actions) (hle : n ≤ m) : Orderly m actions :=
  ⟨fun a ha => (h.plain a ha).mono hle, h.order⟩

end Kept

namespace Program

open Lower

variable (hstock : context.catalog.Stocked context.environment.xlen)
include hstock

theorem lowerTest_succeeds (hstack : ¬ pages test.stack)
    (hactions : Action.Orderly s.ids.values test.actions)
    (hready : ∀ b ∈ Action.pendingAll test.actions, b.Ready context.overflow pages) (h : s.Offers pages) :
    (lowerTest test).Succeeds context s fun _ s' =>
      s'.Offers fun id => id = test.stack ∨ pages id := by
  have hnew := h.unknown hstack test.stack_not_spelled
  have hentry : (s.pages.add .data test.stack (stackSpec context.options)).entries.get?
      test.stack = some (.data, stackSpec context.options) := by
    rw [PageRegistry.get?_add hnew, if_pos rfl]
  have hoffers := h.register .data (stackSpec context.options) hstack test.stack_not_spelled
  have hready : ∀ b ∈ Action.pendingAll test.actions, b.Ready context.overflow fun id => id = test.stack ∨ pages id :=
    fun b hb => (hready b hb).mono fun _ => .inr
  simp only [lowerTest, succeeds_bind, succeeds_read, succeeds_reserve, succeeds_pure]
  refine ⟨hnew, ?_⟩
  have hbody := lowerRoutine_succeeds hstock
    (s := { s with pages := s.pages.add .data test.stack (stackSpec context.options) })
    hactions hready hoffers
  refine hbody.attach.mono ?_
  rintro body next ⟨hrun, h⟩
  have hpage : next.pages.page .data test.stack =
      .ok ⟨test.stack, stackSpec context.options⟩ := by
    have hkept := lowerRoutine_moves (R := State.PagesFixed) _ _ _ _ _ hrun _ _ hentry
    exact next.pages.coherent.page_ok.2 ⟨hkept, rfl⟩
  simp only [freshLabel, succeeds_fresh]
  refine succeeds_of_returns ((TestFrame.save_returns hstock _).mono fun save _ => ?_)
  refine succeeds_get.2 (succeeds_of_returns ⟨_, hpage, ?_⟩)
  refine succeeds_of_returns ((TestFrame.openStack_returns hstock _ _).mono fun setup _ => ?_)
  refine succeeds_of_returns ((TestFrame.restore_returns hstock _).mono fun restore _ => ?_)
  refine succeeds_of_returns ((Harness.testPassed_returns hstock _).mono fun passed _ => ?_)
  exact h.next .label

theorem lowerTests_succeeds (hnames : (tests.map TestCase.name).Nodup)
    (hstacks : ∀ test ∈ tests, ¬ pages test.stack) (hn : n ≤ s.ids.values)
    (hactions : ∀ test ∈ tests, Action.Orderly n test.actions)
    (hready : ∀ test ∈ tests, ∀ b ∈ Action.pendingAll test.actions, b.Ready context.overflow pages)
    (h : s.Offers pages) : (lowerTests tests).Succeeds context s fun _ _ => True := by
  induction tests generalizing s pages with
  | nil => exact succeeds_pure.2 trivial
  | cons test rest ih =>
    obtain ⟨hown, hnames⟩ := List.nodup_cons.1 hnames
    rw [List.forall_mem_cons] at hstacks hactions hready
    simp only [lowerTests, succeeds_bind, succeeds_pure]
    have htest := lowerTest_succeeds hstock hstacks.1 (hactions.1.mono hn) hready.1 h
    refine htest.attach.mono ?_
    rintro routine next ⟨hrun, h⟩
    have hcount : s.ids.values ≤ next.ids.values := lowerTest_moves (R := CountsOn) _ _ _ _ _ hrun
    refine ih hnames (fun other hother => ?_) (hn.trans hcount) hactions.2 (fun other hother b hb => ?_) h
    · rintro (hsame | hknown)
      · exact hown (TestCase.stack_injective hsame ▸ List.mem_map_of_mem hother)
      · exact hstacks.2 other hother hknown
    · exact (hready.2 other hother b hb).mono fun _ => .inr

/-- A batch without functions is lowered where no name of a page clashes with another. -/
theorem ofTests_succeeds {batch : CanonicalBatch} {final : State}
    (hbatch : CanonicalBatch.ofTests tests context s = .ok batch final)
    (hgiven : final.PagesGiven) (hfunctions : batch.functions = [])
    (hnames : (batch.tests.map TestCase.name).Nodup)
    (hstorage : ¬ FreshIds.Spelled context.options.csrStorage)
    (hapart : ∀ test ∈ batch.tests, test.stack ≠ context.options.csrStorage)
    (hactions : ∀ test ∈ batch.tests, Action.Orderly final.ids.values test.actions)
    (hready : ∀ test ∈ batch.tests, ∀ b ∈ Action.pendingAll test.actions,
      b.Ready context.overflow (final.pages.isLabel ·)) :
    (Program.ofTests tests).Succeeds context s fun _ _ => True := by
  have hspelled : ∀ id, final.pages.isLabel id → FreshIds.Spelled id := fun id hid => by
    obtain ⟨r, k, _, hid⟩ := hgiven id hid
    exact ⟨r, k, hid⟩
  have hoffers : final.Offers (final.pages.isLabel ·) := .of_pagesGiven hgiven fun _ => id
  have hlabel : ¬ final.pages.isLabel context.options.csrStorage :=
    fun hid => hstorage (hspelled _ hid)
  have hoffers := hoffers.register .data (stackSpec context.options) hlabel hstorage
  simp only [Program.ofTests, succeeds_bind, succeeds_read]
  refine ⟨batch, final, hbatch, ?_⟩
  simp only [hfunctions, lowerFunctions, succeeds_pure, succeeds_reserve, succeeds_get]
  refine ⟨hlabel, ?_⟩
  have hready : ∀ test ∈ batch.tests, ∀ b ∈ Action.pendingAll test.actions,
      b.Ready context.overflow fun id => id = context.options.csrStorage ∨ final.pages.isLabel id :=
    fun test htest b hb => (hready test htest b hb).mono fun _ => .inr
  have hcount : final.ids.values ≤ (State.ids { final with
      pages := final.pages.add .data context.options.csrStorage (stackSpec context.options)
      }).values := Nat.le_refl _
  refine (lowerTests_succeeds hstock hnames (fun test htest => ?_) hcount hactions hready
    hoffers).mono fun _ _ _ => ?_
  · rintro (hsame | hknown)
    · exact hapart test htest hsame
    · exact test.stack_not_spelled (hspelled _ hknown)
  · exact succeeds_of_returns ((Harness.routines_returns hstock).mono fun _ _ => trivial)

end Program

end PlanLowering
