import Mathlib.Logic.Function.Defs
import PlanLowering.FreshIds

/-!
# How ids are spelled

Two numbers never have the same numeral.
-/

namespace PlanLowering

theorem repr_injective : Function.Injective Nat.repr := by
  intro m n h
  rw [Nat.repr_eq_ofList_toDigits, Nat.repr_eq_ofList_toDigits, String.ofList_inj] at h
  rw [← Nat.ofDigitChars_ten_toDigits (n := m), h, Nat.ofDigitChars_ten_toDigits]

end PlanLowering
