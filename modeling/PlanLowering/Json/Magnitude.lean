/-! # The magnitude of a number

A number is kept as a significand of 64 bits and a power of ten. Its float is a product: the float
nearest to the significand times the float nearest to the power of ten, rounded once more. Near the
limit of the floats that product can overflow where the number itself would not.
-/

namespace PlanLowering.Json

structure Magnitude where
  significand : Nat
  exponent : Int
  deriving Repr, BEq

/-- Puts digits behind a significand, up to the first one that would take it beyond 64 bits. The
digits that are left come second. -/
def appendDigits (significand : Nat) : List Char → Nat × List Char
  | [] => (significand, [])
  | c :: cs =>
    let longer := significand * 10 + (c.toNat - '0'.toNat)
    if longer < 0x1_0000_0000_0000_0000 then appendDigits longer cs else (significand, c :: cs)

/-- Whole digits that do not fit still count as places; digits of the fraction that do not fit are
dropped. A fraction may fill up a significand at which the whole digits stopped. -/
def Magnitude.ofDigits (whole fraction : List Char) (exponent : Int) : Magnitude :=
  let (significand, places) := appendDigits 0 whole
  let (significand, dropped) := appendDigits significand fraction
  ⟨significand, exponent + places.length - (fraction.length - dropped.length)⟩

/-- The nearest number with 53 significant bits; a number halfway goes to the even neighbour. -/
def nearestFloat (n : Nat) : Nat :=
  let unit := 1 <<< (n.log2 - 52)
  let kept := n / unit
  let twice := 2 * (n % unit)
  (if unit < twice ∨ (twice = unit ∧ kept % 2 = 1) then kept + 1 else kept) * unit

def floatLimit : Nat := 1 <<< 1024 - 1 <<< 970

def maxPower : Int := 308

def Magnitude.exceedsFloat (m : Magnitude) : Bool :=
  if m.significand = 0 ∨ m.exponent < 0 then false
  else if maxPower < m.exponent then true
  else floatLimit ≤ nearestFloat m.significand * nearestFloat (Nat.pow 10 m.exponent.toNat)

end PlanLowering.Json
