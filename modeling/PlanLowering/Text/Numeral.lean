/-! # Numerals

Reading unsigned numerals in a base of at most sixteen, and hexadecimal text.
-/

namespace PlanLowering.Text

def digit? (base : Nat) (c : Char) : Option Nat :=
  let value? :=
    if '0' ≤ c ∧ c ≤ '9' then some (c.toNat - '0'.toNat)
    else if 'a' ≤ c ∧ c ≤ 'f' then some (c.toNat - 'a'.toNat + 10)
    else if 'A' ≤ c ∧ c ≤ 'F' then some (c.toNat - 'A'.toNat + 10)
    else none
  value?.filter (· < base)

def digits? (base : Nat) : List Char → Option Nat
  | [] => none
  | cs => cs.foldlM (fun value c => (digit? base c).map (value * base + ·)) 0

def unsigned? (base : Nat) : List Char → Option Nat
  | '+' :: cs => digits? base cs
  | cs => digits? base cs

def hex (n : Nat) : String := String.ofList (Nat.toDigits 16 n)

def hexWord (v : Int) : String := hex (v % 0x1_0000_0000_0000_0000).toNat

end PlanLowering.Text
