import PlanLowering.Text.Blank
import PlanLowering.Text.Numeral

/-! # Flag lists

A set of flags is written as its names joined by bars. Bits without a name follow as one
hexadecimal part, so that writing loses nothing.
-/

namespace PlanLowering.Text

structure FlagNames where
  width : Nat
  names : List (String × Nat)

namespace FlagNames

variable (flags : FlagNames)

/-- A name as it stands in the table, or `0x` and digits that fit the width. -/
def part? : List Char → Option Nat
  | '0' :: 'x' :: digits => (unsigned? 16 digits).filter (· < 1 <<< flags.width)
  | cs => flags.names.lookup (String.ofList cs)

def read? (s : String) : Option Nat :=
  if trim s.toList = [] then some 0
  else
    (pieces '|' s.toList).foldlM (fun bits piece => (flags.part? (trim piece)).map (bits ||| ·)) 0

def named (bits : Nat) : List (String × Nat) :=
  flags.names.filter fun flag => bits &&& flag.2 = flag.2

def unnamed (bits : Nat) : Nat :=
  flags.names.foldl (fun rest flag => rest - (rest &&& flag.2)) bits

def write (bits : Nat) : String :=
  let rest := flags.unnamed bits
  let last := if rest = 0 then [] else ["0x" ++ hex rest]
  " | ".intercalate ((flags.named bits).map Prod.fst ++ last)

end FlagNames
end PlanLowering.Text
