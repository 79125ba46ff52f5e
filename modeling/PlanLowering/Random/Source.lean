import PlanLowering.LoweringError

/-! # Random draws

A random source is a stream of 32-bit words and a position in it. A draw from a range scales a
number of the stream to the range, and rejects the numbers that would favour some results.
-/

namespace PlanLowering

/-- What is drawn at once: a word, or two of them with the low one first. -/
inductive Grain where
  | word | pair
  deriving DecidableEq, Repr

namespace Grain

def bits : Grain → Nat
  | .word => 32
  | .pair => 64

/-- How many numbers there are. -/
def count (grain : Grain) : Nat := 1 <<< grain.bits

def size : Grain → Nat
  | .word => 1
  | .pair => 2

def number (words : Nat → UInt32) (position : Nat) : Grain → Nat
  | .word => (words position).toNat
  | .pair => (words position).toNat + (words (position + 1)).toNat <<< 32

/-- A draw below the range takes the number, as the low half of the product is in the part that
favours no result. -/
def accepts (grain : Grain) (range v : Nat) : Bool :=
  v * range % grain.count ≤ range <<< (grain.bits - 1 - range.log2) - 1

/-- How many numbers are rejected from a position on, where some are passed over already. Nothing is
known of it where no number is accepted. -/
def rejections (words : Nat → UInt32) (grain : Grain) (range position passed : Nat) : Nat :=
  Id.run <| repeatM (fun passed =>
    if grain.accepts range (grain.number words (position + grain.size * passed)) then
      pure (.inr passed)
    else pure (.inl (passed + 1))) passed

theorem rejections_eq (words : Nat → UInt32) (grain : Grain) (range position passed : Nat) :
    grain.rejections words range position passed =
      if grain.accepts range (grain.number words (position + grain.size * passed)) then passed
      else grain.rejections words range position (passed + 1) := by
  rw [rejections, repeatM_eq_of_monadTail, repeatM.body]
  split <;> rfl

end Grain

structure RandomSource where
  words : Nat → UInt32
  /-- How many numbers a draw below a range passes over from a position on. -/
  rejected : Grain → (range position : Nat) → Nat := fun _ _ _ => 0
  position : Nat := 0

namespace RandomSource

def skip (source : RandomSource) (words : Nat) : RandomSource :=
  { source with position := source.position + words }

/-- A source that passes over all numbers that are rejected, and over no others. -/
def fair (words : Nat → UInt32) : RandomSource where
  words
  rejected grain range position := grain.rejections words range position 0

end RandomSource

/-- A draw moves the source on, also where it fails. -/
abbrev Draw := EStateM LoweringError RandomSource

namespace Draw

def number (grain : Grain) : Draw Nat :=
  modifyGet fun source => (grain.number source.words source.position, source.skip grain.size)

/-- A number below the range, the first that is not passed over. -/
def scaled (grain : Grain) (range : Nat) : Draw Nat := do
  modify fun source => source.skip (grain.size * source.rejected grain range source.position)
  let v ← number grain
  return v * range / grain.count

/-- A uniform integer of `lo ≤ n ≤ hi`. The range of all 64-bit integers takes any number. -/
def integer (lo hi : Int) : Draw Int := do
  if hi < lo then throw (.internal (.emptyRange lo hi))
  let range := (hi - lo + 1).toNat
  if 1 <<< 64 ≤ range then
    let v ← number .pair
    return Int.bmod v (1 <<< 64)
  else
    let v ← scaled .pair range
    return lo + v

def choice {α : Type} (items : List α) : Draw (Option α) := do
  if items = [] then return none
  else
    let index ← scaled .word items.length
    return items[index]?

/-- The greatest number of so many bits. -/
def ones (bits : Nat) : Int := (1 <<< bits : Nat) - 1

def width (bits lower : Nat) : Draw Int := do
  if bits ≤ 2 ∨ 62 < bits then throw (.internal (.randomWidth bits))
  if lower < 2 ∨ bits ≤ lower then throw (.internal (.randomLowerBound bits lower))
  integer (ones lower) (ones bits)

/-- A number that fits 32 bits and needs two of them. -/
def word : Draw Int := integer (ones 2) (ones 32)

end Draw
end PlanLowering
