/-! # Blank characters

Unicode's `White_Space` property, and cutting text at a separator or at its blank ends.
-/

namespace PlanLowering.Text

def blankRuns : List (Nat × Nat) :=
  [(0x09, 0x0D), (0x20, 0x20), (0x85, 0x85), (0xA0, 0xA0), (0x1680, 0x1680), (0x2000, 0x200A),
   (0x2028, 0x2029), (0x202F, 0x202F), (0x205F, 0x205F), (0x3000, 0x3000)]

/-- The runs ascend: none behind the first one that starts above the character can hold it. -/
def inRuns : List (Nat × Nat) → Char → Bool
  | [], _ => false
  | (first, last) :: rest, c =>
    first ≤ c.toNat && (c.toNat ≤ last || inRuns rest c)

def isBlank (c : Char) : Bool := inRuns blankRuns c

theorem isBlank_of_isWhitespace (c : Char) (h : c.isWhitespace) : isBlank c := by
  simp only [Char.isWhitespace, Bool.or_eq_true, decide_eq_true_eq] at h
  rcases h with ((rfl | rfl) | rfl) | rfl <;> decide

/-- Drops blank characters at both ends. -/
def trim (cs : List Char) : List Char :=
  ((cs.dropWhile isBlank).reverse.dropWhile isBlank).reverse

def pieces (separator : Char) : List Char → List (List Char)
  | [] => [[]]
  | c :: cs =>
    if c = separator then [] :: pieces separator cs
    else match pieces separator cs with
      | [] => [[c]]
      | piece :: more => (c :: piece) :: more

end PlanLowering.Text
