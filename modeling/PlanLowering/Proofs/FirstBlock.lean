import PlanLowering.Program.Lower
import PlanLowering.Proofs.Outcome

/-!
# The first block of a random stream

Draws take their words from the blocks of a cipher, one after another. A run whose first block is
worked out beforehand is the same run, and is evaluated much faster: few runs on concrete plans draw
more words than this block has.
-/

namespace PlanLowering

namespace Grain

variable {words : Nat → UInt32} {grain : Grain} {range position turns passed k : Nat}

def rejectionsWithin (words : Nat → UInt32) (grain : Grain) (range position : Nat) :
    (turns passed : Nat) → Option Nat
  | 0, _ => none
  | turns + 1, passed =>
    if grain.accepts range (grain.number words (position + grain.size * passed)) then some passed
    else grain.rejectionsWithin words range position turns (passed + 1)

theorem rejections_of_within
    (h : grain.rejectionsWithin words range position turns passed = some k) :
    grain.rejections words range position passed = k := by
  induction turns generalizing passed with
  | zero => cases h
  | succ turns ih =>
    rw [rejectionsWithin] at h
    rw [rejections_eq]
    split at h
    · next haccepts => rw [if_pos haccepts, Option.some.inj h]
    · next haccepts => rw [if_neg haccepts, ih h]

end Grain

namespace RandomSource

def beginning (first : ChaCha.Block) (words : Nat → UInt32) : RandomSource :=
  let words n := if h : n < 16 then first[n] else words n
  { words
    rejected := fun grain range position =>
      (grain.rejectionsWithin words range position 16 0).getD
        (grain.rejections words range position 0) }

theorem ofSeed_eq_beginning {seed : UInt64} {first : ChaCha.Block}
    (h : ChaCha.block (ChaCha.key seed) 0 = first) :
    ofSeed seed = beginning first (ChaCha.stream (ChaCha.key seed)) := by
  have hwords : (fun n => if h : n < 16 then first[n] else ChaCha.stream (ChaCha.key seed) n) =
      ChaCha.stream (ChaCha.key seed) := by
    funext n
    split
    · next hn => simp only [ChaCha.stream, Nat.div_eq_of_lt hn, Nat.mod_eq_of_lt hn, h]
    · rfl
  rw [ofSeed, beginning, hwords, fair, RandomSource.mk.injEq]
  refine ⟨rfl, ?_, rfl⟩
  funext grain range position
  cases hfew : grain.rejectionsWithin (ChaCha.stream (ChaCha.key seed)) range position 16 0 with
  | none => rfl
  | some k => rw [Grain.rejections_of_within hfew, Option.getD_some]

end RandomSource

def ChaCha.defaultBlock : Block :=
  #v[3442241407, 3140108210, 2384947579, 3321986196, 3476097558, 111001858, 2883974864, 2508944925,
    3739319057, 1126014292, 527549474, 3315658513, 302217491, 939296079, 3388957127, 3408973338]

theorem ChaCha.block_default : block (key 0) 0 = defaultBlock := by
  decide +kernel

namespace State

/-- The start of a run with default options, with the first block at hand. -/
def begun : State :=
  { random := .beginning ChaCha.defaultBlock (ChaCha.stream (ChaCha.key 0)) }

theorem start_default : start {} = begun := by
  rw [start, begun, ← RandomSource.ofSeed_eq_beginning ChaCha.block_default]

end State

def lowerBegun (builders : StepBuilders) (context : Context) (scenarios : List Scenario) :
    Except LoweringError Program := do
  let tests ← Program.buildTests builders scenarios
  match Program.ofTests tests context .begun with
  | .ok program _ => return program
  | .error e _ => throw e

section Default

variable {builders : StepBuilders} {context : Context} {scenarios : List Scenario}

theorem lowerScenarios_default (h : context.options = {}) :
    lowerScenarios builders context scenarios = lowerBegun builders context scenarios := by
  rw [lowerScenarios, h, State.start_default]
  rfl

/-- A run that is evaluated gives a program, with what was decided about it. -/
theorem exists_lowered {P : Program → Prop} [DecidablePred P] (h : context.options = {})
    (hrun : (lowerBegun builders context scenarios).toOption.any (decide <| P ·)) :
    ∃ program, lowerScenarios builders context scenarios = .ok program ∧ P program := by
  obtain ⟨program, hprogram, hdecided⟩ := (Option.any_eq_true _ _).1 hrun
  rw [except_toOption_eq_some] at hprogram
  exact ⟨program, (lowerScenarios_default h).trans hprogram, of_decide_eq_true hdecided⟩

end Default

end PlanLowering
