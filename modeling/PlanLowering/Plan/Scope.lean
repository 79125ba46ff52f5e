import PlanLowering.Plan.Step

/-! # Scope of a scenario

Which ids name reserved memory, at any depth of nesting.
-/

namespace PlanLowering

structure StepScope where
  memory : List Id := []
  code : List Id := []
  deriving DecidableEq, Repr

namespace StepScope

def isMemory (scope : StepScope) (id : Id) : Bool := id ∈ scope.memory

def isCode (scope : StepScope) (id : Id) : Bool := id ∈ scope.code

def append (s t : StepScope) : StepScope := ⟨s.memory ++ t.memory, s.code ++ t.code⟩

def own (id : Id) : StepKind → StepScope
  | .memory _ => ⟨[id], []⟩
  | .codePage _ => ⟨[id], [id]⟩
  | _ => {}

mutual

def ofStep : Step → StepScope
  | { id, kind, inputs := _, code } => (own id kind).append (ofSteps code)

def ofSteps : List Step → StepScope
  | [] => {}
  | step :: rest => (ofStep step).append (ofSteps rest)

end

end StepScope
end PlanLowering
