import PlanLowering.Action.Expansion
import PlanLowering.Except

/-!
# Outcomes of a run

What it means that a step of a run succeeds. Failed runs are left out: a failure ends the
whole batch, and what the state holds then is of no use to anyone.
-/

namespace PlanLowering

namespace Draw

variable {α β : Type} {source source' : RandomSource}

@[simp] theorem bind_ok {d : Draw α} {f : α → Draw β} {b : β} :
    (d >>= f) source = .ok b source' ↔
      ∃ a next, d source = .ok a next ∧ f a next = .ok b source' := by
  simp only [bind, EStateM.bind]
  cases d source with
  | error e next => simp
  | ok a next => simp [and_assoc]

@[simp] theorem map_ok {d : Draw α} {f : α → β} {b : β} :
    (f <$> d) source = .ok b source' ↔ ∃ a, d source = .ok a source' ∧ f a = b := by
  simp only [Functor.map, EStateM.map]
  cases d source with
  | error e next => simp
  | ok a next =>
    constructor
    · intro h; cases h; exact ⟨a, rfl, rfl⟩
    · rintro ⟨c, h, rfl⟩; cases h; rfl

@[simp] theorem pure_ok {a b : α} :
    (pure a : Draw α) source = .ok b source' ↔ a = b ∧ source = source' := by
  simp [pure, EStateM.pure]

@[simp] theorem throw_ok {e : LoweringError} {b : α} :
    (throw e : Draw α) source = .ok b source' ↔ False := by
  show EStateM.Result.error e source = .ok b source' ↔ False
  simp

end Draw

namespace Lower

variable {α β : Type} {context : Context} {state state' : State}

@[simp] theorem bind_ok {m : Lower α} {f : α → Lower β} {b : β} :
    (m >>= f) context state = .ok b state' ↔
      ∃ a next, m context state = .ok a next ∧ f a context next = .ok b state' := by
  simp only [bind, ReaderT.bind, EStateM.bind]
  cases m context state with
  | error e next => simp
  | ok a next => simp [and_assoc]

theorem bind_of_ok {m : Lower α} {f : α → Lower β} {a : α} (h : m context state = .ok a state') :
    (m >>= f) context state = f a context state' := by
  simp [bind, ReaderT.bind, EStateM.bind, h]

@[simp] theorem map_ok {m : Lower α} {f : α → β} {b : β} :
    (f <$> m) context state = .ok b state' ↔
      ∃ a, m context state = .ok a state' ∧ f a = b := by
  simp only [Functor.map, EStateM.map]
  cases m context state with
  | error e next => simp
  | ok a next =>
    constructor
    · intro h; cases h; exact ⟨a, rfl, rfl⟩
    · rintro ⟨c, h, rfl⟩; cases h; rfl

@[simp] theorem pure_ok {a b : α} :
    (pure a : Lower α) context state = .ok b state' ↔ a = b ∧ state = state' := by
  simp [pure, ReaderT.pure, EStateM.pure]

@[simp] theorem throw_ok {e : LoweringError} {b : α} :
    (throw e : Lower α) context state = .ok b state' ↔ False := by
  show EStateM.Result.error e state = .ok b state' ↔ False
  simp

@[simp] theorem read_ok {c : Context} :
    (read : Lower Context) context state = .ok c state' ↔ context = c ∧ state = state' := by
  show EStateM.Result.ok context state = .ok c state' ↔ _
  rw [EStateM.Result.ok.injEq]

@[simp] theorem get_ok {s : State} :
    (get : Lower State) context state = .ok s state' ↔ state = s ∧ state = state' := by
  show EStateM.Result.ok state state = .ok s state' ↔ _
  rw [EStateM.Result.ok.injEq]

@[simp] theorem modify_ok {f : State → State} {u : PUnit} :
    (modify f : Lower PUnit) context state = .ok u state' ↔ f state = state' := by
  show EStateM.Result.ok PUnit.unit (f state) = .ok u state' ↔ _
  simp

@[simp] theorem ofExcept_ok {x : Except LoweringError α} {a : α} :
    ofExcept x context state = .ok a state' ↔ x = .ok a ∧ state = state' := by
  cases x with
  | error e => simp [ofExcept]
  | ok b => simp [ofExcept]

@[simp] theorem draw_ok {d : Draw α} {a : α} :
    draw d context state = .ok a state' ↔
      ∃ source, d state.random = .ok a source ∧ { state with random := source } = state' := by
  simp only [draw]
  cases d state.random with
  | error e source => simp
  | ok b source => simp [and_assoc, eq_comm]

@[simp] theorem fresh_ok {next : FreshIds → Id × FreshIds} {id : Id} :
    fresh next context state = .ok id state' ↔
      (next state.ids).1 = id ∧ { state with ids := (next state.ids).2 } = state' := by
  show EStateM.Result.ok (next state.ids).1 { state with ids := (next state.ids).2 } =
    .ok id state' ↔ _
  rw [EStateM.Result.ok.injEq]

@[simp] theorem environment_ok {e : Environment} :
    environment context state = .ok e state' ↔ context.environment = e ∧ state = state' := by
  simpa [environment, and_assoc] using and_comm

@[simp] theorem options_ok {o : Options} :
    options context state = .ok o state' ↔ context.options = o ∧ state = state' := by
  simpa [options, and_assoc] using and_comm

@[simp] theorem targetLevel_ok {level target : UInt8} {recursive : Bool} :
    targetLevel level recursive context state = .ok target state' ↔
      (recursive = false → level = 255 → context.overflow = .wraps) ∧
        (if recursive then level else level + 1) = target ∧ state = state' := by
  have hsucc : context.overflow.succ level = .ok target ↔
      (level = 255 → context.overflow = .wraps) ∧ level + 1 = target := by
    unfold Overflow.succ
    cases context.overflow <;> by_cases hlevel : level = 255 <;> simp [hlevel]
  cases recursive <;> simp [targetLevel, hsucc, and_assoc, and_comm]

@[simp] theorem instruction_ok {name : String} {i : Instruction} :
    Lower.instruction name context state = .ok i state' ↔
      context.catalog.instruction name = .ok i ∧ state = state' := by
  simp [Lower.instruction, and_assoc]

@[simp] theorem reserve_ok {kind : PageKind} {id : Id} {spec : PageSpec} {u : Unit} :
    reserve kind id spec context state = .ok u state' ↔
      ¬ state.pages.isLabel id ∧ { state with pages := state.pages.add kind id spec } = state' := by
  unfold reserve
  by_cases h : state.pages.isLabel id
  · simp [PageRegistry.register_known h, h]
  · simp [PageRegistry.register_new h, h]

@[simp] theorem expanding_ok {action : String} {m : Lower α} {a : α} :
    expanding action m context state = .ok a state' ↔ m context state = .ok a state' := by
  unfold expanding
  cases m context state <;> simp

/-- The result of a run that succeeds. -/
def result? (m : Lower α) (context : Context) (state : State) : Option α :=
  match m context state with
  | .ok a _ => some a
  | .error _ _ => none

theorem result?_eq_some {m : Lower α} {a : α} :
    m.result? context state = some a ↔ ∃ state', m context state = .ok a state' := by
  unfold result?
  cases m context state <;> simp

end Lower
end PlanLowering
