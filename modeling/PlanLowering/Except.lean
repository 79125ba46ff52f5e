/-! # Runs that may fail

What a run that ends well went through.
-/

namespace PlanLowering

variable {ε α β : Type}

@[simp] theorem except_bind_ok {m : Except ε α} {f : α → Except ε β} {b : β} :
    (m >>= f) = .ok b ↔ ∃ a, m = .ok a ∧ f a = .ok b := by
  cases m with
  | error e => simp [bind, Except.bind]
  | ok a => simp [bind, Except.bind]

@[simp] theorem except_map_ok {m : Except ε α} {f : α → β} {b : β} :
    (f <$> m) = .ok b ↔ ∃ a, m = .ok a ∧ f a = b := by
  cases m with
  | error e => simp [Functor.map, Except.map]
  | ok a => simp [Functor.map, Except.map]

@[simp] theorem except_pure_ok {a b : α} : (pure a : Except ε α) = .ok b ↔ a = b := by
  simp [pure, Except.pure]

theorem except_bind_error {m : Except ε α} {f : α → Except ε β} {e : ε} :
    (m >>= f) = .error e ↔ m = .error e ∨ ∃ a, m = .ok a ∧ f a = .error e := by
  cases m <;> simp [bind, Except.bind]

theorem except_pure_error {a : α} {e : ε} : (pure a : Except ε α) = .error e ↔ False := by
  simp [pure, Except.pure]

@[simp] theorem except_throw_ok {e : ε} {b : α} : (throw e : Except ε α) = .ok b ↔ False := by
  simp [throw, throwThe, MonadExceptOf.throw]

theorem except_toOption_eq_some {m : Except ε α} {a : α} :
    m.toOption = some a ↔ m = .ok a := by
  cases m <;> simp [Except.toOption]

/-- What every step of a successful fold keeps holds of its result. -/
theorem except_foldlM_ok {P : β → Prop} {f : β → α → Except ε β} {xs : List α} {b b' : β}
    (h : xs.foldlM f b = .ok b') (hb : P b)
    (hstep : ∀ a ∈ xs, ∀ c c', P c → f c a = .ok c' → P c') : P b' := by
  induction xs generalizing b with
  | nil =>
    rw [List.foldlM_nil, except_pure_ok] at h
    exact h ▸ hb
  | cons a rest ih =>
    rw [List.foldlM_cons, except_bind_ok] at h
    obtain ⟨c, hc, hrest⟩ := h
    exact ih hrest (hstep a List.mem_cons_self b c hb hc)
      fun x hx => hstep x (List.mem_cons_of_mem _ hx)

end PlanLowering
