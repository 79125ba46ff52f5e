import PlanLowering.Proofs.Outcome

/-!
# Random draws

A draw from a range returns, whatever words the source holds and passes over, and a choice from a
list that is not empty is one of its members. Nothing is said about how likely each is. A fair source
passes over what is rejected and takes the next number.
-/

namespace PlanLowering.Draw

variable {α β : Type}

/-- The draw returns whatever words the source holds, and what it returns is as asked. -/
def Total (d : Draw α) (good : α → Prop) : Prop :=
  ∀ source, ∃ a next, d source = .ok a next ∧ good a

theorem total_pure {good : α → Prop} {a : α} (h : good a) : (pure a : Draw α).Total good :=
  fun source => ⟨a, source, rfl, h⟩

theorem Total.bind {d : Draw α} {f : α → Draw β} {mid : α → Prop} {good : β → Prop}
    (hd : d.Total mid) (hf : ∀ a, mid a → (f a).Total good) : (d >>= f).Total good := by
  intro source
  obtain ⟨a, next, hrun, ha⟩ := hd source
  obtain ⟨b, last, hlast, hb⟩ := hf a ha next
  exact ⟨b, last, bind_ok.2 ⟨a, next, hrun, hlast⟩, hb⟩

theorem Total.mono {d : Draw α} {good good' : α → Prop} (hd : d.Total good)
    (hgood : ∀ a, good a → good' a) : d.Total good' := by
  intro source
  obtain ⟨a, next, hrun, ha⟩ := hd source
  exact ⟨a, next, hrun, hgood a ha⟩

theorem Total.of_ok {d : Draw α} {good : α → Prop} {a : α} {source next : RandomSource}
    (h : d.Total good) (hrun : d source = .ok a next) : good a := by
  obtain ⟨b, last, hlast, hb⟩ := h source
  rw [hlast] at hrun
  cases hrun
  exact hb

theorem number_lt (grain : Grain) (words : Nat → UInt32) (position : Nat) :
    grain.number words position < grain.count := by
  have hlow := (words position).toNat_lt
  have hhigh := (words (position + 1)).toNat_lt
  cases grain with
  | word => exact hlow
  | pair =>
    show (words position).toNat + (words (position + 1)).toNat <<< 32 < 1 <<< 64
    rw [Nat.shiftLeft_eq, Nat.one_shiftLeft]
    omega

theorem number_total (grain : Grain) : (number grain).Total (· < grain.count) :=
  fun source => ⟨_, _, rfl, number_lt grain source.words source.position⟩

theorem scaled_lt {v range : Nat} {grain : Grain} (hrange : 0 < range) (hv : v < grain.count) :
    v * range / grain.count < range := by
  rw [Nat.div_lt_iff_lt_mul (Nat.zero_lt_of_lt hv), Nat.mul_comm range]
  exact Nat.mul_lt_mul_of_pos_right hv hrange

/-- Whatever the source passes over, what is drawn is in the range. -/
theorem scaled_total (grain : Grain) {range : Nat} (hrange : 0 < range) :
    (scaled grain range).Total (· < range) := by
  have hskip (f : RandomSource → RandomSource) : (modify f : Draw PUnit).Total fun _ => True :=
    fun _ => ⟨_, _, rfl, trivial⟩
  refine (hskip _).bind fun _ _ => ?_
  exact (number_total grain).bind fun v hv => total_pure (scaled_lt hrange hv)

theorem choice_ok {items : List α} (hitems : items ≠ []) (source : RandomSource) :
    ∃ a ∈ items, ∃ next, choice items source = .ok (some a) next := by
  obtain ⟨v, next, hscaled, hv⟩ :=
    scaled_total .word (List.length_pos_iff.2 hitems) source
  refine ⟨items[v], List.getElem_mem hv, next, ?_⟩
  simp only [choice, hitems, if_false, bind_ok, pure_ok]
  exact ⟨v, next, hscaled, by simp [hv], rfl⟩

theorem integer_total {lo hi : Int} (h : lo ≤ hi) : (integer lo hi).Total fun _ => True := by
  have hrange : 0 < (hi - lo + 1).toNat := by omega
  unfold integer
  rw [if_neg (by omega)]
  dsimp only
  split
  · exact (number_total .pair).bind fun _ _ => total_pure trivial
  · exact (scaled_total .pair hrange).bind fun _ _ => total_pure trivial

theorem integer_between {lo hi : Int} (h : lo ≤ hi) (hrange : hi - lo < 0xffffffffffffffff) :
    (integer lo hi).Total fun n => lo ≤ n ∧ n ≤ hi := by
  have hpos : 0 < (hi - lo + 1).toNat := by omega
  unfold integer
  rw [if_neg (by omega)]
  dsimp only
  rw [if_neg (by rw [Nat.one_shiftLeft]; omega)]
  refine (scaled_total .pair hpos).bind fun v hv => total_pure ?_
  omega

theorem ones_mono {m n : Nat} (h : m ≤ n) : ones m ≤ ones n := by
  have hpow : 2 ^ m ≤ 2 ^ n := Nat.pow_le_pow_right (by decide) h
  simp only [ones, Nat.one_shiftLeft]
  omega

theorem word_total : word.Total fun _ => True := integer_total (ones_mono (by decide))

theorem width_between {bits lower : Nat} (hbits : 2 < bits ∧ bits ≤ 62)
    (hlower : 2 ≤ lower ∧ lower < bits) :
    (width bits lower).Total fun n => ones lower ≤ n ∧ n ≤ ones bits := by
  have hpow : 2 ^ bits ≤ 2 ^ 62 := Nat.pow_le_pow_right (by decide) hbits.2
  have hones : ones bits ≤ 2 ^ 62 - 1 := by
    simp only [ones, Nat.one_shiftLeft]
    omega
  have hpos : 0 ≤ ones lower := by
    have := Nat.one_le_two_pow (n := lower)
    simp only [ones, Nat.one_shiftLeft]
    omega
  unfold width
  rw [if_neg (by omega)]
  dsimp only
  rw [if_neg (by omega)]
  exact integer_between (ones_mono (by omega)) (by omega)

theorem width_total {bits lower : Nat} (hbits : 2 < bits ∧ bits ≤ 62)
    (hlower : 2 ≤ lower ∧ lower < bits) : (width bits lower).Total fun _ => True :=
  (width_between hbits hlower).mono fun _ _ => trivial

end PlanLowering.Draw

namespace PlanLowering.Grain

variable {words : Nat → UInt32} {grain : Grain} {range position k : Nat}

theorem rejections_passed
    (h : ∀ j < k, ¬ grain.accepts range (grain.number words (position + grain.size * j))) :
    grain.rejections words range position 0 = grain.rejections words range position k := by
  induction k with
  | zero => rfl
  | succ k ih =>
    rw [ih fun j hj => h j (Nat.lt_succ_of_lt hj), rejections_eq, if_neg (h k (Nat.lt_succ_self k))]

theorem rejections_of_accepts
    (h : grain.accepts range (grain.number words (position + grain.size * k)))
    (hrejected : ∀ j < k, ¬ grain.accepts range (grain.number words (position + grain.size * j))) :
    grain.rejections words range position 0 = k := by
  rw [rejections_passed hrejected, rejections_eq, if_pos h]

end PlanLowering.Grain

namespace PlanLowering.Draw

/-- A fair source draws from the first number that is accepted, and goes on behind it. -/
theorem scaled_fair {words : Nat → UInt32} {grain : Grain} {range position k : Nat}
    (h : grain.accepts range (grain.number words (position + grain.size * k)))
    (hrejected : ∀ j < k, ¬ grain.accepts range (grain.number words (position + grain.size * j))) :
    scaled grain range { RandomSource.fair words with position } =
      .ok (grain.number words (position + grain.size * k) * range / grain.count)
        { RandomSource.fair words with position := position + grain.size * k + grain.size } := by
  have hpassed : (RandomSource.fair words).rejected grain range position = k :=
    Grain.rejections_of_accepts h hrejected
  rw [← hpassed]
  rfl

end PlanLowering.Draw
