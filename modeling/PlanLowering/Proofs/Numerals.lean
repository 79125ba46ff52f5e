import Mathlib.Data.List.Induction
import Mathlib.Tactic.IntervalCases
import PlanLowering.Text.Numeral

/-!
# Numerals are read back

A number written in a base of at most sixteen, its digits in lower case, is read as that number. In
a base of at most ten, zeros and a plus sign in front are all that may be read besides.
-/

namespace PlanLowering.Text

variable {base d n : Nat} {cs : List Char}

theorem digit?_digitChar (hd : d < base) (hbase : base ≤ 16) :
    digit? base d.digitChar = some d := by
  have hsixteen : d < 16 := by omega
  interval_cases d <;> simp [digit?, Nat.digitChar, Option.filter, hd]

theorem digits?_of_ne_nil (h : cs ≠ []) : digits? base cs =
    cs.foldlM (fun value c => (digit? base c).map (value * base + ·)) 0 := by
  cases cs with
  | nil => exact absurd rfl h
  | cons c cs => rfl

theorem digits?_toDigits (hone : 1 < base) (hbase : base ≤ 16) (n : Nat) :
    digits? base (Nat.toDigits base n) = some n := by
  rw [digits?_of_ne_nil Nat.toDigits_ne_nil]
  induction n using Nat.strongRecOn with
  | ind n ih =>
    by_cases hn : n < base
    · simp [Nat.toDigits_of_lt_base hn, digit?_digitChar hn hbase]
    · have hdigit := digit?_digitChar (Nat.mod_lt n (Nat.zero_lt_of_lt hone)) hbase
      rw [Nat.toDigits_of_base_le hone (by omega), List.foldlM_append,
        ih (n / base) (Nat.div_lt_self (by omega) hone)]
      simp [hdigit, Nat.div_add_mod']

theorem exists_of_mem_toDigits {c : Char} (hone : 1 < base) (h : c ∈ Nat.toDigits base n) :
    ∃ d < base, c = d.digitChar := by
  induction n using Nat.strongRecOn with
  | ind n ih =>
    by_cases hn : n < base
    · rw [Nat.toDigits_of_lt_base hn, List.mem_singleton] at h
      exact ⟨n, hn, h⟩
    · rw [Nat.toDigits_of_base_le hone (by omega), List.mem_append, List.mem_singleton] at h
      rcases h with h | h
      · exact ih (n / base) (Nat.div_lt_self (by omega) hone) h
      · exact ⟨n % base, Nat.mod_lt n (Nat.zero_lt_of_lt hone), h⟩

theorem unsigned?_of_digits? (h : digits? base cs = some n) : unsigned? base cs = some n := by
  unfold unsigned?
  split
  · next cs =>
    simp [digits?, digit?] at h
  · exact h

theorem unsigned?_toDigits (hone : 1 < base) (hbase : base ≤ 16) (n : Nat) :
    unsigned? base (Nat.toDigits base n) = some n :=
  unsigned?_of_digits? (digits?_toDigits hone hbase n)

theorem eq_digitChar_of_digit? {c : Char} (hbase : base ≤ 10) (h : digit? base c = some d) :
    d < base ∧ c = d.digitChar := by
  obtain ⟨hvalue, hd⟩ := Option.filter_eq_some_iff.1 h
  have hlt : d < base := by simpa using hd
  refine ⟨hlt, ?_⟩
  split_ifs at hvalue with hdecimal hlower hupper <;> rw [Option.some.injEq] at hvalue
  · have hlow : '0'.toNat ≤ c.toNat := hdecimal.1
    rw [← Char.toNat_inj, Nat.toNat_digitChar_of_lt_ten (by omega)]
    have hzero : '0'.toNat = 48 := rfl
    omega
  · omega
  · omega

/-- A number leaves open how many zeros stand in front of its numeral, and nothing else. -/
theorem digits?_eq_some_iff (hone : 1 < base) (hbase : base ≤ 10) :
    digits? base cs = some n ↔
      ∃ zeros, cs = List.replicate zeros '0' ++ Nat.toDigits base n := by
  constructor
  · intro h
    -- From the last digit on: what stands in front of it is read before it.
    induction cs using List.reverseRecOn generalizing n with
    | nil => cases h
    | append_singleton front c ih =>
      rw [digits?_of_ne_nil (by simp), List.foldlM_append] at h
      obtain ⟨m, hm, hc⟩ := Option.bind_eq_some_iff.1 h
      obtain ⟨d, hdigit, hn⟩ : ∃ d, digit? base c = some d ∧ m * base + d = n := by
        simpa using hc
      obtain ⟨hd, rfl⟩ := eq_digitChar_of_digit? hbase hdigit
      by_cases hfront : front = []
      · obtain rfl : 0 = m := by simpa [hfront] using hm
        exact ⟨0, by simp [hfront, ← hn, Nat.toDigits_of_lt_base hd]⟩
      · rw [← digits?_of_ne_nil hfront] at hm
        obtain ⟨zeros, rfl⟩ := ih hm
        -- The numeral of zero is a zero in front of the last digit.
        rcases Nat.eq_zero_or_pos m with rfl | hpos
        · refine ⟨zeros + 1, ?_⟩
          simp [← hn, Nat.toDigits_of_lt_base hd, List.replicate_succ']
        · refine ⟨zeros, ?_⟩
          rw [← hn, Nat.mul_comm, ← Nat.toDigits_append_toDigits hone hpos hd,
            Nat.toDigits_of_lt_base hd, List.append_assoc]
  · rintro ⟨zeros, rfl⟩
    have hzero : digit? base '0' = some 0 :=
      digit?_digitChar (d := 0) (by omega) (by omega)
    have hzeros : (List.replicate zeros '0').foldlM
        (fun value c => (digit? base c).map (value * base + ·)) 0 = some 0 := by
      induction zeros with
      | zero => rfl
      | succ zeros ih => simpa [List.replicate_succ, hzero] using ih
    have hread := digits?_toDigits hone (by omega) n
    rw [digits?_of_ne_nil Nat.toDigits_ne_nil] at hread
    rw [digits?_of_ne_nil (by simp [Nat.toDigits_ne_nil]), List.foldlM_append, hzeros]
    exact hread

/-- What may stand in front of a numeral without a change of its value. -/
def padding (plus : Bool) (zeros : Nat) : List Char :=
  (if plus then ['+'] else []) ++ List.replicate zeros '0'

theorem unsigned?_eq_some_iff (hone : 1 < base) (hbase : base ≤ 10) :
    unsigned? base cs = some n ↔
      ∃ plus zeros, cs = padding plus zeros ++ Nat.toDigits base n := by
  constructor
  · intro h
    unfold unsigned? at h
    split at h
    · obtain ⟨zeros, rfl⟩ := (digits?_eq_some_iff hone hbase).1 h
      exact ⟨true, zeros, rfl⟩
    · obtain ⟨zeros, rfl⟩ := (digits?_eq_some_iff hone hbase).1 h
      exact ⟨false, zeros, rfl⟩
  · rintro ⟨plus, zeros, rfl⟩
    have hread : digits? base (List.replicate zeros '0' ++ Nat.toDigits base n) = some n :=
      (digits?_eq_some_iff hone hbase).2 ⟨zeros, rfl⟩
    cases plus with
    | true => exact hread
    | false => exact unsigned?_of_digits? hread

end PlanLowering.Text
