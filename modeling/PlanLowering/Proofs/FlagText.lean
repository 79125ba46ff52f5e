import Mathlib.Data.List.TakeWhile
import Mathlib.Data.Nat.Bitwise
import PlanLowering.Proofs.Numerals
import PlanLowering.Text.FlagList

/-!
# Flag lists are read back

Writing a set of flags and reading its text gives the same set, its bits without a name included.
A table of flags has to be legible for that: each of its names can be read again, and stands for a
single bit.
-/

namespace PlanLowering.Text

variable {c separator : Char} {cs p front : List Char}

theorem trim_cons_blank (h : isBlank c) : trim (c :: cs) = trim cs := by
  simp [trim, h]

theorem trim_append_blank (h : isBlank c) : trim (cs ++ [c]) = trim cs := by
  simp only [trim, List.dropWhile_append]
  split
  · next hnone =>
    have hblank : cs.dropWhile isBlank = [] := by simpa using hnone
    simp [hblank, h]
  · simp [h]

theorem trim_eq_self (h : ∀ c ∈ cs, ¬ isBlank c) : trim cs = cs := by
  have hkeep : ∀ {ds : List Char}, (∀ c ∈ ds, ¬ isBlank c) → ds.dropWhile isBlank = ds := by
    intro ds hds
    cases ds with
    | nil => rfl
    | cons d ds => simp [hds d List.mem_cons_self]
  rw [trim, hkeep h, hkeep fun c hc => h c (List.mem_reverse.1 hc), List.reverse_reverse]

theorem trim_ne_nil (hc : c ∈ cs) (h : ¬ isBlank c) : trim cs ≠ [] := by
  obtain ⟨front, back, rfl⟩ := List.append_of_mem hc
  have hkeep : c ∈ (front ++ c :: back).dropWhile isBlank := by
    rw [List.dropWhile_append]
    split <;> simp [h]
  intro hnil
  rw [trim, List.reverse_eq_nil_iff, List.dropWhile_eq_nil_iff] at hnil
  exact h (hnil c (List.mem_reverse.2 hkeep))

theorem pieces_of_not_mem (h : separator ∉ cs) : pieces separator cs = [cs] := by
  induction cs with
  | nil => rfl
  | cons c cs ih =>
    rw [List.mem_cons, not_or] at h
    rw [pieces, if_neg (Ne.symm h.1), ih h.2]

theorem pieces_append (h : separator ∉ front) (cs : List Char) :
    pieces separator (front ++ separator :: cs) = front :: pieces separator cs := by
  induction front with
  | nil => simp [pieces]
  | cons c front ih =>
    rw [List.mem_cons, not_or] at h
    rw [List.cons_append, pieces, if_neg (Ne.symm h.1), ih h.2]

namespace FlagNames

variable {flags : FlagNames} {bits : Nat}

/-- Text that stands in a list of flags as it is: it has characters, and none of them is blank or
a bar. -/
def Solid (p : List Char) : Prop := p ≠ [] ∧ ∀ c ∈ p, ¬ isBlank c ∧ c ≠ '|'

instance : Decidable (Solid p) :=
  decidable_of_iff (p ≠ [] ∧ p.all fun c => !isBlank c && c != '|') (by simp [Solid])

theorem Solid.padded {pad : List Char} (h : Solid p) (hpad : pad = [] ∨ pad = [' ']) :
    '|' ∉ pad ++ p ∧ trim (pad ++ p) = p := by
  have hbar : '|' ∉ p := fun hm => (h.2 _ hm).2 rfl
  have htrim : trim p = p := trim_eq_self fun c hc => (h.2 c hc).1
  rcases hpad with rfl | rfl
  · exact ⟨hbar, htrim⟩
  · exact ⟨by simpa using hbar, (trim_cons_blank (by decide)).trans htrim⟩

theorem pieces_intercalate (pad : List Char) {parts : List (List Char)}
    (hparts : ∀ p ∈ parts, Solid p) (hne : parts ≠ []) (hpad : pad = [] ∨ pad = [' ']) :
    (pieces '|' (pad ++ [' ', '|', ' '].intercalate parts)).map trim = parts := by
  induction parts generalizing pad with
  | nil => exact absurd rfl hne
  | cons p rest ih =>
    obtain ⟨hbar, htrim⟩ := (hparts p List.mem_cons_self).padded hpad
    cases rest with
    | nil => simp [pieces_of_not_mem hbar, htrim]
    | cons q rest =>
      have hsplit : pad ++ [' ', '|', ' '].intercalate (p :: q :: rest) =
          (pad ++ p ++ [' ']) ++ '|' :: ([' '] ++ [' ', '|', ' '].intercalate (q :: rest)) := by
        simp [List.intercalate_cons_cons]
      have hfirst : '|' ∉ pad ++ p ++ [' '] := by
        simpa using hbar
      rw [hsplit, pieces_append hfirst, List.map_cons, trim_append_blank (by decide), htrim,
        ih [' '] (fun q hq => hparts q (List.mem_cons_of_mem _ hq)) (List.cons_ne_nil _ _)
          (.inr rfl)]

/-- A table whose names can be read again, each of them for a single bit. -/
structure Legible (flags : FlagNames) : Prop where
  solid : ∀ flag ∈ flags.names, Solid flag.1.toList
  part : ∀ flag ∈ flags.names, flags.part? flag.1.toList = some flag.2
  bit : ∀ flag ∈ flags.names, ∃ k, flag.2 = 2 ^ k

theorem sub_and_eq_ldiff (x m : Nat) : x - (x &&& m) = Nat.ldiff x m := by
  induction x using Nat.binaryRec generalizing m with
  | zero =>
    refine Nat.eq_of_testBit_eq fun k => ?_
    simp [Nat.testBit_ldiff]
  | bit a x ih =>
    cases m using Nat.bitCasesOn with
    | bit b m =>
      have hle : x &&& m ≤ x := Nat.and_le_left
      rw [Nat.land_bit, Nat.ldiff_bit, ← ih m]
      simp only [Nat.bit_val]
      cases a <;> cases b <;> simp <;> omega

theorem ldiff_of_not_named {x : Nat} {flag : String × Nat} (hbit : ∃ k, flag.2 = 2 ^ k)
    (hnamed : ¬ bits &&& flag.2 = flag.2) (hsub : ∀ k, x.testBit k → bits.testBit k) :
    Nat.ldiff x flag.2 = x := by
  obtain ⟨i, hi⟩ := hbit
  have hclear : x.testBit i = false := by
    rw [Bool.eq_false_iff]
    intro hx
    rw [hi, Nat.and_two_pow, hsub i hx] at hnamed
    simp at hnamed
  refine Nat.eq_of_testBit_eq fun k => ?_
  rw [Nat.testBit_ldiff, hi, Nat.testBit_two_pow]
  by_cases hk : i = k
  · simp [← hk, hclear]
  · simp [hk]

/-- Taking a named bit out of what is left and noting its name loses nothing. -/
theorem named_or_unnamed {names : List (String × Nat)} {seen rest : Nat}
    (hbit : ∀ flag ∈ names, ∃ k, flag.2 = 2 ^ k) (h : seen ||| rest = bits) :
    (names.filter fun flag => bits &&& flag.2 = flag.2).foldl
        (fun seen flag => seen ||| flag.2) seen |||
      names.foldl (fun rest flag => rest - (rest &&& flag.2)) rest = bits := by
  induction names generalizing seen rest with
  | nil => exact h
  | cons flag names ih =>
    have hmore : ∀ flag ∈ names, ∃ k, flag.2 = 2 ^ k := fun f hf =>
      hbit f (List.mem_cons_of_mem _ hf)
    have hall : ∀ k, (seen.testBit k || rest.testBit k) = bits.testBit k := fun k => by
      rw [← h, Nat.testBit_or]
    rw [List.foldl_cons, sub_and_eq_ldiff]
    by_cases hnamed : bits &&& flag.2 = flag.2
    · rw [List.filter_cons_of_pos (by simpa using hnamed), List.foldl_cons]
      refine ih hmore (Nat.eq_of_testBit_eq fun k => ?_)
      have hown := congrArg (Nat.testBit · k) hnamed
      simp only [Nat.testBit_and, Nat.testBit_or, Nat.testBit_ldiff, ← hall k] at hown ⊢
      revert hown
      cases seen.testBit k <;> cases rest.testBit k <;> cases flag.2.testBit k <;> simp
    · rw [List.filter_cons_of_neg (by simpa using hnamed), ldiff_of_not_named
        (hbit flag List.mem_cons_self) hnamed fun k hk => by rw [← hall k, hk, Bool.or_true]]
      exact ih hmore h

theorem unnamed_le (flags : FlagNames) (bits : Nat) : flags.unnamed bits ≤ bits := by
  unfold unnamed
  apply List.foldlRecOn (motive := fun rest => rest ≤ bits)
  · exact Nat.le_refl _
  · intro rest hrest flag _
    exact Nat.le_trans (Nat.sub_le _ _) hrest

theorem toList_hexPart (n : Nat) : ("0x" ++ hex n).toList = '0' :: 'x' :: Nat.toDigits 16 n := by
  simp [hex]

theorem solid_hexPart (n : Nat) : Solid ("0x" ++ hex n).toList := by
  have hdigits : ∀ d < 16, ¬ isBlank d.digitChar ∧ d.digitChar ≠ '|' := by decide
  rw [toList_hexPart]
  refine ⟨List.cons_ne_nil _ _, fun c hc => ?_⟩
  simp only [List.mem_cons] at hc
  rcases hc with rfl | rfl | hc
  · decide
  · decide
  · obtain ⟨d, hd, rfl⟩ := exists_of_mem_toDigits (by decide) hc
    exact hdigits d hd

theorem part?_hexPart {n : Nat} (hn : n < 2 ^ flags.width) :
    flags.part? ("0x" ++ hex n).toList = some n := by
  rw [toList_hexPart, part?, unsigned?_toDigits (by decide) (by decide) n, Nat.shiftLeft_eq,
    Nat.one_mul]
  simp [Option.filter, hn]

/-- Reading a text of the table's own parts joins their bits. -/
theorem read?_intercalate {parts : List String} (hsolid : ∀ p ∈ parts, Solid p.toList) :
    flags.read? (" | ".intercalate parts) =
      parts.foldlM (fun bits p => (flags.part? p.toList).map (bits ||| ·)) 0 := by
  have hlist : (" | ".intercalate parts).toList =
      [' ', '|', ' '].intercalate (parts.map String.toList) := String.toList_intercalate
  rw [read?, hlist]
  cases parts with
  | nil => rfl
  | cons p rest =>
    have hfirst := hsolid p List.mem_cons_self
    obtain ⟨c, hc⟩ := List.exists_mem_of_ne_nil _ hfirst.1
    have hin : c ∈ [' ', '|', ' '].intercalate ((p :: rest).map String.toList) := by
      cases rest <;> simp [List.intercalate_cons_cons, hc]
    have hpieces := pieces_intercalate [] (List.forall_mem_map.2 hsolid) (by simp) (.inl rfl)
    rw [List.nil_append] at hpieces
    rw [if_neg (trim_ne_nil hin (hfirst.2 c hc).1),
      ← List.foldlM_map (g := fun bits p => (flags.part? p).map (bits ||| ·)) (f := trim), hpieces,
      List.foldlM_map]

theorem Legible.foldlM_named (h : flags.Legible) {names : List (String × Nat)}
    (hnames : ∀ flag ∈ names, flag ∈ flags.names) (seen : Nat) :
    (names.map Prod.fst).foldlM (fun bits p => (flags.part? p.toList).map (bits ||| ·)) seen =
      some (names.foldl (fun seen flag => seen ||| flag.2) seen) := by
  induction names generalizing seen with
  | nil => rfl
  | cons flag names ih =>
    rw [List.map_cons, List.foldlM_cons, h.part flag (hnames flag List.mem_cons_self)]
    exact ih (fun f hf => hnames f (List.mem_cons_of_mem _ hf)) _

theorem read?_write_bits (hflags : flags.Legible) (hbits : bits < 2 ^ flags.width) :
    flags.read? (flags.write bits) = some bits := by
  have hsub : ∀ flag ∈ flags.named bits, flag ∈ flags.names := fun flag hf =>
    (List.mem_filter.1 hf).1
  have hnamed := hflags.foldlM_named hsub 0
  have hall : (flags.named bits).foldl (fun seen flag => seen ||| flag.2) 0
      ||| flags.unnamed bits = bits := named_or_unnamed hflags.bit (Nat.zero_or _)
  have hsolid : ∀ p ∈ (flags.named bits).map Prod.fst, Solid p.toList := by
    rintro _ hp
    obtain ⟨flag, hflag, rfl⟩ := List.mem_map.1 hp
    exact hflags.solid flag (hsub flag hflag)
  simp only [write]
  split
  · next hrest =>
    rw [hrest, Nat.or_zero] at hall
    rw [List.append_nil, read?_intercalate hsolid, hnamed, hall]
  · rw [read?_intercalate, List.foldlM_append, hnamed]
    · have hrest := part?_hexPart (Nat.lt_of_le_of_lt (unnamed_le flags bits) hbits)
      simp [hrest, hall, -String.toList_append]
    · intro p hp
      rcases List.mem_append.1 hp with hp | hp
      · exact hsolid p hp
      · rw [List.mem_singleton.1 hp]
        exact solid_hexPart _

end FlagNames
end PlanLowering.Text
