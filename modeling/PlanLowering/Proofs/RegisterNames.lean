import PlanLowering.Proofs.Numerals
import PlanLowering.Register.Basic

/-!
# What registers are called

A register has a name in the calling convention and a number in its file, and one register is the
frame pointer as well. The number is read like any other numeral, so lookup also takes it with a
plus sign or with zeros in front, and this is all that it takes besides.
-/

namespace PlanLowering

/-- What stands in front of a register's number. -/
def RegisterFile.letter : RegisterFile → Char
  | .gpr => 'x'
  | .fpr => 'f'

namespace Register

/-- The texts that name a register. -/
inductive Names : String → Register → Prop where
  | convention (r : Register) : Names r.name r
  | number (r : Register) : Names (.singleton r.file.letter ++ r.index.val.repr) r
  | framePointer : Names "fp" s0

/-- The number of a register with a plus sign, with zeros or with both in front. -/
def Padded (text : String) (r : Register) : Prop :=
  ∃ plus zeros, (plus = true ∨ 0 < zeros) ∧
    text = .singleton r.file.letter ++ .ofList (Text.padding plus zeros) ++ r.index.val.repr

def Numbers (text : String) (r : Register) : Prop :=
  ∃ digits, text.toList = r.file.letter :: digits ∧ Text.unsigned? 10 digits = some r.index.val

variable {r : Register} {text : String}

theorem numbers_iff : Numbers text r ↔
    text = .singleton r.file.letter ++ r.index.val.repr ∨ Padded text r := by
  have hlist (plus zeros) :
      text = .singleton r.file.letter ++ .ofList (Text.padding plus zeros) ++ r.index.val.repr ↔
        text.toList =
          r.file.letter :: (Text.padding plus zeros ++ Nat.toDigits 10 r.index.val) := by
    rw [← String.toList_inj]
    simp [Nat.repr_eq_ofList_toDigits]
  constructor
  · rintro ⟨digits, htext, hread⟩
    obtain ⟨plus, zeros, rfl⟩ := (Text.unsigned?_eq_some_iff (by omega) (by omega)).1 hread
    rw [← hlist] at htext
    by_cases hpadded : plus = true ∨ 0 < zeros
    · exact .inr ⟨plus, zeros, hpadded, htext⟩
    · obtain ⟨rfl, rfl⟩ : plus = false ∧ zeros = 0 := by simpa using hpadded
      exact .inl (by simpa [Text.padding] using htext)
  · intro h
    obtain ⟨plus, zeros, htext⟩ : ∃ plus zeros, text =
        .singleton r.file.letter ++ .ofList (Text.padding plus zeros) ++ r.index.val.repr := by
      rcases h with h | ⟨plus, zeros, -, h⟩
      · exact ⟨false, 0, by simpa [Text.padding] using h⟩
      · exact ⟨plus, zeros, h⟩
    exact ⟨_, (hlist _ _).1 htext,
      (Text.unsigned?_eq_some_iff (by omega) (by omega)).2 ⟨plus, zeros, rfl⟩⟩

/-- Names of the convention that begin with a file's letter go on with another letter. -/
theorem unsigned?_tail_name (file : RegisterFile) (r : Register)
    (h : r.name.toList.head? = some file.letter) :
    Text.unsigned? 10 r.name.toList.tail = none := by
  obtain ⟨own, index⟩ := r
  revert index
  cases own <;> cases file <;> decide +kernel

theorem name_ne_fp (r : Register) : r.name ≠ "fp" := by
  obtain ⟨file, index⟩ := r
  revert index
  cases file <;> decide +kernel

theorem Numbers.ne_fp (h : Numbers text r) : text ≠ "fp" := by
  obtain ⟨digits, htext, hread⟩ := h
  rintro rfl
  obtain ⟨-, rfl⟩ := List.cons.inj htext
  cases hread

theorem Numbers.ne_name (h : Numbers text r) (r' : Register) : r'.name ≠ text := by
  obtain ⟨digits, htext, hread⟩ := h
  rintro rfl
  have hnone := unsigned?_tail_name r.file r' (by simp [htext])
  simp [htext, hread] at hnone

theorem Padded.not_names (h : Padded text r) : ¬ Names text r := by
  have hnumbers := numbers_iff.2 (.inr h)
  intro hnames
  cases hnames with
  | convention r => exact hnumbers.ne_name r rfl
  | framePointer => exact hnumbers.ne_fp rfl
  | number r =>
    obtain ⟨plus, zeros, hpadded, htext⟩ := h
    have hlength := congrArg String.length htext
    cases plus <;> simp [Text.padding] at hlength hpadded
    omega

theorem find?_name (r : Register) :
    (all .gpr ++ all .fpr).find? (·.name = r.name) = some r := by
  obtain ⟨file, index⟩ := r
  revert index
  cases file <;> decide +kernel

theorem find?_eq_some_iff :
    (all .gpr ++ all .fpr).find? (·.name = text) = some r ↔ r.name = text := by
  constructor
  · intro h
    simpa using List.find?_some h
  · rintro rfl
    exact find?_name r

theorem numbered?_eq_some_iff {file : RegisterFile} {digits : List Char} :
    numbered? file digits = some r ↔
      r.file = file ∧ Text.unsigned? 10 digits = some r.index.val := by
  obtain ⟨own, index⟩ := r
  rw [numbered?]
  constructor
  · intro h
    obtain ⟨n, hn, h⟩ := Option.bind_eq_some_iff.1 h
    split at h
    · cases h
      exact ⟨rfl, hn⟩
    · cases h
  · rintro ⟨rfl, h⟩
    simp [h]

/-- The three ways in which a text is read exclude each other, so their order does not matter. -/
theorem lookup?_reads : lookup? text = some r ↔
    (text = "fp" ∧ r = s0) ∨ r.name = text ∨ Numbers text r := by
  by_cases hfp : text = "fp"
  · subst hfp
    have hnumber : ¬ Numbers "fp" r := fun h => h.ne_fp rfl
    simp [lookup?, name_ne_fp, hnumber, eq_comm (a := r)]
  · rw [lookup?, if_neg hfp]
    cases hfind : (all .gpr ++ all .fpr).find? (·.name = text) with
    | some found =>
      obtain rfl := find?_eq_some_iff.1 hfind
      have hnumber : ¬ Numbers found.name r := fun h => h.ne_name found rfl
      have hname : r.name = found.name ↔ found = r := by
        rw [← find?_eq_some_iff, hfind, Option.some.injEq]
      simp [hfp, hnumber, hname]
    | none =>
      have hname : r.name ≠ text := by
        intro h
        rw [find?_eq_some_iff.2 h] at hfind
        cases hfind
      simp only [hfp, hname, false_and, false_or]
      obtain ⟨file, index⟩ := r
      split
      · next digits hx =>
        cases file <;> simp [numbered?_eq_some_iff, Numbers, RegisterFile.letter, hx]
      · next digits hf =>
        cases file <;> simp [numbered?_eq_some_iff, Numbers, RegisterFile.letter, hf]
      · cases file <;> simp_all [Numbers, RegisterFile.letter]

theorem lookup?_eq_some_iff : lookup? text = some r ↔ Names text r ∨ Padded text r := by
  rw [lookup?_reads, numbers_iff]
  constructor
  · rintro (⟨rfl, rfl⟩ | rfl | rfl | h)
    · exact .inl .framePointer
    · exact .inl (.convention r)
    · exact .inl (.number r)
    · exact .inr h
  · rintro ((_ | _ | _) | h)
    · exact .inr (.inl rfl)
    · exact .inr (.inr (.inl rfl))
    · exact .inl ⟨rfl, rfl⟩
    · exact .inr (.inr (.inr h))

/-- Lookup finds a register under each of its names and under its padded number. So it takes
exactly the names of registers where, and only where, a text is no padded number. -/
theorem lookup?_names_iff (text : String) :
    (∀ r, lookup? text = some r ↔ Names text r ∨ Padded text r) ∧
      ((∀ r, lookup? text = some r ↔ Names text r) ↔ ∀ r, ¬ Padded text r) := by
  refine ⟨fun r => lookup?_eq_some_iff, ?_, ?_⟩
  · intro h r hpadded
    exact hpadded.not_names ((h r).1 (lookup?_eq_some_iff.2 (.inr hpadded)))
  · intro h r
    rw [lookup?_eq_some_iff, or_iff_left (h r)]

/-- A number with a sign is found, although no register is called like that. -/
theorem signed_number_found : ¬ ∀ r, lookup? "x+5" = some r ↔ Names "x+5" r := by
  intro h
  have hpadded : Padded "x+5" t0 := ⟨true, 0, .inl rfl, by decide⟩
  exact hpadded.not_names ((h t0).1 (lookup?_eq_some_iff.2 (.inr hpadded)))

end Register
end PlanLowering
