import Mathlib.Data.List.Chain
import Mathlib.Data.List.TakeWhile
import PlanLowering.Json.Token
import PlanLowering.Proofs.Numerals

/-!
# JSON tokens are found again in their text

The text of a list of tokens is split into just these tokens, as long as no two numbers or words
stand side by side. Only whole numbers of 64 bits are considered, and no text with half of a
surrogate pair.
-/

namespace PlanLowering.Json

section Numbers

variable {n : Nat} {cs : List Char}

theorem toDigits_head {base : Nat} (hone : 1 < base)
    (h : (Nat.toDigits base n).head? = some '0') : n = 0 := by
  induction n using Nat.strongRecOn with
  | ind n ih =>
    by_cases hn : n < base
    · rw [Nat.toDigits_of_lt_base hn, List.head?_cons, Option.some.injEq] at h
      exact Nat.digitChar_eq_zero.1 h
    · obtain ⟨c, cs, hcs⟩ := List.exists_cons_of_ne_nil (Nat.toDigits_ne_nil (n := n / base))
      rw [Nat.toDigits_of_base_le hone (by omega), hcs] at h
      have hzero := ih (n / base) (Nat.div_lt_self (by omega) hone) (by rw [hcs]; exact h)
      rw [Nat.div_eq_zero_iff] at hzero
      omega

theorem le_ofDigitChars (cs : List Char) (n : Nat) : n ≤ Nat.ofDigitChars 10 cs n := by
  induction cs generalizing n with
  | nil => exact Nat.le_refl _
  | cons c cs ih =>
    rw [Nat.ofDigitChars_cons]
    exact Nat.le_trans (by omega) (ih _)

theorem appendDigits_fits (h : Nat.ofDigitChars 10 cs n < 0x1_0000_0000_0000_0000) :
    appendDigits n cs = (Nat.ofDigitChars 10 cs n, []) := by
  induction cs generalizing n with
  | nil => rfl
  | cons c cs ih =>
    rw [Nat.ofDigitChars_cons] at h ⊢
    have hlonger : n * 10 + (c.toNat - '0'.toNat) = 10 * n + (c.toNat - '0'.toNat) := by omega
    have hle := le_ofDigitChars cs (10 * n + (c.toNat - '0'.toNat))
    simp only [appendDigits, hlonger]
    rw [if_pos (by omega), ih h]

theorem nearestFloat_le (n : Nat) (h : n ≠ 0) : nearestFloat n ≤ 2 * n := by
  have hunit : 1 <<< (n.log2 - 52) ≤ n := by
    rw [Nat.shiftLeft_eq, Nat.one_mul]
    exact Nat.le_trans (Nat.pow_le_pow_right (by decide) (Nat.sub_le _ _)) (Nat.log2_self_le h)
  have hkept := Nat.div_mul_le_self n (1 <<< (n.log2 - 52))
  unfold nearestFloat
  dsimp only
  split
  · rw [Nat.add_mul, Nat.one_mul]
    omega
  · omega

/-- A number of 64 bits is far from the limit of the floats. -/
theorem word_not_exceeds (h : n < 0x1_0000_0000_0000_0000) :
    (Magnitude.ofDigits (Nat.toDigits 10 n) [] 0).exceedsFloat = false := by
  have hdigits : appendDigits 0 (Nat.toDigits 10 n) = (n, []) := by
    rw [appendDigits_fits, Nat.ofDigitChars_ten_toDigits]
    rwa [Nat.ofDigitChars_ten_toDigits]
  have hmagnitude : Magnitude.ofDigits (Nat.toDigits 10 n) [] 0 = ⟨n, 0⟩ := by
    simp [Magnitude.ofDigits, hdigits, appendDigits]
  rw [hmagnitude, Magnitude.exceedsFloat]
  by_cases hzero : n = 0
  · simp [hzero]
  · have hnear := nearestFloat_le n hzero
    have hone : nearestFloat 1 = 1 := by decide
    have hlimit : 0x2_0000_0000_0000_0000 < floatLimit := by decide
    simp [hzero, maxPower, hone]
    omega

theorem number?_digits (negative : Bool) (h : n < 0x1_0000_0000_0000_0000)
    (hsign : negative → n ≠ 0) :
    number? ((if negative then ['-'] else []) ++ Nat.toDigits 10 n) =
      some (.int (if negative then -n else n)) := by
  have hdigits : ∀ c ∈ Nat.toDigits 10 n, c.isDigit := fun c hc =>
    Nat.isDigit_of_mem_toDigits (by decide) (by decide) hc
  have htake : (Nat.toDigits 10 n).takeWhile Char.isDigit = Nat.toDigits 10 n :=
    List.takeWhile_eq_self_iff.2 hdigits
  have hdrop : (Nat.toDigits 10 n).dropWhile Char.isDigit = [] :=
    List.dropWhile_eq_nil_iff.2 hdigits
  have hread : Text.digits? 10 (Nat.toDigits 10 n) = some n :=
    Text.digits?_toDigits (by decide) (by decide) n
  have hfits := word_not_exceeds h
  have hnozero : ¬ ((Nat.toDigits 10 n).head? = some '0' ∧ (Nat.toDigits 10 n).length ≠ 1) := by
    rintro ⟨hhead, hlength⟩
    rw [toDigits_head (by decide) hhead] at hlength
    exact hlength rfl
  have hminus : ∀ rest, Nat.toDigits 10 n ≠ '-' :: rest := fun rest hcs =>
    absurd (hdigits '-' (by rw [hcs]; exact List.mem_cons_self)) (by decide)
  cases negative with
  | true =>
    rw [if_pos rfl, List.singleton_append, number?]
    dsimp only
    rw [htake, hdrop, if_neg hnozero, hread]
    simp [hfits, hsign]
  | false =>
    rw [if_neg Bool.false_ne_true, List.nil_append, number?]
    · rw [htake, hdrop, if_neg hnozero, hread]
      simp [hfits]
    · exact hminus

theorem number?_toString {v : Int} (h : v.natAbs < 0x1_0000_0000_0000_0000) :
    number? (toString v).toList = some (.int v) := by
  cases v with
  | ofNat n => simpa [Int.repr_eq_if] using number?_digits false h
  | negSucc n =>
    have htext : (toString (Int.negSucc n)).toList = '-' :: Nat.toDigits 10 (n + 1) := by
      simp [Int.repr_eq_if]
    rw [htext, Int.negSucc_eq]
    exact number?_digits (n := n + 1) true h (by simp)

end Numbers

section Text

variable {c : Char} {cs seen rest : List Char} {found : List Token}

theorem digit?_code (h : c.toNat < 0x20) :
    Text.digit? 16 (Nat.digitChar (c.toNat / 16)) = some (c.toNat / 16) ∧
      Text.digit? 16 (Nat.digitChar (c.toNat % 16)) = some (c.toNat % 16) :=
  ⟨Text.digit?_digitChar (by omega) (Nat.le_refl _),
    Text.digit?_digitChar (Nat.mod_lt _ (by decide)) (Nat.le_refl _)⟩

/-- Inside a text the split takes an escaped character for the character. -/
theorem lexFrom_escaped (c : Char) (seen rest : List Char) (found : List Token) :
    lexFrom (.text (some seen)) found (escaped c ++ rest) =
      lexFrom (.text (some (c :: seen))) found rest := by
  unfold escaped
  split
  case h_8 =>
    next hquote hslash _ _ _ _ _ =>
    split
    · next hcode =>
      obtain ⟨hhigh, hlow⟩ := digit?_code hcode
      have hzero : Text.digit? 16 '0' = some 0 := by decide
      have hvalue : c.toNat / 16 * 16 + c.toNat % 16 = c.toNat := Nat.div_add_mod' _ _
      have hchar : codeChar (some seen) none c.toNat = .text (some (c :: seen)) := by
        rw [codeChar, if_neg (by omega), if_neg (by omega), Option.map_some, Char.ofNat_toNat]
      simp [lexFrom, Lexing.step, textStep, escapeStep, hzero, hhigh, hlow, hvalue, hchar]
    · next hcode =>
      simp only [List.singleton_append, lexFrom, Lexing.step, textStep]
      rw [if_neg hquote, if_neg hslash, if_neg hcode]
      rfl
  all_goals rfl

theorem lexFrom_escapedAll (cs seen rest : List Char) (found : List Token) :
    lexFrom (.text (some seen)) found (cs.flatMap escaped ++ rest) =
      lexFrom (.text (some (cs.reverse ++ seen))) found rest := by
  induction cs generalizing seen with
  | nil => rfl
  | cons c cs ih =>
    rw [List.flatMap_cons, List.append_assoc, lexFrom_escaped, ih]
    simp

def Stops (rest : List Char) : Prop := ∀ c ∈ rest.head?, ¬ isBare c

theorem startToken_bare (h : isBare c) : startToken c = some (.bare [c], []) := by
  unfold startToken
  split
  case h_12 => rw [if_pos h]
  all_goals exact absurd h (by decide)

theorem lexFrom_bare (h : ∀ c ∈ cs, isBare c) (seen rest : List Char) (found : List Token) :
    lexFrom (.bare seen) found (cs ++ rest) = lexFrom (.bare (cs.reverse ++ seen)) found rest := by
  induction cs generalizing seen with
  | nil => rfl
  | cons c cs ih =>
    have hc := h c List.mem_cons_self
    rw [List.cons_append, lexFrom]
    simp only [Lexing.step, if_pos hc]
    rw [List.reverse_nil, List.nil_append, ih (fun c hc => h c (List.mem_cons_of_mem _ hc))]
    simp

/-- A number or a word is a token as soon as something else follows. -/
theorem lexFrom_literal {value : Json} (hbare : ∀ c ∈ cs, isBare c) (hne : cs ≠ [])
    (hvalue : literal? cs = some value) (hrest : Stops rest) (found : List Token) :
    lexFrom .between found (cs ++ rest) = lexFrom .between (.literal value :: found) rest := by
  obtain ⟨first, more, rfl⟩ := List.exists_cons_of_ne_nil hne
  have hfirst : lexFrom .between found (first :: more ++ rest) =
      lexFrom (.bare [first]) found (more ++ rest) := by
    rw [List.cons_append, lexFrom]
    simp only [Lexing.step, startToken_bare (hbare first List.mem_cons_self)]
    rfl
  rw [hfirst, lexFrom_bare fun c hc => hbare c (List.mem_cons_of_mem _ hc)]
  have hseen : (more.reverse ++ [first]).reverse = first :: more := by simp
  cases rest with
  | nil => simp [lexFrom, Lexing.finish, hseen, hvalue]
  | cons c rest =>
    have hc : ¬ isBare c := hrest c rfl
    rw [lexFrom, lexFrom]
    simp only [Lexing.step, if_neg hc, hseen, hvalue]
    cases startToken c <;> simp

end Text

def IsWord : Json → Prop
  | .null => True
  | .bool _ => True
  | .int v => v.natAbs < 0x1_0000_0000_0000_0000
  | _ => False

theorem isBare_of_isDigit {c : Char} (h : c.isDigit) : isBare c := by
  simp [isBare, Char.isAlphanum, h]

theorem IsWord.bare {value : Json} (h : value.IsWord) :
    (∀ c ∈ (literalText value).toList, isBare c) ∧ (literalText value).toList ≠ [] := by
  match value, h with
  | .null, _ => exact ⟨List.all_eq_true.1 (by decide), by decide⟩
  | .bool true, _ => exact ⟨List.all_eq_true.1 (by decide), by decide⟩
  | .bool false, _ => exact ⟨List.all_eq_true.1 (by decide), by decide⟩
  | .int v, _ =>
    have hdigits : ∀ n, ∀ c ∈ Nat.toDigits 10 n, isBare c := fun n c hc =>
      isBare_of_isDigit (Nat.isDigit_of_mem_toDigits (by decide) (by decide) hc)
    cases v with
    | ofNat n => simpa [literalText, Int.repr_eq_if] using hdigits n
    | negSucc n =>
      have hminus : isBare '-' := by decide
      simpa [literalText, Int.repr_eq_if, hminus] using hdigits (n + 1)

theorem IsWord.literal? {value : Json} (h : value.IsWord) :
    literal? (literalText value).toList = some value := by
  match value, h with
  | .null, _ => rfl
  | .bool true, _ => rfl
  | .bool false, _ => rfl
  | .int v, hv =>
    have hread := number?_toString hv
    have hword : ∀ word, number? word = none → (toString v).toList ≠ word := by
      rintro word hnone rfl
      rw [hread] at hnone
      cases hnone
    rw [Json.literal?, literalText, if_neg (hword _ rfl), if_neg (hword _ rfl),
      if_neg (hword _ rfl), hread]

namespace Token

def IsSpelled : Token → Prop
  | .literal value => value.IsWord
  | .brokenText => False
  | _ => True

def IsLiteral : Token → Prop
  | .literal _ => True
  | _ => False

def Separated : List Token → Prop := List.IsChain fun s t => ¬ (s.IsLiteral ∧ t.IsLiteral)

theorem stops_of_not_literal {t : Token} (hspelled : t.IsSpelled) (h : ¬ t.IsLiteral)
    (rest : List Char) : Stops (t.render.toList ++ rest) := by
  cases t with
  | literal value => exact absurd trivial h
  | brokenText => exact hspelled.elim
  | text s => simp [Stops, render]; decide
  | _ => simp [Stops, render]; decide

theorem lexFrom_render {t : Token} (hspelled : t.IsSpelled) {rest : List Char}
    (hrest : t.IsLiteral → Stops rest) (found : List Token) :
    lexFrom .between found (t.render.toList ++ rest) = lexFrom .between (t :: found) rest := by
  cases t with
  | literal value =>
    obtain ⟨hbare, hne⟩ := IsWord.bare hspelled
    exact lexFrom_literal hbare hne (IsWord.literal? hspelled) (hrest trivial) found
  | brokenText => exact hspelled.elim
  | text s =>
    have htext : (text s).render.toList ++ rest =
        '"' :: (s.toList.flatMap escaped ++ '"' :: rest) := by
      simp [render]
    have hopen : ∀ cs, lexFrom .between found ('"' :: cs) = lexFrom (.text (some [])) found cs :=
      fun cs => rfl
    have hclose : ∀ seen, lexFrom (.text (some seen)) found ('"' :: rest) =
        lexFrom .between (textToken (some seen) :: found) rest := fun seen => rfl
    rw [htext, hopen, lexFrom_escapedAll, hclose]
    simp [textToken]
  | _ => rfl

theorem lexFrom_tokens {tokens : List Token} (hspelled : ∀ t ∈ tokens, t.IsSpelled)
    (hseparated : Separated tokens) (found : List Token) :
    lexFrom .between found (tokens.flatMap fun t => t.render.toList) =
      some (found.reverse ++ tokens) := by
  induction tokens generalizing found with
  | nil => rfl
  | cons t tokens ih =>
    have hstops : t.IsLiteral → Stops (tokens.flatMap fun t => t.render.toList) := by
      intro hliteral
      cases tokens with
      | nil => simp [Stops]
      | cons u tokens =>
        rw [List.flatMap_cons]
        have hlinked := (List.isChain_cons_cons.1 hseparated).1
        exact stops_of_not_literal (hspelled u (by simp)) (fun hu => hlinked ⟨hliteral, hu⟩) _
    rw [List.flatMap_cons, lexFrom_render (hspelled t List.mem_cons_self) hstops,
      ih (fun t ht => hspelled t (List.mem_cons_of_mem _ ht)) hseparated.tail]
    simp

end Token

end PlanLowering.Json
