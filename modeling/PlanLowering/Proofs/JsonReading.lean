import PlanLowering.Json.Reader
import PlanLowering.Proofs.JsonTokens

/-!
# A JSON value is read back from its text

A value made of texts, whole numbers of 64 bits, truth values and null is read from its own text,
as long as its arrays and objects stand inside no more of each other than the reader follows.
-/

namespace PlanLowering.Json

/-- A value whose text is read as that value. -/
inductive Plain : Json → Prop
  | word {value : Json} (h : value.IsWord) : Plain value
  | str (s : String) : Plain (.str s)
  | arr {items : List Json} (h : ∀ item ∈ items, Plain item) : Plain (.arr items)
  | obj {fields : List (String × Json)} (h : ∀ field ∈ fields, Plain field.2) : Plain (.obj fields)

mutual

/-- Greatest number of arrays and objects that stand inside one another. -/
def nesting : Json → Nat
  | .arr items => itemNesting items + 1
  | .obj fields => fieldNesting fields + 1
  | _ => 0

def itemNesting : List Json → Nat
  | [] => 0
  | item :: rest => max item.nesting (itemNesting rest)

def fieldNesting : List (String × Json) → Nat
  | [] => 0
  | (_, value) :: rest => max value.nesting (fieldNesting rest)

end

theorem IsWord.tokens {value : Json} (h : value.IsWord) : value.tokens = [.literal value] := by
  cases value with
  | null | bool | int => rfl
  | _ => exact h.elim

theorem nesting_le_itemNesting {items : List Json} {item : Json} (h : item ∈ items) :
    item.nesting ≤ itemNesting items := by
  induction items with
  | nil => cases h
  | cons first rest ih =>
    rw [itemNesting]
    rcases List.mem_cons.1 h with rfl | h
    · exact Nat.le_max_left _ _
    · exact Nat.le_trans (ih h) (Nat.le_max_right _ _)

theorem nesting_le_fieldNesting {fields : List (String × Json)} {field : String × Json}
    (h : field ∈ fields) : field.2.nesting ≤ fieldNesting fields := by
  induction fields with
  | nil => cases h
  | cons first rest ih =>
    rw [fieldNesting]
    rcases List.mem_cons.1 h with rfl | h
    · exact Nat.le_max_left _ _
    · exact Nat.le_trans (ih h) (Nat.le_max_right _ _)

section Values

theorem plain_bool (b : Bool) : (Json.bool b).Plain := .word trivial

theorem plain_natCast {n : Nat} (h : n < 0x1_0000_0000_0000_0000) : (Json.int n).Plain :=
  .word (by simpa [IsWord] using h)

theorem plain_toInt (v : Int64) : (Json.int v.toInt).Plain := by
  have hle := v.le_toInt
  have hlt := v.toInt_lt
  refine .word ?_
  rw [IsWord]
  omega

theorem areReadable_of_forall {items : List Json} (h : ∀ item ∈ items, item.isReadable) :
    areReadable items := by
  induction items with
  | nil => rfl
  | cons item rest ih =>
    rw [List.forall_mem_cons] at h
    rw [areReadable, h.1, ih h.2, Bool.and_self]

theorem haveReadable_of_forall {fields : List (String × Json)}
    (h : ∀ field ∈ fields, field.2.isReadable) : haveReadable fields := by
  induction fields with
  | nil => rfl
  | cons field rest ih =>
    rw [List.forall_mem_cons] at h
    rw [haveReadable, h.1, ih h.2, Bool.and_self]

theorem Plain.isReadable {value : Json} (h : value.Plain) : value.isReadable := by
  induction h with
  | @word value h =>
    cases value with
    | null | bool | int => rfl
    | _ => exact h.elim
  | str s => rfl
  | arr h ih => exact areReadable_of_forall ih
  | obj h ih => exact haveReadable_of_forall ih

end Values

section Tokens

structure Findable (tokens : List Token) : Prop where
  spelled : ∀ t ∈ tokens, t.IsSpelled
  separated : Token.Separated tokens

variable {front back : List Token} {t : Token}

theorem Findable.nil : Findable [] := ⟨by simp, List.isChain_nil⟩

theorem Findable.singleton (ht : t.IsSpelled) : Findable [t] :=
  ⟨by simpa using ht, List.isChain_singleton t⟩

/-- A token that is no number and no word separates what stands on its sides. -/
theorem Findable.join (hfront : Findable front) (hback : Findable back) (ht : t.IsSpelled)
    (hmark : ¬ t.IsLiteral) : Findable (front ++ t :: back) where
  spelled := by
    simp only [List.forall_mem_append, List.forall_mem_cons]
    exact ⟨hfront.spelled, ht, hback.spelled⟩
  separated := by
    refine hfront.separated.append (List.isChain_cons.2 ⟨?_, hback.separated⟩) ?_
    · rintro u - ⟨hliteral, -⟩
      exact hmark hliteral
    · rintro s - u hu ⟨-, hliteral⟩
      rw [List.head?_cons, Option.mem_some_iff] at hu
      exact hmark (hu ▸ hliteral)

theorem Findable.cons (hback : Findable back) (ht : t.IsSpelled) (hmark : ¬ t.IsLiteral) :
    Findable (t :: back) :=
  Findable.nil.join hback ht hmark

theorem findable_itemTokens {items : List Json} (h : ∀ item ∈ items, Findable item.tokens) :
    Findable (itemTokens items) := by
  induction items with
  | nil => exact Findable.nil
  | cons item rest ih =>
    have hitem := h item List.mem_cons_self
    cases rest with
    | nil => exact hitem
    | cons next rest =>
      exact hitem.join (ih fun item hi => h item (List.mem_cons_of_mem _ hi)) trivial id

theorem findable_fieldTokens {fields : List (String × Json)}
    (h : ∀ field ∈ fields, Findable field.2.tokens) : Findable (fieldTokens fields) := by
  induction fields with
  | nil => exact Findable.nil
  | cons field rest ih =>
    obtain ⟨key, value⟩ := field
    have hvalue : Findable value.tokens := h (key, value) List.mem_cons_self
    cases rest with
    | nil => exact (hvalue.cons (t := .colon) trivial id).cons (t := .text key) trivial id
    | cons next rest =>
      have hrest := ih fun field hf => h field (List.mem_cons_of_mem _ hf)
      have hvalues := hvalue.join hrest (t := .comma) trivial id
      exact (hvalues.cons (t := .colon) trivial id).cons (t := .text key) trivial id

theorem Plain.findable_tokens {value : Json} (h : value.Plain) : Findable value.tokens := by
  induction h with
  | word h =>
    rw [h.tokens]
    exact Findable.singleton h
  | str s => exact Findable.singleton (t := .text s) trivial
  | arr h ih =>
    have hitems := (findable_itemTokens ih).join Findable.nil (t := .closeArray) trivial id
    exact hitems.cons (t := .openArray) trivial id
  | obj h ih =>
    have hfields := (findable_fieldTokens ih).join Findable.nil (t := .closeObject) trivial id
    exact hfields.cons (t := .openObject) trivial id

theorem lex_render {value : Json} (h : value.Plain) : lex value.render = some value.tokens := by
  have htext : value.render.toList = value.tokens.flatMap fun t => t.render.toList := by
    rw [render, String.toList_join, List.flatMap_map]
  rw [lex, htext, Token.lexFrom_tokens h.findable_tokens.spelled h.findable_tokens.separated]
  rfl

end Tokens

section Reading

/-- The reading goes on with a value inside of the frames. Behind an opening bracket only the
closing one would be taken otherwise. -/
def Reading.Takes (state : Reading) (frames : List Frame) : Prop :=
  ∀ token, token ≠ .closeArray → state.step token = startValue frames token

theorem takes_expectValue (frames : List Frame) : (Reading.expectValue frames).Takes frames :=
  fun _ _ => rfl

theorem takes_arrayStart (frames : List Frame) :
    (Reading.arrayStart frames).Takes (.array [] :: frames) := by
  intro token htoken
  cases token with
  | closeArray => exact absurd rfl htoken
  | _ => rfl

def Reading.TakesKey (state : Reading) (fields : List (String × Json)) (frames : List Frame) :
    Prop :=
  ∀ key, state.step (.text key) = some (.expectColon (some fields) key frames)

theorem takesKey_objectStart (frames : List Frame) :
    (Reading.objectStart frames).TakesKey [] frames :=
  fun _ => rfl

theorem takesKey_expectKey (fields : List (String × Json)) (frames : List Frame) :
    (Reading.expectKey (some fields) frames).TakesKey fields frames :=
  fun _ => rfl

theorem Reading.run_cons {state next : Reading} {token : Token} (h : state.step token = some next)
    (rest : List Token) : state.run (token :: rest) = next.run rest := by
  rw [Reading.run, h]

def ReadsBack (value : Json) (frames : List Frame) : Prop :=
  ∀ state : Reading, state.Takes frames → ∀ rest,
    state.run (value.tokens ++ rest) = (Reading.complete value frames).run rest

theorem close_of_lt {frames : List Frame} (h : frames.length < maxNesting) (value : Json) :
    close frames value = .complete value frames := by
  rw [close, if_pos h]

theorem run_itemTokens {items done : List Json} {frames : List Frame} {state : Reading}
    (hitems : ∀ item ∈ items, ∀ done, ReadsBack item (.array done :: frames)) (hne : items ≠ [])
    (hstate : state.Takes (.array done :: frames)) (hdepth : frames.length < maxNesting)
    (rest : List Token) :
    state.run (itemTokens items ++ .closeArray :: rest) =
      (Reading.complete (.arr (done.reverse ++ items)) frames).run rest := by
  induction items generalizing done state with
  | nil => exact absurd rfl hne
  | cons item more ih =>
    have hitem := hitems item List.mem_cons_self done _ hstate
    cases more with
    | nil =>
      rw [itemTokens, hitem, Reading.run_cons rfl, close_of_lt hdepth, List.reverse_cons]
    | cons next more =>
      have hsplit : itemTokens (item :: next :: more) ++ .closeArray :: rest =
          item.tokens ++ .comma :: (itemTokens (next :: more) ++ .closeArray :: rest) := by
        simp [itemTokens]
      rw [hsplit, hitem, Reading.run_cons rfl,
        ih (fun item hi => hitems item (List.mem_cons_of_mem _ hi)) (List.cons_ne_nil _ _)
          (takes_expectValue _)]
      simp

theorem run_fieldTokens {fields done : List (String × Json)} {frames : List Frame}
    {state : Reading}
    (hfields : ∀ field ∈ fields, ∀ done key, ReadsBack field.2 (.object done key :: frames))
    (hne : fields ≠ []) (hstate : state.TakesKey done frames) (hdepth : frames.length < maxNesting)
    (rest : List Token) :
    state.run (fieldTokens fields ++ .closeObject :: rest) =
      (Reading.complete (.obj (done.reverse ++ fields)) frames).run rest := by
  induction fields generalizing done state with
  | nil => exact absurd rfl hne
  | cons field more ih =>
    obtain ⟨key, value⟩ := field
    have hvalue := hfields (key, value) List.mem_cons_self (some done) key _ (takes_expectValue _)
    cases more with
    | nil =>
      rw [fieldTokens, List.cons_append, List.cons_append, Reading.run_cons (hstate key),
        Reading.run_cons rfl, hvalue, Reading.run_cons rfl, Option.map_some, objectOf,
        close_of_lt hdepth, List.reverse_cons]
    | cons next more =>
      have hsplit : fieldTokens ((key, value) :: next :: more) ++ .closeObject :: rest =
          .text key :: .colon :: (value.tokens ++ .comma ::
            (fieldTokens (next :: more) ++ .closeObject :: rest)) := by
        simp [fieldTokens]
      rw [hsplit, Reading.run_cons (hstate key), Reading.run_cons rfl, hvalue,
        Reading.run_cons rfl, Option.map_some,
        ih (fun field hf => hfields field (List.mem_cons_of_mem _ hf)) (List.cons_ne_nil _ _)
          (takesKey_expectKey _ _)]
      simp

/-- Reading goes over the tokens of a value that is not nested too deep and completes it. -/
theorem Plain.readsBack {value : Json} (h : value.Plain) {frames : List Frame}
    (hdepth : value.nesting + frames.length ≤ maxNesting) : ReadsBack value frames := by
  induction h generalizing frames with
  | word h =>
    intro state hstate rest
    rw [h.tokens, List.singleton_append]
    exact Reading.run_cons (hstate (.literal _) (by simp)) rest
  | str s =>
    intro state hstate rest
    exact Reading.run_cons (hstate (.text s) (by simp)) rest
  | @arr items h ih =>
    intro state hstate rest
    rw [nesting] at hdepth
    have hitems : ∀ item ∈ items, ∀ done, ReadsBack item (.array done :: frames) := by
      intro item hitem done
      have hle := nesting_le_itemNesting hitem
      refine ih item hitem ?_
      rw [List.length_cons]
      omega
    rw [tokens, List.cons_append, List.cons_append, List.append_assoc,
      Reading.run_cons (hstate .openArray (by simp))]
    by_cases hne : items = []
    · subst hne
      rw [itemTokens, List.nil_append, List.singleton_append, Reading.run_cons rfl,
        close_of_lt (by omega)]
    · exact run_itemTokens hitems hne (takes_arrayStart _) (by omega) rest
  | @obj fields h ih =>
    intro state hstate rest
    rw [nesting] at hdepth
    have hfields : ∀ field ∈ fields, ∀ done key,
        ReadsBack field.2 (.object done key :: frames) := by
      intro field hfield done key
      have hle := nesting_le_fieldNesting hfield
      refine ih field hfield ?_
      rw [List.length_cons]
      omega
    rw [tokens, List.cons_append, List.cons_append, List.append_assoc,
      Reading.run_cons (hstate .openObject (by simp))]
    by_cases hne : fields = []
    · subst hne
      rw [fieldTokens, List.nil_append, List.singleton_append, Reading.run_cons rfl,
        close_of_lt (by omega)]
    · exact run_fieldTokens hfields hne (takesKey_objectStart frames) (by omega) rest

/-- The text of a value that is not nested too deep is read as that value. -/
theorem parse?_render {value : Json} (h : value.Plain) (hdepth : value.nesting ≤ maxNesting) :
    parse? value.render = some value := by
  have hread : (Reading.expectValue []).run (value.tokens ++ []) = some (.complete value []) :=
    h.readsBack (by simpa using hdepth) _ (takes_expectValue []) []
  rw [List.append_nil] at hread
  rw [parse?, lex_render h, Option.bind_some, ofTokens?, hread]

end Reading

end PlanLowering.Json
