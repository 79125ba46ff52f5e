import PlanLowering.Proofs.DefinedSources
import PlanLowering.Proofs.RenumberedLegal

/-!
# Labels in legal code

Two passes put loads and casts in, the second one without knowledge of what the first one did. Each
line of their code is traced to the instruction that it is, or that it was made for. A pointer label
stays directly in front of its instruction. What is made for an instruction stands behind all that
comes before it but the pointer label that is its own, so whoever arrives at a jump target runs it.
-/

namespace PlanLowering

/-- A line of the new code, with the place in the old code of the instruction that it is, or that it
was `made` for. -/
structure LegalLine where
  index : Nat
  made : Bool
  instruction : Instruction

/-- A pointer label at that place, which stays with the instruction behind it. -/
def PointsPast (code : List Instruction) (n : Nat) : Prop :=
  ∃ label, code[n]? = some label ∧ label.isPointerLabel

variable {catalog : Catalog} {context : Context} {state state' : State} {pieces : List Piece}
variable {code out : List Instruction} {i o : Instruction} {n m : Nat} {p : Piece}

namespace LegalLine

/-- Place of the instruction that the line is. -/
def own? (l : LegalLine) : Option Nat := if l.made then none else some l.index

def becomes (l : LegalLine) (o : Instruction) : LegalLine := { l with instruction := o }

def makes (l : LegalLine) (code : List Instruction) : List LegalLine :=
  code.map fun o => { index := l.index, made := true, instruction := o }

def place (held : List LegalLine) : List (LegalLine × Piece) → List LegalLine
  | [] => held
  | (l, p) :: rest =>
    l.makes p.before ++ held ++
      if p.instruction.isPointerLabel ∧ p.after = [] then place [l.becomes p.instruction] rest
      else l.becomes p.instruction :: l.makes p.after ++ place [] rest

/-- A pass over lines that gives a piece for each of them. -/
def pass (lines : List LegalLine) (pieces : List Piece) : List LegalLine :=
  place [] (lines.zip pieces)

def ofCode (code : List Instruction) : List LegalLine :=
  code.zipIdx.map fun x => { index := x.2, made := false, instruction := x.1 }

end LegalLine

/-- The lines of legal code, by the pieces of the two passes. -/
def legalLines (code : List Instruction) (resolved cast : List Piece) : List LegalLine :=
  LegalLine.pass (LegalLine.pass (LegalLine.ofCode code) resolved) cast

open LegalLine

variable {l : LegalLine} {lines held front back : List LegalLine}

section Trace

@[simp] theorem LegalLine.map_makes (l : LegalLine) (code : List Instruction) :
    (l.makes code).map instruction = code := by
  simp [makes, Function.comp_def]

theorem LegalLine.place_instructions (held : List LegalLine) (pairs : List (LegalLine × Piece)) :
    (place held pairs).map instruction =
      Piece.place (held.map instruction) (pairs.map Prod.snd) := by
  induction pairs generalizing held with
  | nil => rfl
  | cons pair rest ih =>
    obtain ⟨l, p⟩ := pair
    rw [place, List.map_cons, Piece.place]
    by_cases hheld : p.instruction.isPointerLabel ∧ p.after = []
    · simp [hheld, ih, becomes]
    · rw [if_neg hheld, if_neg hheld]
      simp [ih, becomes]

theorem LegalLine.pass_instructions (h : lines.length = pieces.length) :
    (pass lines pieces).map instruction = Piece.layout pieces := by
  rw [pass, place_instructions, List.map_snd_zip (Nat.le_of_eq h.symm)]
  rfl

theorem LegalLine.mem_place {x : LegalLine} {pairs : List (LegalLine × Piece)} :
    x ∈ place held pairs ↔ x ∈ held ∨ ∃ pair ∈ pairs,
      x = pair.1.becomes pair.2.instruction ∨ x ∈ pair.1.makes pair.2.inserted := by
  induction pairs generalizing held with
  | nil => simp [place]
  | cons pair rest ih =>
    obtain ⟨l, p⟩ := pair
    rw [place, List.exists_mem_cons_iff]
    by_cases hheld : p.instruction.isPointerLabel ∧ p.after = []
    · rw [if_pos hheld]
      simp only [List.mem_append, ih, List.mem_singleton, Piece.inserted, hheld.2, List.append_nil,
        or_assoc, or_left_comm]
    · rw [if_neg hheld]
      simp only [List.mem_append, List.mem_cons, ih, List.not_mem_nil, false_or, Piece.inserted,
        makes, List.map_append, or_assoc, or_left_comm]

theorem LegalLine.ofCode_instructions (code : List Instruction) :
    (ofCode code).map instruction = code := by
  simp [ofCode, Function.comp_def]

end Trace

section Order

/-- Lines from the `n`-th instruction on: each instruction comes once, and what was made for it
comes in front of it or of the pointer label that stays with it. -/
inductive LegalLine.Ordered (code : List Instruction) : Nat → List LegalLine → Prop where
  | done : Ordered code code.length []
  | own {n : Nat} {i o : Instruction} {lines : List LegalLine} (hi : code[n]? = some i)
      (hpointer : o.isPointerLabel = i.isPointerLabel) (h : Ordered code (n + 1) lines) :
      Ordered code n (⟨n, false, o⟩ :: lines)
  | made {n m : Nat} {o : Instruction} {lines : List LegalLine} 
      (hm : m = n ∨ m = n + 1 ∧ PointsPast code n) (hplain : o.isPointerLabel = false)
      (h : Ordered code n lines) : Ordered code n (⟨m, true, o⟩ :: lines)

/-- What a pass may do with a line. It puts nothing around what an earlier pass put in. -/
structure LegalLine.Takes (l : LegalLine) (p : Piece) : Prop where
  pointer : p.instruction.isPointerLabel = l.instruction.isPointerLabel
  before : ∀ o ∈ p.before, o.isPointerLabel = false
  idle : l.made → p.before = []
  after : p.after = []

namespace LegalLine.Ordered

theorem makes (hm : l.index = n ∨ l.index = n + 1 ∧ PointsPast code n)
    (hplain : ∀ o ∈ out, o.isPointerLabel = false) (h : Ordered code n lines) :
    Ordered code n (l.makes out ++ lines) := by
  induction out with
  | nil => exact h
  | cons o rest ih =>
    obtain ⟨ho, hrest⟩ := List.forall_mem_cons.1 hplain
    exact .made hm ho (ih hrest)

/-- A pass keeps the order. A pointer label that is held back goes past what is made for the next
instruction, and past nothing else. -/
theorem place (h : Ordered code n lines) (hp : List.Forall₂ LegalLine.Takes lines pieces) :
    Ordered code n (LegalLine.place [] (lines.zip pieces)) ∧
      ∀ m o i, n = m + 1 → code[m]? = some i → i.isPointerLabel →
        o.isPointerLabel = i.isPointerLabel →
        Ordered code m (LegalLine.place [⟨m, false, o⟩] (lines.zip pieces)) := by
  induction h generalizing pieces with
  | done =>
    refine ⟨.done, ?_⟩
    rintro m o i hm hi _ ho
    exact .own hi ho (hm ▸ .done)
  | @own n i o lines hi hpointer _ ih =>
    obtain ⟨p, rest, htakes, hrest, rfl⟩ := List.forall₂_cons_left_iff.1 hp
    obtain ⟨hloose, hheld⟩ := ih hrest
    have hsame : p.instruction.isPointerLabel = i.isPointerLabel := htakes.pointer.trans hpointer
    have htail : Ordered code n (if p.instruction.isPointerLabel ∧ p.after = [] then
        LegalLine.place [⟨n, false, p.instruction⟩] (lines.zip rest)
        else ⟨n, false, p.instruction⟩ :: LegalLine.place [] (lines.zip rest)) := by
      by_cases hlabel : p.instruction.isPointerLabel
      · rw [if_pos ⟨hlabel, htakes.after⟩]
        exact hheld n p.instruction i rfl hi (hsame ▸ hlabel) hsame
      · rw [if_neg fun hboth => hlabel hboth.1]
        exact .own hi hsame hloose
    constructor
    · simpa [LegalLine.place, becomes, LegalLine.makes, htakes.after] using
        makes (l := ⟨n, false, o⟩) (.inl rfl) htakes.before htail
    · rintro m label j rfl hj hlabel ho
      have hown := Ordered.own hj ho htail
      simpa [LegalLine.place, becomes, LegalLine.makes, htakes.after] using
        makes (l := ⟨m + 1, false, o⟩) (.inr ⟨rfl, j, hj, hlabel⟩) htakes.before hown
  | @made n m o lines hm hplain _ ih =>
    obtain ⟨p, rest, htakes, hrest, rfl⟩ := List.forall₂_cons_left_iff.1 hp
    have hloose := (ih hrest).1
    have hquiet : p.instruction.isPointerLabel = false := htakes.pointer.trans hplain
    have hmade := Ordered.made hm hquiet hloose
    constructor
    · simpa [LegalLine.place, becomes, LegalLine.makes, htakes.after, htakes.idle rfl, hquiet]
    · rintro k label j rfl hj hlabel ho
      have hown := Ordered.own hj ho hmade
      simpa [LegalLine.place, becomes, LegalLine.makes, htakes.after, htakes.idle rfl, hquiet]

theorem owns (h : Ordered code n lines) :
    n ≤ code.length ∧ lines.filterMap own? = List.range' n (code.length - n) := by
  induction h with
  | done => simp
  | @own n i o lines hi _ _ ih =>
    obtain ⟨hlt, _⟩ := List.getElem?_eq_some_iff.1 hi
    have hcount : code.length - n = (code.length - (n + 1)) + 1 := by omega
    refine ⟨Nat.le_of_lt hlt, ?_⟩
    rw [hcount, List.range'_succ, ← ih.2]
    rfl
  | made _ _ _ ih => exact ih

/-- Whatever comes before the instruction that a line was made for stands in front of the line, but
for a pointer label directly in front of that instruction. -/
theorem behind (h : Ordered code n (front ++ l :: back)) (hmade : l.made) (hn : n ≤ m)
    (hm : m < l.index) :
    m ∈ front.filterMap own? ∨ m + 1 = l.index ∧ PointsPast code m := by
  induction front generalizing n with
  | nil =>
    cases h with
    | own => cases hmade
    | made hindex _ _ =>
      dsimp only at hm ⊢
      rcases hindex with rfl | ⟨rfl, hpoints⟩
      · omega
      · obtain rfl : m = n := by omega
        exact .inr ⟨rfl, hpoints⟩
  | cons first front ih =>
    cases h with
    | own hi _ hrest =>
      by_cases hsame : m = n
      · exact .inl (by simp [own?, hsame])
      · have hlater := ih hrest (by omega)
        simpa [own?, hsame] using hlater
    | made _ _ hrest => 
      have hlater := ih hrest hn
      simpa [own?] using hlater

theorem later (h : Ordered code n lines) : ∀ l ∈ lines, l.made → n ≤ l.index := by
  induction h with
  | done => simp
  | own _ _ _ ih =>
    rw [List.forall_mem_cons]
    refine ⟨fun hmade => ?_, fun l hl hmade => Nat.le_of_succ_le (ih l hl hmade)⟩
    cases hmade
  | made hm _ _ ih =>
    rw [List.forall_mem_cons]
    refine ⟨fun _ => ?_, ih⟩
    dsimp only
    omega

theorem past (h : Ordered code n (front ++ ⟨m, false, o⟩ :: back)) :
    ∀ l ∈ back, l.made → m < l.index := by
  induction front generalizing n with
  | nil =>
    cases h with
    | own _ _ hrest => exact hrest.later
  | cons first front ih =>
    cases h with
    | own _ _ hrest => exact ih hrest
    | made _ _ hrest => exact ih hrest

end LegalLine.Ordered

theorem LegalLine.ofCode_ordered (code : List Instruction) : Ordered code 0 (ofCode code) := by
  have hfrom : ∀ rest before : List Instruction, code = before ++ rest →
      Ordered code before.length
        ((rest.zipIdx before.length).map fun x => ⟨x.2, false, x.1⟩) := by
    intro rest
    induction rest with
    | nil =>
      intro before hcode
      rw [List.append_nil] at hcode
      exact hcode ▸ .done
    | cons i rest ih =>
      intro before hcode
      have hnext := ih (before ++ [i]) (by simp [hcode])
      have hi : code[before.length]? = some i := by simp [hcode]
      rw [List.zipIdx_cons, List.map_cons]
      exact .own hi rfl (by simpa using hnext)
  exact hfrom code [] rfl

theorem LegalLine.ofCode_adjacent {label : Instruction} (hlabel : code[n]? = some label)
    (hi : code[n + 1]? = some i) : ∃ front back, ofCode code =
      front ++ ⟨n, false, label⟩ :: ⟨n + 1, false, i⟩ :: back := by
  have hget : ∀ {m : Nat} {j : Instruction}, code[m]? = some j →
      (ofCode code)[m]? = some ⟨m, false, j⟩ := by
    intro m j hj
    simp [ofCode, hj]
  obtain ⟨hlt, hfirst⟩ := List.getElem?_eq_some_iff.1 (hget hlabel)
  obtain ⟨hlt', hsecond⟩ := List.getElem?_eq_some_iff.1 (hget hi)
  refine ⟨(ofCode code).take n, (ofCode code).drop (n + 2), ?_⟩
  calc ofCode code = (ofCode code).take n ++ (ofCode code).drop n :=
        (List.take_append_drop _ _).symm
    _ = (ofCode code).take n ++ (ofCode code)[n] :: (ofCode code)[n + 1] ::
          (ofCode code).drop (n + 2) := by
        rw [List.drop_eq_getElem_cons hlt, List.drop_eq_getElem_cons hlt']
    _ = _ := by rw [hfirst, hsecond]

theorem LegalLine.place_adjacent {x y : LegalLine} (held : List LegalLine)
    (hx : x.instruction.isPointerLabel)
    (hy : y.instruction.isPointerLabel = false)
    (h : List.Forall₂ Takes (front ++ x :: y :: back) pieces) :
    ∃ front' o o' back', place held ((front ++ x :: y :: back).zip pieces) =
      front' ++ x.becomes o :: y.becomes o' :: back' ∧
        o.isPointerLabel ∧ o'.isPointerLabel = false := by
  induction front generalizing held pieces with
  | nil =>
    obtain ⟨p, _, hp, hrest, rfl⟩ := List.forall₂_cons_left_iff.1 h
    obtain ⟨q, rest, hq, _, rfl⟩ := List.forall₂_cons_left_iff.1 hrest
    have hlabel : p.instruction.isPointerLabel := hp.pointer.trans hx
    have hplain : q.instruction.isPointerLabel = false := hq.pointer.trans hy
    refine ⟨x.makes p.before ++ held ++ y.makes q.before, p.instruction, q.instruction,
      place [] (back.zip rest), ?_, hlabel, hplain⟩
    simp [place, makes, hlabel, hplain, hp.after, hq.after]
  | cons l front ih =>
    rw [List.cons_append] at h ⊢
    obtain ⟨p, rest, hp, hrest, rfl⟩ := List.forall₂_cons_left_iff.1 h
    rw [List.zip_cons_cons, place]
    split
    · obtain ⟨front', o, o', back', hplace, ho⟩ := @ih _ [l.becomes p.instruction] hrest
      rw [hplace, ← List.append_assoc]
      exact ⟨_, o, o', back', rfl, ho⟩
    · obtain ⟨front', o, o', back', hplace, ho⟩ := @ih _ [] hrest
      rw [hplace, ← List.append_assoc, ← List.append_assoc]
      exact ⟨_, o, o', back', rfl, ho⟩

end Order

section Passes

theorem LegalLine.takes_of_precedes {keeps : Instruction → Instruction → Prop}
    {makes : Id → Instruction → Prop}
    (hkeeps : ∀ i o, keeps i o → o.isPointerLabel = i.isPointerLabel)
    (hmakes : ∀ id o, makes id o → o.isPointerLabel = false)
    (hidle : ∀ l ∈ lines, l.made → l.instruction.virtualSources = [])
    (h : List.Forall₂ (fun l p => Piece.Precedes keeps makes (instruction l) p) lines pieces) :
    List.Forall₂ Takes lines pieces := by
  refine ((List.forall₂_and_left _ _).2 ⟨hidle, h⟩).imp ?_
  rintro l p ⟨hidle, hp⟩
  refine ⟨hkeeps _ _ hp.keeps, fun o ho => ?_, fun hmade => ?_, hp.after⟩
  · obtain ⟨id, _, hmade⟩ := hp.before o ho
    exact hmakes id o hmade
  · rw [List.eq_nil_iff_forall_not_mem]
    intro o ho
    obtain ⟨id, hid, _⟩ := hp.before o ho
    rw [hidle hmade] at hid
    cases hid

theorem Instruction.WiredFrom.plain {t : Template} {source : Operand → Bool} {value : OperandValue}
    {id : Id} (h : o.WiredFrom t source value id) : o.isPointerLabel = false := by
  obtain ⟨_, _, _, _, rfl⟩ := h
  rfl

theorem Instruction.IsLi.reads_nothing {id : Id} (h : o.IsLi catalog id) :
    o.virtualSources = [] := by
  obtain ⟨t, value, _, hwired⟩ := h
  rw [List.eq_nil_iff_forall_not_mem]
  intro key hkey
  cases hwired.reads key hkey

theorem Instruction.Recast.pointer (h : i.Recast o) : o.isPointerLabel = i.isPointerLabel := by
  obtain ⟨_, _, rfl⟩ := h
  rfl

theorem Instruction.Recast.eq_of_reads_nothing (h : i.Recast o) (hreads : i.virtualSources = []) :
    o = i := by
  obtain ⟨sources, hsources, rfl⟩ := h
  rw [virtualSources, List.filterMap_eq_nil_iff] at hreads
  have hsame : List.Forall₂ Eq i.sources sources := by
    refine ((List.forall₂_and_left _ _).2 ⟨hreads, hsources⟩).imp ?_
    rintro op op' ⟨hop, rfl | ⟨id, fresh, hid, rfl⟩⟩
    · rfl
    · rw [hop] at hid
      cases hid
  rw [List.forall₂_eq_eq_eq] at hsame
  rw [← hsame]

theorem LegalLine.mem_ofCode (h : l ∈ ofCode code) :
    code[l.index]? = some l.instruction ∧ l.made = false := by
  obtain ⟨⟨i, n⟩, hmem, rfl⟩ := List.mem_map.1 h
  exact ⟨List.mem_zipIdx_iff_getElem?.1 hmem, rfl⟩

theorem LegalLine.mem_pass {R : LegalLine → Piece → Prop} (h : List.Forall₂ R lines pieces)
    (hl : l ∈ pass lines pieces) : ∃ first ∈ lines, ∃ p, R first p ∧
      (l = first.becomes p.instruction ∨ l ∈ first.makes p.inserted) := by
  rw [pass, mem_place] at hl
  obtain hnone | ⟨⟨first, p⟩, hpair, hl⟩ := hl
  · cases hnone
  · exact ⟨first, (List.of_mem_zip hpair).1, p, List.forall₂_zip h hpair, hl⟩

/-- What a line of legal code can be. -/
inductive LegalLine.Stems (catalog : Catalog) (i : Instruction) : LegalLine → Prop where
  | kept {n : Nat} {o : Instruction} (ho : i.Recast o) : Stems catalog i ⟨n, false, o⟩
  | load {n : Nat} {o : Instruction} {id : Id} (hid : id ∈ i.virtualSources)
      (ho : o.IsLi catalog id) : Stems catalog i ⟨n, true, o⟩
  | cast {n : Nat} {o : Instruction} {id fresh : Id} (hid : id ∈ i.virtualSources)
      (ho : o.IsCast catalog fresh id) : Stems catalog i ⟨n, true, o⟩

/-- Labels are where they belong. -/
structure KeepsLabels (catalog : Catalog) (code : List Instruction) (lines : List LegalLine) :
    Prop where
  stems : ∀ l ∈ lines, ∃ i, code[l.index]? = some i ∧ l.Stems catalog i
  order : lines.filterMap own? = List.range code.length
  /-- A pointer label is directly in front of its instruction, behind all that is made for it. -/
  glued : ∀ n i, PointsPast code n → code[n + 1]? = some i → i.isLabel = false →
    ∃ front o o' back, lines = front ++ ⟨n, false, o⟩ :: ⟨n + 1, false, o'⟩ :: back ∧
      ∀ l ∈ back, l.made → l.index ≠ n + 1
  /-- Nothing else that precedes an instruction gets between it and what is made for it. -/
  behind : ∀ front l back, lines = front ++ l :: back → l.made → ∀ n < l.index,
    n ∈ front.filterMap own? ∨ n + 1 = l.index ∧ PointsPast code n

section Resolved

variable {resolved cast : List Piece}

theorem LegalLine.resolved_stems
    (h : List.Forall₂ (fun l p => Piece.Precedes Eq (Instruction.IsLi catalog) (instruction l) p)
      (ofCode code) resolved) (hl : l ∈ pass (ofCode code) resolved) :
    ∃ i, code[l.index]? = some i ∧ (l.made = false ∧ l.instruction = i ∨
      l.made ∧ ∃ id ∈ i.virtualSources, l.instruction.IsLi catalog id) := by
  obtain ⟨first, hfirst, p, hp, hl⟩ := mem_pass h hl
  obtain ⟨hi, hown⟩ := mem_ofCode hfirst
  rcases hl with rfl | hl
  · exact ⟨first.instruction, hi, .inl ⟨hown, hp.keeps.symm⟩⟩
  · rw [Piece.inserted, hp.after, List.append_nil] at hl
    obtain ⟨o, ho, rfl⟩ := List.mem_map.1 hl
    exact ⟨first.instruction, hi, .inr ⟨rfl, hp.before o ho⟩⟩

theorem LegalLine.legal_stems
    (hstems : ∀ l ∈ lines, ∃ i, code[l.index]? = some i ∧ (l.made = false ∧ l.instruction = i ∨
      l.made ∧ ∃ id ∈ i.virtualSources, l.instruction.IsLi catalog id))
    (h : List.Forall₂ (fun l p => Piece.Precedes Instruction.Recast
      (fun id o => ∃ fresh, o.IsCast catalog fresh id) (instruction l) p) lines cast)
    (hl : l ∈ pass lines cast) : ∃ i, code[l.index]? = some i ∧ l.Stems catalog i := by
  obtain ⟨first, hfirst, p, hp, hl⟩ := mem_pass h hl
  obtain ⟨i, hi, hstem⟩ := hstems first hfirst
  obtain ⟨index, made, o⟩ := first
  refine ⟨i, ?_⟩
  rcases hl with rfl | hl
  · refine ⟨hi, ?_⟩
    rcases hstem with ⟨hown, hsame⟩ | ⟨hmade, id, hid, hli⟩
    · obtain rfl : made = false := hown
      obtain rfl : o = i := hsame
      exact .kept hp.keeps
    · obtain rfl : made = true := hmade
      have hsame : p.instruction = o := hp.keeps.eq_of_reads_nothing hli.reads_nothing
      exact .load hid (hsame ▸ hli)
  · rw [Piece.inserted, hp.after, List.append_nil] at hl
    obtain ⟨o', ho', rfl⟩ := List.mem_map.1 hl
    refine ⟨hi, ?_⟩
    obtain ⟨id, hid, fresh, hcast⟩ := hp.before o' ho'
    rcases hstem with ⟨_, rfl⟩ | ⟨_, _, _, hli⟩
    · exact .cast hid hcast
    · rw [hli.reads_nothing] at hid
      cases hid

end Resolved

end Passes

theorem LegalLine.takes_passes {resolved cast : List Piece}
    (hresolved : List.Forall₂ (Piece.Precedes Eq (Instruction.IsLi catalog)) code resolved)
    (hcast : List.Forall₂ (Piece.Precedes Instruction.Recast fun id o =>
      ∃ fresh, o.IsCast catalog fresh id) (Piece.layout resolved) cast) :
    List.Forall₂ Takes (ofCode code) resolved ∧
      List.Forall₂ Takes (pass (ofCode code) resolved) cast ∧
      (legalLines code resolved cast).map instruction = Piece.layout cast ∧
      ∀ l ∈ legalLines code resolved cast, ∃ i, code[l.index]? = some i ∧ l.Stems catalog i := by
  have hcode : (ofCode code).length = resolved.length := by
    rw [← hresolved.length_eq, ← List.length_map (f := instruction), ofCode_instructions]
  have hmid : (pass (ofCode code) resolved).map instruction = Piece.layout resolved :=
    pass_instructions hcode
  rw [← ofCode_instructions code] at hresolved
  rw [← hmid] at hcast
  have hloads := List.forall₂_map_left_iff.1 hresolved
  have hcasts := List.forall₂_map_left_iff.1 hcast
  have hstems := fun l hl => resolved_stems hloads (l := l) hl
  refine ⟨takes_of_precedes ?_ ?_ ?_ hloads, takes_of_precedes ?_ ?_ ?_ hcasts, ?_, ?_⟩
  · rintro i _ rfl
    rfl
  · rintro id o ⟨_, _, _, hwired⟩
    exact hwired.plain
  · intro l hl hmade
    rw [(mem_ofCode hl).2] at hmade
    cases hmade
  · exact fun _ _ => Instruction.Recast.pointer
  · rintro id o ⟨_, _, _, _, _, hwired⟩
    exact hwired.plain
  · intro l hl hmade
    obtain ⟨_, _, ⟨hown, _⟩ | ⟨_, _, _, hli⟩⟩ := hstems l hl
    · rw [hown] at hmade
      cases hmade
    · exact hli.reads_nothing
  · apply pass_instructions
    rw [← List.length_map (f := instruction), hcast.length_eq]
  · exact fun l hl => legal_stems hstems hcasts hl

/-- Legal code holds the instructions in their order, and what is made for each of them where the
labels allow it. -/
theorem legalize_keeps_labels (h : legalize code context state = .ok out state') :
    ∃ resolved mid cast, Seen.resolve {} code context state = .ok resolved mid ∧
      Produced.castAll {} (Piece.layout resolved) context mid = .ok cast state' ∧
      (legalLines code resolved cast).map LegalLine.instruction = out ∧
      KeepsLabels context.catalog code (legalLines code resolved cast) := by
  obtain ⟨resolved, mid, cast, hresolve, hcast, rfl⟩ := legalize_ok h
  obtain ⟨htakes, htakes', hout, hstems⟩ := LegalLine.takes_passes
    (Seen.resolve_precedes hresolve) (Produced.castAll_precedes hcast)
  have hordered : Ordered code 0 (legalLines code resolved cast) :=
    ((LegalLine.ofCode_ordered code).place htakes).1.place htakes' |>.1
  refine ⟨resolved, mid, cast, hresolve, hcast, hout, hstems, ?_, ?_, ?_⟩
  · rw [hordered.owns.2, List.range_eq_range', Nat.sub_zero]
  · intro n i hpoints hi hplain
    obtain ⟨label, hlabel, hpointer⟩ := hpoints
    obtain ⟨front, back, hcode⟩ := LegalLine.ofCode_adjacent hlabel hi
    rw [hcode] at htakes
    obtain ⟨front, o, o', back, hpass, ho, ho'⟩ := LegalLine.place_adjacent [] hpointer
      (Instruction.not_pointer_of_not_label hplain) htakes
    rw [← hcode] at hpass
    have hmid : pass (ofCode code) resolved = _ := hpass
    rw [hmid] at htakes'
    obtain ⟨front, o, o', back, hlegal, _⟩ :=
      LegalLine.place_adjacent [] ho ho' htakes'
    have hlines : legalLines code resolved cast =
        front ++ ⟨n, false, o⟩ :: ⟨n + 1, false, o'⟩ :: back := by
      rw [legalLines, hmid]
      exact hlegal
    refine ⟨front, o, o', back, hlines, fun l hl hmade => ?_⟩
    rw [hlines, List.append_cons] at hordered
    have hlt := hordered.past l hl hmade
    omega
  · intro front l back hlines hmade n hn
    rw [hlines] at hordered
    exact hordered.behind hmade (Nat.zero_le n) hn

/-- A jump target and a pointer label in front of a product that needs a load and two casts. -/
def labelledProduct : List Instruction :=
  [.label "again" "again" false,
   .label "fault" "fault_label_0" true,
   { id := "y", name := "fmul.s", category := .arithmetic,
     destination := some { slot := .rd, type := .register .fpr, value := .virtual "y" },
     sources := [{ slot := .rs1, type := .register .fpr, value := .virtual "a" },
       { slot := .rs2, type := .register .fpr, value := .virtual "a" }] }]

theorem labelledProduct_keeps_labels : ∃ out state',
    legalize labelledProduct insertionContext zeroState = .ok out state' ∧
    ∃ resolved mid cast,
      Seen.resolve {} labelledProduct insertionContext zeroState = .ok resolved mid ∧
      Produced.castAll {} (Piece.layout resolved) insertionContext mid = .ok cast state' ∧
      (legalLines labelledProduct resolved cast).map LegalLine.instruction = out ∧
      KeepsLabels insertionContext.catalog labelledProduct
        (legalLines labelledProduct resolved cast) := by
  have hok : ((legalize labelledProduct).result? insertionContext zeroState).isSome := by
    decide +kernel
  obtain ⟨out, hout⟩ := Option.isSome_iff_exists.1 hok
  obtain ⟨state', h⟩ := Lower.result?_eq_some.1 hout
  exact ⟨out, state', h, legalize_keeps_labels h⟩

end PlanLowering
