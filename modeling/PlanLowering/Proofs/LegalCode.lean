import PlanLowering.Proofs.Drawn
import PlanLowering.Proofs.Legalized
import PlanLowering.Proofs.StateFrame

/-!
# What stands in legal code

Each instruction of the code before, with casts in the place of some of its sources, and loads and
casts in front of it. The first and the last instruction keep their places when they read nothing.
-/

namespace PlanLowering

def OperandValue.Unbound (value : OperandValue) : Prop :=
  (∀ r, value ≠ .reg r) ∧ ∀ s, value ≠ .symbol s

/-- A source stays, or reads a cast of its id. -/
def Operand.Recast (op op' : Operand) : Prop :=
  op' = op ∨ ∃ id fresh, op.virtual? = some id ∧ op' = { op with value := .virtual fresh }

namespace Instruction

def Recast (i o : Instruction) : Prop :=
  ∃ sources, List.Forall₂ Operand.Recast i.sources sources ∧ o = { i with sources }

def Auxiliary (catalog : Catalog) (o : Instruction) : Prop :=
  ∃ opcode id, o.Drawn catalog opcode (.virtual id) fun _ value => value.Unbound

structure Prepared (catalog : Catalog) (i : Instruction) (p : Piece) : Prop where
  recast : i.Recast p.instruction
  before : ∀ o ∈ p.before, o.Auxiliary catalog
  after : p.after = []
  idle : i.virtualSources = [] → p.before = []

end Instruction

def Bounded {α : Type} (first last : α) (xs : List α) : Prop := ∃ mid, xs = first :: mid ++ [last]

theorem Bounded.forall₂ {α β : Type} {R : α → β → Prop} {xs : List α} {ys : List β} {a b : α}
    (hxs : Bounded a b xs) (h : List.Forall₂ R xs ys) :
    ∃ c d, R a c ∧ R b d ∧ Bounded c d ys := by
  obtain ⟨mid, rfl⟩ := hxs
  rw [List.cons_append] at h
  obtain ⟨c, rest, hc, hrest, rfl⟩ := List.forall₂_cons_left_iff.1 h
  have htail : List.Forall₂ R [b] (rest.drop mid.length) := by
    simpa using List.forall₂_drop mid.length hrest
  obtain ⟨d, none, hd, hnone, hsplit⟩ := List.forall₂_cons_left_iff.1 htail
  obtain rfl := List.forall₂_nil_left_iff.1 hnone
  refine ⟨c, d, hc, hd, rest.take mid.length, ?_⟩
  rw [List.cons_append, ← hsplit, List.take_append_drop]

open Instruction (Prepared Auxiliary)

variable {context : Context} {state state' : State} {code out : List Instruction}
variable {pieces : List Piece} {i o : Instruction} {id fresh consumer : Id} {catalog : Catalog}
variable {first last : Instruction}

section Recast

variable {op op' : Operand}

theorem Operand.recast_refl (ops : List Operand) : List.Forall₂ Operand.Recast ops ops :=
  List.forall₂_same.2 fun _ _ => .inl rfl

theorem Operand.Recast.field (h : op.Recast op') : op'.field = op.field := by
  rcases h with rfl | ⟨_, _, _, rfl⟩ <;> rfl

theorem Operand.Recast.value (h : op.Recast op') :
    op'.value = op.value ∨
      (∃ id, op.value = .virtual id) ∧ ∃ fresh, op'.value = .virtual fresh := by
  rcases h with rfl | ⟨id, fresh, hid, rfl⟩
  · exact .inl rfl
  · exact .inr ⟨⟨id, value_of_virtual hid⟩, fresh, rfl⟩

theorem Instruction.Recast.refl (i : Instruction) : i.Recast i :=
  ⟨i.sources, Operand.recast_refl _, rfl⟩

theorem Operand.Recast.trans {op'' : Operand} (h : op.Recast op') (h' : op'.Recast op'') :
    op.Recast op'' := by
  rcases h with rfl | ⟨id, fresh, hid, rfl⟩
  · exact h'
  · rcases h' with rfl | ⟨_, fresh', _, rfl⟩
    · exact .inr ⟨id, fresh, hid, rfl⟩
    · exact .inr ⟨id, fresh', hid, rfl⟩

theorem Operand.recast_trans {ops ops' ops'' : List Operand}
    (h : List.Forall₂ Operand.Recast ops ops') (h' : List.Forall₂ Operand.Recast ops' ops'') :
    List.Forall₂ Operand.Recast ops ops'' := by
  induction h generalizing ops'' with
  | nil => exact h'
  | cons hop _ ih =>
    obtain ⟨op'', rest, hop', hrest, rfl⟩ := List.forall₂_cons_left_iff.1 h'
    exact .cons (hop.trans hop') (ih hrest)

theorem Instruction.Recast.trans {o' : Instruction} (h : i.Recast o) (h' : o.Recast o') :
    i.Recast o' := by
  obtain ⟨sources, hsources, rfl⟩ := h
  obtain ⟨sources', hsources', rfl⟩ := h'
  exact ⟨sources', Operand.recast_trans hsources hsources', rfl⟩

theorem Instruction.Recast.eq_of_idle (h : i.Recast o) (hidle : i.sources = []) : o = i := by
  obtain ⟨sources, hsources, rfl⟩ := h
  simp only [hidle, List.forall₂_nil_left_iff] at hsources
  rw [hsources, ← hidle]

theorem Operand.recast_fields {ops ops' : List Operand} (h : List.Forall₂ Operand.Recast ops ops') :
    ops'.map Operand.field = ops.map Operand.field := by
  induction h with
  | nil => rfl
  | cons hop _ ih => rw [List.map_cons, List.map_cons, hop.field, ih]

theorem Instruction.Recast.source (h : i.Recast o) (hop : op' ∈ o.sources) :
    ∃ op ∈ i.sources, op.Recast op' := by
  obtain ⟨sources, hsources, rfl⟩ := h
  exact exists_of_forall₂ hsources hop

theorem Instruction.Auxiliary.recast (h : i.Auxiliary catalog) (hrecast : i.Recast o) :
    o.Auxiliary catalog := by
  obtain ⟨opcode, id, hdrawn⟩ := h
  obtain ⟨sources, hsources, rfl⟩ := hrecast
  refine ⟨opcode, id, hdrawn.rewire (Operand.recast_fields hsources) ?_⟩
  intro op' hop'
  obtain ⟨op, hop, hvalue⟩ := Recast.source ⟨sources, hsources, rfl⟩ hop'
  rcases hvalue.value with hsame | ⟨_, fresh, hnew⟩
  · rw [hsame]
    exact hdrawn.sources op hop
  · simp [hnew, OperandValue.Unbound]

end Recast

section Layout

theorem Piece.mem_layout_prepared (h : List.Forall₂ (Prepared catalog) code pieces)
    (ho : o ∈ layout pieces) : (∃ i ∈ code, i.Recast o) ∨ o.Auxiliary catalog := by
  obtain ⟨p, hp, ho⟩ := mem_layout.1 ho
  obtain ⟨i, hi, hprepared⟩ := exists_of_forall₂ h hp
  rcases ho with ho | rfl | ho
  · exact .inr (hprepared.before o ho)
  · exact .inl ⟨i, hi, hprepared.recast⟩
  · rw [hprepared.after] at ho
    cases ho

/-- The last instruction stays the last one unless code is put behind it. -/
theorem Piece.place_last {q : Piece} (hafter : q.after = [])
    (hlabel : q.instruction.isPointerLabel = false) (held : List Instruction) (pieces : List Piece) :
    ∃ front, place held (pieces ++ [q]) = front ++ [q.instruction] := by
  induction pieces generalizing held with
  | nil => exact ⟨q.before ++ held, by simp [place, hlabel, hafter]⟩
  | cons p rest ih =>
    rw [List.cons_append, place]
    split
    · obtain ⟨front, hfront⟩ := ih [p.instruction]
      exact ⟨p.before ++ held ++ front, by simp [hfront]⟩
    · obtain ⟨front, hfront⟩ := ih []
      exact ⟨p.before ++ held ++ (p.instruction :: p.after ++ front), by simp [hfront]⟩

/-- The first and the last instruction keep their places if code goes only behind the one and in
front of the other. -/
theorem Piece.layout_bounded {R : Instruction → Piece → Prop} (h : List.Forall₂ R code pieces)
    (hcode : Bounded first last code)
    (hfirst : ∀ p, R first p → p.before = [] ∧ p.instruction = first)
    (hlast : ∀ p, R last p → p.after = [] ∧ p.instruction = last)
    (hlabels : first.isPointerLabel = false ∧ last.isPointerLabel = false) :
    Bounded first last (layout pieces) := by
  obtain ⟨p, q, hp, hq, mid, rfl⟩ := hcode.forall₂ h
  obtain ⟨hbefore, rfl⟩ := hfirst p hp
  obtain ⟨hafter, rfl⟩ := hlast q hq
  obtain ⟨front, hfront⟩ := place_last hafter hlabels.2 [] mid
  refine ⟨p.after ++ front, ?_⟩
  rw [layout, List.cons_append, place, hbefore, if_neg (by simp [hlabels.1]), hfront]
  simp

/-- An entry and an exit without sources keep their places. -/
theorem Piece.layout_prepared_bounded (h : List.Forall₂ (Prepared catalog) code pieces)
    (hcode : Bounded first last code) (hfirst : first.sources = [] ∧ first.isPointerLabel = false)
    (hlast : last.sources = [] ∧ last.isPointerLabel = false) :
    Bounded first last (layout pieces) :=
  layout_bounded h hcode
    (fun _ hp => ⟨hp.idle (by simp [Instruction.virtualSources, hfirst.1]),
      hp.recast.eq_of_idle hfirst.1⟩)
    (fun _ hp => ⟨hp.after, hp.recast.eq_of_idle hlast.1⟩) ⟨hfirst.2, hlast.2⟩

end Layout

section Resolve

variable (htyped : ∀ t ∈ context.catalog.templates, t.Typed)
include htyped

theorem Lower.randomValue_drawn (h : Lower.randomValue id context state = .ok i state') :
    i.Drawn context.catalog "li" (.virtual id)
      fun _ value => value = .unset ∨ ∃ v, value = .imm v := by
  simp only [randomValue, bind_ok, instruction_ok, ofExcept_ok, pure_ok] at h
  obtain ⟨i₀, _, ⟨hi, rfl⟩, value, _, _, i₁, _, ⟨himm, _⟩, i₂, _, ⟨hrd, _⟩, rfl, _⟩ := h
  have hdrawn := Catalog.drawn_instruction (fun _ value => value = .unset ∨ ∃ v, value = .imm v) hi
    fun _ => .inl rfl
  have hdrawn := (hdrawn.setImmediate htyped himm (.inr ⟨_, rfl⟩)).setDestination hrd
  exact hdrawn.withId id

theorem Lower.randomValue_auxiliary (h : Lower.randomValue id context state = .ok i state') :
    i.Auxiliary context.catalog := by
  refine ⟨_, _, (randomValue_drawn htyped h).mono ?_⟩
  rintro _ _ (rfl | ⟨v, rfl⟩) <;> simp [OperandValue.Unbound]

theorem Seen.materialize_auxiliary {seen seen' : Seen} {ids : List Id} {before : List Instruction}
    (h : seen.materialize ids context state = .ok (before, seen') state') :
    ∀ o ∈ before, o.Auxiliary context.catalog := by
  replace h := materialize_ok h
  induction h with
  | done => simp
  | known _ _ ih => exact ih
  | load _ hli _ ih => exact List.forall_mem_cons.2 ⟨Lower.randomValue_auxiliary htyped hli, ih⟩

theorem Seen.resolve_prepared {seen : Seen}
    (h : seen.resolve code context state = .ok pieces state') :
    List.Forall₂ (Prepared context.catalog) code pieces := by
  replace h := resolve_ok h
  induction h with
  | done => exact .nil
  | next _ hbefore _ ih =>
    refine .cons ⟨.refl _, materialize_auxiliary htyped hbefore, rfl, fun hidle => ?_⟩ ih
    rw [hidle] at hbefore
    cases materialize_ok hbefore
    rfl

end Resolve

section Casts

theorem Produced.cast_drawn {source target : RegisterFile}
    (h : Produced.cast source target id consumer context state = .ok (fresh, i) state') :
    (∃ t ∈ context.catalog.filter (.cast (.register source) (.register target)),
      i.Drawn context.catalog t.name (.virtual fresh)
        fun _ value => value = .unset ∨ value = .virtual id) ∧
    fresh = s!"r{state.ids.values}" ∧ state'.ids.values = state.ids.values + 1 := by
  simp only [cast, Lower.bind_ok, Lower.read_ok] at h
  obtain ⟨_, _, ⟨rfl, rfl⟩, h⟩ := h
  cases hcandidates : context.catalog.filter (.cast (.register source) (.register target)) with
  | nil => simp [hcandidates] at h
  | cons first rest =>
    simp only [hcandidates, Lower.bind_ok, Lower.ofExcept_ok, Lower.pure_ok, Prod.mk.injEq] at h
    obtain ⟨_, _, hfresh, i₀, _, hi, i₁, _, ⟨hrs1, rfl⟩, i₂, _, ⟨hrd, rfl⟩, ⟨rfl, rfl⟩, rfl⟩ := h
    obtain ⟨hname, hcount⟩ := Lower.freshValue_ok hfresh
    rw [Lower.chooseFrom_ids hi]
    rw [← hcandidates] at hi ⊢
    obtain ⟨t, ht, rfl⟩ := Lower.chooseFrom_ok hi
    have hdrawn := Template.drawn_instruction (fun _ value => value = .unset ∨ value = .virtual id)
      (List.mem_filter.1 ht).1 fun _ => .inl rfl
    have hdrawn := (hdrawn.setSource hrs1 (.inr rfl)).setDestination hrd
    exact ⟨⟨t, ht, hdrawn.withId _⟩, hname, hcount⟩

theorem Produced.cast_auxiliary {source target : RegisterFile}
    (h : Produced.cast source target id consumer context state = .ok (fresh, i) state') :
    i.Auxiliary context.catalog := by
  obtain ⟨⟨t, _, hdrawn⟩, _⟩ := cast_drawn h
  refine ⟨_, _, hdrawn.mono ?_⟩
  rintro _ _ (rfl | rfl) <;> simp [OperandValue.Unbound]

/-- A source is cast where its id was defined in the other file. -/
theorem Produced.mismatch_eq_some {produced : Produced} {op : Operand}
    {source target : RegisterFile} (h : produced.mismatch? op = some (id, source, target)) :
    op.virtual? = some id ∧ op.type.file? = some target ∧ produced.get? id = some source := by
  unfold mismatch? at h
  simp only [Option.bind_eq_bind, Option.bind_eq_some_iff] at h
  obtain ⟨key, hkey, file, hfile, found, hfound, hpair⟩ := h
  split at hpair
  · cases hpair
  · cases hpair
    exact ⟨hkey, hfile, hfound⟩

theorem Produced.castSources_recast {produced produced' : Produced} {ops ops' : List Operand}
    {before : List Instruction}
    (h : castSources consumer produced ops context state = .ok (ops', before, produced') state') :
    List.Forall₂ Operand.Recast ops ops' ∧ (∀ o ∈ before, o.Auxiliary context.catalog) ∧
      (ops.filterMap Operand.virtual? = [] → before = []) := by
  replace h := castSources_ok h
  induction h with
  | done => exact ⟨.nil, by simp, fun _ => rfl⟩
  | kept _ _ ih =>
    obtain ⟨hrecast, hcasts, hidle⟩ := ih
    refine ⟨.cons (.inl rfl) hrecast, hcasts, fun hnone => hidle ?_⟩
    rw [List.filterMap_eq_nil_iff] at hnone ⊢
    exact fun other hother => hnone other (List.mem_cons_of_mem _ hother)
  | @cast _ _ _ _ id _ _ fresh _ _ _ _ _ _ hmismatch hcast _ ih =>
    have hid := (mismatch_eq_some hmismatch).1
    obtain ⟨hrecast, hcasts, _⟩ := ih
    refine ⟨.cons (.inr ⟨id, fresh, hid, rfl⟩) hrecast, ?_, by simp [hid]⟩
    exact List.forall_mem_cons.2 ⟨cast_auxiliary hcast, hcasts⟩

theorem Produced.castAll_prepared {produced : Produced}
    (h : castAll produced code context state = .ok pieces state') :
    List.Forall₂ (Prepared context.catalog) code pieces := by
  replace h := castAll_ok h
  induction h with
  | done => exact .nil
  | @next _ _ _ _ sources _ _ _ _ _ hsources _ ih =>
    obtain ⟨hrecast, hcasts, hidle⟩ := castSources_recast hsources
    exact .cons ⟨⟨sources, hrecast, rfl⟩, hcasts, rfl, hidle⟩ ih

end Casts

variable (htyped : ∀ t ∈ context.catalog.templates, t.Typed)
include htyped

/-- Legal code is the code before with casts, and loads and casts around it. -/
theorem mem_legalize (h : legalize code context state = .ok out state') (ho : o ∈ out) :
    (∃ i ∈ code, i.Recast o) ∨ o.Auxiliary context.catalog := by
  obtain ⟨resolved, _, pieces, hresolved, hpieces, rfl⟩ := legalize_ok h
  have hresolved := Seen.resolve_prepared htyped hresolved
  have hpieces := Produced.castAll_prepared hpieces
  rcases Piece.mem_layout_prepared hpieces ho with ⟨j, hj, hrecast⟩ | hauxiliary
  · rcases Piece.mem_layout_prepared hresolved hj with ⟨i, hi, hsame⟩ | hauxiliary
    · exact .inl ⟨i, hi, hsame.trans hrecast⟩
    · exact .inr (hauxiliary.recast hrecast)
  · exact .inr hauxiliary

theorem legalize_bounded (h : legalize code context state = .ok out state')
    (hcode : Bounded first last code) (hfirst : first.sources = [] ∧ first.isPointerLabel = false)
    (hlast : last.sources = [] ∧ last.isPointerLabel = false) : Bounded first last out := by
  obtain ⟨resolved, _, pieces, hresolved, hpieces, rfl⟩ := legalize_ok h
  have hresolved := Piece.layout_prepared_bounded (Seen.resolve_prepared htyped hresolved) hcode
    hfirst hlast
  exact Piece.layout_prepared_bounded (Produced.castAll_prepared hpieces) hresolved
    hfirst hlast

end PlanLowering
