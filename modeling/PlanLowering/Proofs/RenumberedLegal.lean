import PlanLowering.Proofs.Insertion
import PlanLowering.Proofs.RenumberedCode

/-!
# Legalization in lockstep

Both passes walk the code once and know an instruction by the ids that it names. Code under other
numbers is legalized to the same code under other numbers. A comment under a number that nothing
else has reads nothing and defines nothing that is read, so the passes go by it.
-/

namespace PlanLowering

open Lower (Lockstep)
open Instruction (WiresPast)

structure Piece.Rel (R : Instruction → Instruction → Prop) (p p' : Piece) : Prop where
  before : List.Forall₂ R p.before p'.before
  instruction : R p.instruction p'.instruction
  after : List.Forall₂ R p.after p'.after

/-- The instruction in the middle has the form of the first one, and all around it is native. -/
structure Piece.Wraps (i : Instruction) (p : Piece) : Prop where
  form : p.instruction.form = i.form
  around : ∀ o ∈ p.before ++ p.after, o.form = .native

section Layout

variable {R : Instruction → Instruction → Prop} {held held' front back code : List Instruction}
variable {ps ps' qs qs' : List Piece}

theorem Instruction.not_pointer_of_native {i : Instruction} (h : i.form = .native) :
    i.isPointerLabel = false := by
  simp [isPointerLabel, h]

theorem Instruction.not_label_of_native {i : Instruction} (h : i.form = .native) :
    i.isLabel = false := by
  simp [isLabel, h]

theorem Instruction.not_pointer_of_not_label {i : Instruction} (h : i.isLabel = false) :
    i.isPointerLabel = false := by
  cases hform : i.form with
  | label pointer => simp [isLabel, hform] at h
  | _ => simp [isPointerLabel, hform]

namespace Piece

theorem place_rel (hR : ∀ i i', R i i' → i'.isPointerLabel = i.isPointerLabel)
    (hheld : List.Forall₂ R held held') (h : List.Forall₂ (Rel R) ps ps') :
    List.Forall₂ R (place held ps) (place held' ps') := by
  induction h generalizing held held' with
  | nil => exact hheld
  | @cons p p' rest rest' hp _ ih =>
    have hafter : p'.after = [] ↔ p.after = [] := by
      rw [← List.length_eq_zero_iff, ← List.length_eq_zero_iff, hp.after.length_eq]
    simp only [place, hR _ _ hp.instruction, hafter]
    refine List.rel_append (List.rel_append hp.before hheld) ?_
    split
    · exact ih (.cons hp.instruction .nil)
    · exact List.rel_append (.cons hp.instruction hp.after) (ih .nil)

theorem layout_rel (hR : ∀ i i', R i i' → i'.isPointerLabel = i.isPointerLabel)
    (h : List.Forall₂ (Rel R) ps ps') : List.Forall₂ R (layout ps) (layout ps') :=
  place_rel hR .nil h

theorem place_append (hlast : ∀ p ∈ ps.getLast?, p.instruction.isPointerLabel = false)
    (hheld : ps = [] → held = []) : place held (ps ++ qs) = place held ps ++ place [] qs := by
  induction ps generalizing held with
  | nil => rw [hheld rfl]; rfl
  | cons p rest ih =>
    have hrest : ∀ q ∈ rest.getLast?, q.instruction.isPointerLabel = false := by
      intro q hq
      refine hlast q ?_
      rw [← List.singleton_append, List.getLast?_append_of_ne_nil]
      · exact hq
      · rintro rfl
        cases hq
    rw [List.cons_append, place, place]
    split
    next hglued =>
      have hne : rest ≠ [] := by
        rintro rfl
        simpa [hglued.1] using hlast p rfl
      rw [ih hrest fun hnil => absurd hnil hne]
      simp
    next =>
      rw [ih hrest fun _ => rfl]
      simp

/-- Nothing is glued to a place, so the pieces before it and behind it are laid out on their own. -/
theorem layout_append (hlast : ∀ p ∈ ps.getLast?, p.instruction.isPointerLabel = false) :
    layout (ps ++ qs) = layout ps ++ layout qs :=
  place_append hlast fun _ => rfl

theorem layout_eq_nil (h : layout ps = []) : ps = [] := by
  cases ps with
  | nil => rfl
  | cons p rest =>
    have hmem : p.instruction ∈ layout (p :: rest) :=
      mem_layout.2 ⟨p, List.mem_cons_self, .inr (.inl rfl)⟩
    rw [h] at hmem
    cases hmem

theorem place_getLast {p : Piece} (hp : p.instruction.isPointerLabel = false) :
    ∃ last ∈ p.instruction :: p.after, (place held (ps ++ [p])).getLast? = some last := by
  induction ps generalizing held with
  | nil =>
    obtain ⟨last, hlast⟩ := List.getLast?_isSome.2 (List.cons_ne_nil p.instruction p.after) |>
      Option.isSome_iff_exists.1
    refine ⟨last, List.mem_of_getLast? hlast, ?_⟩
    simp [place, hp, List.getLast?_append, hlast]
  | cons q rest ih =>
    rw [List.cons_append, place]
    split
    next =>
      obtain ⟨last, hmem, hlast⟩ := @ih [q.instruction]
      exact ⟨last, hmem, by rw [List.getLast?_append, hlast, Option.some_or]⟩
    next =>
      obtain ⟨last, hmem, hlast⟩ := @ih []
      refine ⟨last, hmem, ?_⟩
      rw [List.getLast?_append, List.getLast?_append, hlast, Option.some_or, Option.some_or]

theorem layout_entered (hwraps : List.Forall₂ Wraps code ps)
    (hentered : ∀ p ∈ ps.head?, p.instruction.isLabel = false) :
    ∀ o ∈ (layout ps).head?, o.isLabel = false := by
  cases hwraps with
  | nil => simp [layout, place]
  | @cons i p _ rest hp _ =>
    have hp' : p.instruction.isLabel = false := hentered p (by simp)
    have hloose := Instruction.not_pointer_of_not_label hp'
    intro o ho
    rw [layout, place, if_neg (by simp [hloose])] at ho
    cases hbefore : p.before with
    | nil =>
      rw [hbefore] at ho
      cases ho
      exact hp'
    | cons first more =>
      rw [hbefore] at ho
      cases ho
      exact Instruction.not_label_of_native (hp.around o (by simp [hbefore]))

theorem seam_layout (h : Instruction.Seam front back) (hfront : List.Forall₂ Wraps front ps)
    (hback : List.Forall₂ Wraps back qs) :
    (∀ p ∈ ps.getLast?, p.instruction.isPointerLabel = false) ∧
      Instruction.Seam (layout ps) (layout qs) := by
  have hsame {i : Instruction} {p : Piece} (hp : Wraps i p) :
      p.instruction.isPointerLabel = i.isPointerLabel ∧ p.instruction.isLabel = i.isLabel := by
    simp [Instruction.isPointerLabel, Instruction.isLabel, hp.form]
  have hpieces : Seam (·.instruction.isPointerLabel) (·.instruction.isLabel) ps qs :=
    h.of_forall₂ (hfront.imp fun _ _ hp => hsame hp) (hback.imp fun _ _ hp => hsame hp)
  refine ⟨hpieces.loose, fun o ho => ?_, fun hnil =>
    layout_entered hback (hpieces.entered (layout_eq_nil hnil))⟩
  rcases List.eq_nil_or_concat' ps with rfl | ⟨rest, p, rfl⟩
  · cases ho
  · have hp : p.instruction.isPointerLabel = false := hpieces.loose p (by simp)
    obtain ⟨last, hmem, hlast⟩ := @place_getLast [] rest p hp
    have ho' : last = o := Option.some.inj (hlast.symm.trans ho)
    rw [← ho']
    rcases List.mem_cons.1 hmem with rfl | hafter
    · exact hp
    · obtain ⟨i, -, hwraps⟩ := exists_of_forall₂ hfront (List.mem_append_right rest (List.mem_singleton_self p))
      exact Instruction.not_pointer_of_native
        (hwraps.around last (List.mem_append_right _ hafter))

theorem layout_noted {notes : List Instruction}
    (hR : ∀ i i', R i i' → i'.isPointerLabel = i.isPointerLabel)
    (hnotes : ∀ o ∈ notes, o.isPointerLabel = false)
    (hseam : Instruction.Seam front back) (hfront : List.Forall₂ Wraps front ps)
    (hback : List.Forall₂ Wraps back qs) (hps : List.Forall₂ (Rel R) ps ps')
    (hqs : List.Forall₂ (Rel R) qs qs') :
    Noted R Instruction.Seam notes (layout (ps ++ qs))
      (layout (ps' ++ notes.map (fun note => { instruction := note }) ++ qs')) := by
  obtain ⟨hlast, hlaid⟩ := seam_layout hseam hfront hback
  have hplace : Seam (fun p : Piece => p.instruction.isPointerLabel) (fun _ => false) ps [] :=
    ⟨hlast, by simp⟩
  have hplace' : Seam (fun p : Piece => p.instruction.isPointerLabel) (fun _ => false) ps' [] :=
    hplace.of_forall₂ (hps.imp fun _ _ hp => ⟨hR _ _ hp.instruction, rfl⟩) .nil
  have hplain : ∀ p ∈ (notes.map fun note : Instruction => ({ instruction := note } : Piece)).getLast?,
      p.instruction.isPointerLabel = false := by
    intro p hp
    obtain ⟨note, hnote, rfl⟩ := List.mem_map.1 (List.mem_of_getLast? hp)
    exact hnotes note hnote
  have hnoted : layout (notes.map fun note => { instruction := note }) = notes := by
    clear hplain
    induction notes with
    | nil => rfl
    | cons note rest ih =>
      rw [List.forall_mem_cons] at hnotes
      rw [List.map_cons, layout, place, if_neg (by simp [hnotes.1])]
      exact congrArg (note :: ·) (ih hnotes.2)
  rw [layout_append hlast, List.append_assoc, layout_append hplace'.loose, layout_append hplain, hnoted,
    ← List.append_assoc]
  exact .intro (layout_rel hR hps) (layout_rel hR hqs) hlaid

end Piece
end Layout

section Resolve

variable {m : Nat} {context : Context} {s t u : State} {id : Id} {noted : Bool}

/-- The second list has the ids of the first under other numbers, and the number that was left out if
a note was met. -/
def Gains (m : Nat) (noted : Bool) (ids ids' : List Id) : Prop :=
  ∀ id, id ∈ ids' ↔ (noted ∧ id = s!"r{m}") ∨ ∃ x ∈ ids, FreshIds.skip m x = id

namespace Gains

variable {ids ids' : List Id}

theorem nil (m : Nat) : Gains m false [] [] := by
  simp [Gains]

theorem mem (h : Gains m noted ids ids') (id : Id) : FreshIds.skip m id ∈ ids' ↔ id ∈ ids := by
  rw [h]
  constructor
  · rintro (⟨-, hnote⟩ | ⟨x, hx, hsame⟩)
    · exact absurd hnote (FreshIds.skip_ne m id)
    · exact FreshIds.skip_injective m hsame ▸ hx
  · exact fun hid => .inr ⟨id, hid, rfl⟩

theorem cons (h : Gains m noted ids ids') (id : Id) :
    Gains m noted (id :: ids) (FreshIds.skip m id :: ids') := by
  intro x
  rw [List.mem_cons, h]
  simp only [List.exists_mem_cons_iff, @eq_comm _ x (FreshIds.skip m id)]
  exact or_left_comm

theorem fresh (h : Gains m false ids ids') : s!"r{m}" ∉ ids' := by
  rw [h]
  rintro (⟨hnoted, -⟩ | ⟨x, -, hsame⟩)
  · cases hnoted
  · exact FreshIds.skip_ne m x hsame

theorem note (h : Gains m false ids ids') : Gains m true ids (s!"r{m}" :: ids') := by
  intro x
  rw [List.mem_cons, h]
  simp

end Gains

/-- The second walk has met the ids of the first under other numbers. -/
structure Seen.Renumbered (m : Nat) (noted : Bool) (seen seen' : Seen) : Prop where
  ids : Gains m noted seen.ids seen'.ids
  defined : Gains m noted seen.defined seen'.defined

def Seen.through (seen : Seen) : List Instruction → Lower (List Piece × Seen)
  | [] => return ([], seen)
  | i :: rest => do
    let seen ← Lower.ofExcept (seen.claim i)
    let (before, seen) ← seen.materialize i.virtualSources
    let (more, last) ← (seen.define i).through rest
    return ({ before, instruction := i } :: more, last)

variable {seen seen' last : Seen} {xs ys code : List Instruction} {pieces : List Piece}
variable {i i' : Instruction}

namespace Seen

theorem resolve_eq_through (seen : Seen) (code : List Instruction) :
    seen.resolve code = do
      let x ← seen.through code
      return x.1 := by
  induction code generalizing seen with
  | nil => simp [resolve, through]
  | cons i rest ih => simp [resolve, through, ih]

theorem through_append (seen : Seen) (xs ys : List Instruction) :
    seen.through (xs ++ ys) = do
      let x ← seen.through xs
      let y ← x.2.through ys
      return (x.1 ++ y.1, y.2) := by
  induction xs generalizing seen with
  | nil => simp [through]
  | cons i rest ih => simp [through, ih]

end Seen

variable (hcatalog : ∀ t ∈ context.catalog.templates, t.Typed)

include hcatalog in
theorem Lower.randomValue_lockstep (id : Id) :
    Lockstep m context (Instruction.Renumbered (FreshIds.skip m)) (randomValue id)
      (randomValue (FreshIds.skip m id)) := by
  refine (Lockstep.drawInstruction hcatalog "li").bind fun i i' h => ?_
  refine (Lockstep.draw_self _).bind fun v _ hv => ?_
  subst hv
  have himm : ∀ id, OperandValue.imm v ≠ .virtual id := by simp
  refine (Lockstep.ofExcept (h.setImmediate himm)).bind fun i i' h => ?_
  have hdest := @Instruction.Wires.setDestination _ i i' (.virtual id) "immediate resolution"
    "immediate resolution" h
  refine (Lockstep.ofExcept hdest).bind fun i i' h => .pure ?_
  exact ⟨by rw [h.same]; rfl, h.lodged⟩

namespace Seen

include hcatalog in
theorem materialize_lockstep (h : seen.Renumbered m noted seen') (ids : List Id) :
    Lockstep m context (fun x y => List.Forall₂ (Instruction.Renumbered (FreshIds.skip m)) x.1 y.1 ∧
      x.2.Renumbered m noted y.2) (seen.materialize ids)
      (seen'.materialize (ids.map (FreshIds.skip m))) := by
  induction ids generalizing seen seen' with
  | nil => exact .pure ⟨.nil, h⟩
  | cons id rest ih =>
    refine .ite (h.defined.mem id).symm (ih h) ?_
    refine (Lower.randomValue_lockstep hcatalog id).bind fun li li' hli => ?_
    refine (ih ⟨h.ids.cons id, h.defined.cons id⟩).bind fun x y hxy => .pure ?_
    exact ⟨.cons hli hxy.1, hxy.2⟩

theorem claim_renumbered (h : seen.Renumbered m noted seen')
    (hi : i.Renumbered (FreshIds.skip m) i') :
    Option.Rel (Renumbered m noted) (seen.claim i).toOption (seen'.claim i').toOption := by
  have hid : i'.id = FreshIds.skip m i.id := by rw [hi.same]; rfl
  unfold claim
  rw [hid]
  simp only [FreshIds.skip_eq_empty, h.ids.mem]
  split
  · exact .some h
  · split
    · exact .none
    · exact .some ⟨h.ids.cons i.id, h.defined⟩

theorem define_renumbered (h : seen.Renumbered m noted seen')
    (hi : i.Renumbered (FreshIds.skip m) i') : (seen.define i).Renumbered m noted (seen'.define i') where
  ids := h.ids
  defined := by
    have hid : i'.id = FreshIds.skip m i.id := by rw [hi.same]; rfl
    have hdest : i'.virtualDestination? = i.virtualDestination?.map (FreshIds.skip m) := by
      rw [hi.same, Instruction.virtualDestination?_mapIds]
    rw [define, define, hid, hdest]
    cases i.virtualDestination? with
    | none => exact h.defined.cons i.id
    | some id => exact (h.defined.cons i.id).cons id

include hcatalog in
theorem through_lockstep (hcode : List.Forall₂ (Instruction.Renumbered (FreshIds.skip m)) xs ys)
    (h : seen.Renumbered m noted seen') :
    Lockstep m context (fun x y =>
      List.Forall₂ (Piece.Rel (Instruction.Renumbered (FreshIds.skip m))) x.1 y.1 ∧
        x.2.Renumbered m noted y.2) (seen.through xs) (seen'.through ys) := by
  induction hcode generalizing seen seen' with
  | nil => exact .pure ⟨.nil, h⟩
  | @cons i i' rest rest' hi _ ih =>
    have hsources : i'.virtualSources = i.virtualSources.map (FreshIds.skip m) := by
      rw [hi.same, Instruction.virtualSources_mapIds]
    rw [through, through, hsources]
    refine (Lockstep.ofExcept (claim_renumbered h hi)).bind fun claimed claimed' hclaimed => ?_
    refine (materialize_lockstep hcatalog hclaimed _).bind fun x y hxy => ?_
    refine (ih (define_renumbered hxy.2 hi)).bind fun more more' hmore => .pure ?_
    exact ⟨.cons ⟨hxy.1, hi, .nil⟩ hmore.1, hmore.2⟩

theorem through_notes (h : seen.Renumbered m false seen') (text : Option String) :
    ∃ last, (∀ s, seen'.through (Instruction.notes m text) context s =
      .ok ((Instruction.notes m text).map fun note => { instruction := note }, last) s) ∧
        seen.Renumbered m text.isSome last := by
  cases text with
  | none => exact ⟨seen', fun _ => rfl, h⟩
  | some text =>
    have hclaim : seen'.claim (.comment s!"r{m}" text) =
        .ok { seen' with ids := s!"r{m}" :: seen'.ids } := by
      have hname : s!"r{m}" ≠ "" := fun hempty => FreshIds.skip_ne m "" (by
        rw [FreshIds.skip_empty, hempty])
      show (if s!"r{m}" = "" then _ else if s!"r{m}" ∈ seen'.ids then _ else _) = _
      rw [if_neg hname, if_neg h.ids.fresh]
      rfl
    refine ⟨define { seen' with ids := s!"r{m}" :: seen'.ids } (.comment s!"r{m}" text), fun s => ?_,
      h.ids.note, h.defined.note⟩
    simp only [Instruction.notes, Option.toList_some, List.map_cons, List.map_nil, through, hclaim]
    rfl

theorem through_wraps {t : State} (h : seen.through code context s = .ok (pieces, last) t) :
    List.Forall₂ Piece.Wraps code pieces := by
  have hresolve : seen.resolve code context s = .ok pieces t := by
    rw [resolve_eq_through, Lower.bind_ok]
    exact ⟨_, _, h, rfl⟩
  refine (resolve_precedes hresolve).imp fun i p hp => ⟨by rw [← hp.keeps], fun o ho => ?_⟩
  rw [hp.after, List.append_nil] at ho
  obtain ⟨_, _, _, _, _, _, _, _, _, rfl⟩ := hp.before o ho
  rfl

end Seen

theorem Instruction.Renumbered.isPointerLabel {f : Id → Id} (h : i.Renumbered f i') :
    i'.isPointerLabel = i.isPointerLabel := by
  rw [h.same]
  rfl

theorem Instruction.not_pointer_of_notes (m : Nat) (text : Option String) :
    ∀ o ∈ notes m text, o.isPointerLabel = false := by
  intro o ho
  obtain ⟨_, _, rfl⟩ := List.mem_map.1 ho
  rfl

include hcatalog in
theorem resolveImmediates_lockstep {text : Option String}
    (h : Noted (Instruction.Renumbered (FreshIds.skip m)) Instruction.Seam
      (Instruction.notes m text) xs ys) :
    Lockstep m context
      (Noted (Instruction.Renumbered (FreshIds.skip m)) Instruction.Seam (Instruction.notes m text))
      (resolveImmediates xs) (resolveImmediates ys) := by
  cases h with
  | @intro front back front' back' hfront hback hseam =>
    have hstart : Seen.Renumbered m false {} {} := ⟨.nil m, .nil m⟩
    simp only [resolveImmediates, Seen.resolve_eq_through, Seen.through_append, bind_assoc, pure_bind]
    refine ((Seen.through_lockstep hcatalog hfront hstart).and_left
      (Q := fun x => List.Forall₂ Piece.Wraps front x.1)
      fun _ _ _ => Seen.through_wraps).bind fun x x' hx => ?_
    obtain ⟨⟨hpieces, hseen⟩, hwraps⟩ := hx
    obtain ⟨last, hnotes, hmet⟩ := Seen.through_notes hseen text
    refine .right_bind hnotes ?_
    refine ((Seen.through_lockstep hcatalog hback hmet).and_left
      (Q := fun y => List.Forall₂ Piece.Wraps back y.1)
      fun _ _ _ => Seen.through_wraps).bind fun y y' hy => .pure ?_
    obtain ⟨⟨hpieces', -⟩, hwraps'⟩ := hy
    exact Piece.layout_noted (fun _ _ h => h.isPointerLabel)
      (Instruction.not_pointer_of_notes m text) hseam hwraps hwraps' hpieces hpieces'

end Resolve

section Casts

variable {m : Nat} {context : Context} {produced produced' : Produced}
variable {i i' : Instruction} {xs ys code : List Instruction} {pieces : List Piece}

namespace Produced

def Renumbered (m : Nat) (produced produced' : Produced) : Prop :=
  ∀ id, produced'.get? (FreshIds.skip m id) = produced.get? id

theorem Renumbered.insert (h : produced.Renumbered m produced') (id : Id) (file : RegisterFile) :
    Renumbered m (IdMap.insert produced id file) (IdMap.insert produced' (FreshIds.skip m id) file) := by
  intro x
  simp only [IdMap.get?_insert, FreshIds.skip_eq_iff, h x]

theorem Renumbered.mismatch? (h : produced.Renumbered m produced') (op : Operand) :
    produced'.mismatch? (op.mapId (FreshIds.skip m)) =
      (produced.mismatch? op).map fun x => (FreshIds.skip m x.1, x.2) := by
  unfold Produced.mismatch?
  rw [Operand.virtual?_mapId, Operand.type_mapId]
  cases op.virtual? with
  | none => rfl
  | some id =>
    cases op.type.file? with
    | none => rfl
    | some target =>
      simp only [Option.map_some, Option.bind_eq_bind, Option.bind_some, h id]
      cases produced.get? id with
      | none => rfl
      | some source =>
        by_cases hsame : source = target <;> simp [hsame]

theorem Renumbered.define (h : produced.Renumbered m produced')
    (hi : i' = i.mapIds (FreshIds.skip m)) :
    (produced.define i).Renumbered m (produced'.define i') := by
  subst hi
  unfold Produced.define Instruction.mapIds
  cases i.destination with
  | none => exact h
  | some op =>
    simp only [Option.map_some, Operand.virtual?_mapId, Operand.type_mapId]
    cases op.virtual? with
    | none => exact h
    | some id =>
      cases op.type.file? with
      | none => exact h
      | some file => exact h.insert id file

def through (produced : Produced) : List Instruction → Lower (List Piece × Produced)
  | [] => return ([], produced)
  | i :: rest => do
    let (sources, before, produced) ← castSources i.id produced i.sources
    let (more, last) ← (produced.define i).through rest
    return ({ before, instruction := { i with sources } } :: more, last)

theorem castAll_eq_through (produced : Produced) (code : List Instruction) :
    produced.castAll code = do
      let x ← produced.through code
      return x.1 := by
  induction code generalizing produced with
  | nil => simp [castAll, through]
  | cons i rest ih => simp [castAll, through, ih]

theorem through_append (produced : Produced) (xs ys : List Instruction) :
    produced.through (xs ++ ys) = do
      let x ← produced.through xs
      let y ← x.2.through ys
      return (x.1 ++ y.1, y.2) := by
  induction xs generalizing produced with
  | nil => simp [through]
  | cons i rest ih => simp [through, ih]

theorem through_notes (m : Nat) (produced : Produced) (text : Option String) (s : State) :
    produced.through (Instruction.notes m text) context s =
      .ok ((Instruction.notes m text).map fun note => { instruction := note }, produced) s := by
  cases text <;> rfl

theorem through_wraps {s t : State} {last : Produced}
    (h : produced.through code context s = .ok (pieces, last) t) :
    List.Forall₂ Piece.Wraps code pieces := by
  have hcast : produced.castAll code context s = .ok pieces t := by
    rw [castAll_eq_through, Lower.bind_ok]
    exact ⟨_, _, h, rfl⟩
  refine (castAll_precedes hcast).imp fun i p hp => ⟨?_, fun o ho => ?_⟩
  · obtain ⟨sources, -, hsame⟩ := hp.keeps
    rw [hsame]
  · rw [hp.after, List.append_nil] at ho
    obtain ⟨_, _, _, _, _, _, _, _, _, _, _, rfl⟩ := hp.before o ho
    rfl

theorem register_of_mismatch {op : Operand} {found : Id × RegisterFile × RegisterFile}
    (h : produced.mismatch? op = some found) : op.type.isRegister := by
  unfold mismatch? at h
  cases hvirtual : op.virtual? with
  | none => simp [hvirtual] at h
  | some id =>
    obtain ⟨file, hfile⟩ := Operand.file_of_virtual hvirtual
    simp [OperandType.isRegister, hfile]

section Declared

variable (hcatalog : ∀ t ∈ context.catalog.templates, t.Typed)
include hcatalog

theorem cast_lockstep (source target : RegisterFile) (id consumer consumer' : Id) :
    Lockstep m context (fun x y => y.1 = FreshIds.skip m x.1 ∧ x.2.Renumbered (FreshIds.skip m) y.2)
      (cast source target id consumer) (cast source target (FreshIds.skip m id) consumer') := by
  refine Lockstep.read_bind ?_
  have hmem : context.catalog.filter (.cast (.register source) (.register target)) ⊆
      context.catalog.templates := List.filter_sublist.subset
  cases hfound : context.catalog.filter (.cast (.register source) (.register target)) with
  | nil => exact .throw _ _
  | cons first rest =>
    rw [hfound] at hmem
    refine Lockstep.freshValue.bind fun fresh _ hfresh => ?_
    subst hfresh
    refine (Lockstep.chooseFrom hcatalog _ _ hmem).bind fun i i' h => ?_
    refine (Lockstep.withVirtual h (by decide) id).bind fun i i' h => ?_
    have hdest := @Instruction.Wires.setDestination _ i i' (.virtual fresh) "cast insertion"
      "cast insertion" h
    refine (Lockstep.ofExcept hdest).bind fun i i' h => .pure ⟨rfl, ?_⟩
    exact ⟨by rw [h.same]; rfl, h.lodged⟩

theorem castSources_lockstep (h : produced.Renumbered m produced') (consumer consumer' : Id)
    {ops : List Operand} (hops : ∀ op ∈ ops, ∀ id, op.value = .virtual id → op.type.isRegister) :
    Lockstep m context (fun x y => y.1 = x.1.map (Operand.mapId (FreshIds.skip m)) ∧
        (∀ op ∈ x.1, ∀ id, op.value = .virtual id → op.type.isRegister) ∧
        List.Forall₂ (Instruction.Renumbered (FreshIds.skip m)) x.2.1 y.2.1 ∧
        x.2.2.Renumbered m y.2.2)
      (castSources consumer produced ops)
      (castSources consumer' produced' (ops.map (Operand.mapId (FreshIds.skip m)))) := by
  induction ops generalizing produced produced' with
  | nil => exact .pure ⟨rfl, by simp, .nil, h⟩
  | cons op rest ih =>
    rw [List.forall_mem_cons] at hops
    rw [List.map_cons, castSources, castSources, h.mismatch? op]
    cases hmismatch : produced.mismatch? op with
    | none =>
      refine (ih h hops.2).bind fun x y hxy => .pure ?_
      obtain ⟨hmore, hlodged, hcasts, hseen⟩ := hxy
      exact ⟨by rw [List.map_cons, hmore], List.forall_mem_cons.2 ⟨hops.1, hlodged⟩, hcasts, hseen⟩
    | some found =>
      obtain ⟨id, source, target⟩ := found
      refine (cast_lockstep hcatalog source target id consumer consumer').bind fun x x' hx => ?_
      obtain ⟨fresh, i⟩ := x
      obtain ⟨fresh', i'⟩ := x'
      obtain ⟨hfresh, hi⟩ := hx
      have hfresh : fresh' = FreshIds.skip m fresh := hfresh
      subst hfresh
      refine (ih (h.insert fresh target) hops.2).bind fun y y' hy => .pure ?_
      obtain ⟨hmore, hlodged, hcasts, hseen⟩ := hy
      refine ⟨by rw [hmore]; rfl, ?_, .cons hi hcasts, hseen⟩
      have hregister := register_of_mismatch hmismatch
      exact List.forall_mem_cons.2 ⟨fun _ _ => hregister, hlodged⟩

theorem through_lockstep (hcode : List.Forall₂ (Instruction.Renumbered (FreshIds.skip m)) xs ys)
    (h : produced.Renumbered m produced') :
    Lockstep m context (fun x y =>
      List.Forall₂ (Piece.Rel (Instruction.Renumbered (FreshIds.skip m))) x.1 y.1 ∧
        x.2.Renumbered m y.2) (produced.through xs) (produced'.through ys) := by
  induction hcode generalizing produced produced' with
  | nil => exact .pure ⟨.nil, h⟩
  | @cons i i' rest rest' hi _ ih =>
    have hsame := hi.same
    have hsources : i'.sources = i.sources.map (Operand.mapId (FreshIds.skip m)) := by rw [hsame]; rfl
    rw [through, through, hsources]
    refine (castSources_lockstep hcatalog h i.id i'.id fun op hop =>
      hi.lodged op (List.mem_append_right _ hop)).bind fun x y hxy => ?_
    obtain ⟨hwired, hlodged, hcasts, hseen⟩ := hxy
    refine (ih (hseen.define hsame)).bind fun more more' hmore => .pure ?_
    refine ⟨.cons ⟨hcasts, ⟨?_, fun op hop => ?_⟩, .nil⟩ hmore.1, hmore.2⟩
    · rw [hwired, hsame]
      rfl
    · rcases List.mem_append.1 hop with hop | hop
      · exact hi.lodged op (List.mem_append_left _ hop)
      · exact hlodged op hop

end Declared
end Produced

variable (hcatalog : ∀ t ∈ context.catalog.templates, t.Typed) {text : Option String}
include hcatalog

theorem insertCasts_lockstep
    (h : Noted (Instruction.Renumbered (FreshIds.skip m)) Instruction.Seam
      (Instruction.notes m text) xs ys) :
    Lockstep m context
      (Noted (Instruction.Renumbered (FreshIds.skip m)) Instruction.Seam (Instruction.notes m text))
      (insertCasts xs) (insertCasts ys) := by
  cases h with
  | @intro front back front' back' hfront hback hseam =>
    have hstart : Produced.Renumbered m {} {} := fun _ => rfl
    simp only [insertCasts, Produced.castAll_eq_through, Produced.through_append, bind_assoc, pure_bind]
    refine ((Produced.through_lockstep hcatalog hfront hstart).and_left
      (Q := fun x => List.Forall₂ Piece.Wraps front x.1)
      fun _ _ _ => Produced.through_wraps).bind fun x x' hx => ?_
    obtain ⟨⟨hpieces, hseen⟩, hwraps⟩ := hx
    refine .right_bind (Produced.through_notes m x'.2 text) ?_
    refine ((Produced.through_lockstep hcatalog hback hseen).and_left
      (Q := fun y => List.Forall₂ Piece.Wraps back y.1)
      fun _ _ _ => Produced.through_wraps).bind fun y y' hy => .pure ?_
    obtain ⟨⟨hpieces', -⟩, hwraps'⟩ := hy
    exact Piece.layout_noted (fun _ _ h => h.isPointerLabel)
      (Instruction.not_pointer_of_notes m text) hseam hwraps hwraps' hpieces hpieces'

theorem legalize_lockstep
    (h : Noted (Instruction.Renumbered (FreshIds.skip m)) Instruction.Seam
      (Instruction.notes m text) xs ys) :
    Lockstep m context
      (Noted (Instruction.Renumbered (FreshIds.skip m)) Instruction.Seam (Instruction.notes m text))
      (legalize xs) (legalize ys) :=
  (resolveImmediates_lockstep hcatalog h).bind fun _ _ hresolved =>
    insertCasts_lockstep hcatalog hresolved

end Casts
end PlanLowering
