import Mathlib.Logic.Relation
import PlanLowering.Proofs.FunctionCode

/-!
# The stack pointer of a function

A run through one routine, with branches and with traps that the runtime was told to expect. Calls
are one step and keep the stack pointer, and so does the runtime; memory faults of the hardware and
runs that leave the routine for good are left out. Where the run is tells what the stack pointer
is: below its entry value by the frame, but for the entry and for the gap between the closing of
the frame and its return.
-/

namespace PlanLowering

open FreshIds (NamesLabel NamesPage)

/-- A place in a routine, in front of the instruction with this index, and the machine there. -/
structure Point (xlen : Xlen) (σ : Type) where
  index : Nat
  machine : Machine xlen σ

def Instruction.Mentions (i : Instruction) (slot : Slot) (s : String) : Prop :=
  ∃ o ∈ i.sources, o.slot = slot ∧ o.value = .symbol s

namespace Processor

variable {xlen : Xlen} {σ : Type}

inductive Step (p : Processor xlen σ) (code : List Instruction) :
    Point xlen σ → Point xlen σ → Prop where
  | next {k m i} (hi : code[k]? = some i) (hgoes : i.name ≠ "ret") :
      Step p code ⟨k, m⟩ ⟨k + 1, p.exec m i⟩
  | branch {k k' m i target} (hi : code[k]? = some i) (hgoes : i.name ≠ "ret")
      (htarget : code[k']? = some target) (hlabel : target.isLabel)
      (hgoal : i.Mentions .offset target.name) : Step p code ⟨k, m⟩ ⟨k', p.exec m i⟩
  | trap {k k' m m' i directive target} (hi : code[k]? = some i) (hpointer : i.isPointerLabel)
      (hdirective : directive ∈ code) (hfault : directive.Mentions .fault i.name)
      (htarget : code[k']? = some target) (hlabel : target.isLabel)
      (hresume : directive.Mentions .resume target.name)
      (hsp : m'.sp = m.sp) : Step p code ⟨k, m⟩ ⟨k', m'⟩

/-- From the entry to a point, without a return in between. -/
def Reaches (p : Processor xlen σ) (code : List Instruction) (m : Machine xlen σ)
    (x : Point xlen σ) : Prop :=
  Relation.ReflTransGen (p.Step code) ⟨0, m⟩ x

end Processor

/-- Memory behind the stack pointer is read or written. -/
def Instruction.AccessesStack (i : Instruction) : Prop :=
  (∃ o ∈ i.sources, o.value = .reg .sp) ∧ i.target? ≠ some .sp

variable {xlen : Xlen} {σ : Type} {p : Processor xlen σ} {m : Machine xlen σ}
variable {code rest out : List Instruction} {name : Id} {enter leave i o : Instruction}
variable {size entry : xlen.Word} {k : Nat}

section Closed

theorem drop_closed (h : (closed leave code)[k]? = some i) :
    (∃ after, after <:+ code ∧ (closed leave code).drop k = closed leave after) ∨
      ∃ ret after, ret.name = "ret" ∧ ret :: after <:+ code ∧
        (closed leave code).drop k = ret :: closed leave after := by
  induction code generalizing k with
  | nil => simp at h
  | cons j more ih =>
    have hbehind : ∀ k, (closed leave more)[k]? = some i →
        (∃ after, after <:+ j :: more ∧ (closed leave more).drop k = closed leave after) ∨
          ∃ ret after, ret.name = "ret" ∧ ret :: after <:+ j :: more ∧
            (closed leave more).drop k = ret :: closed leave after := by
      intro k hk
      rcases ih hk with ⟨after, hafter, hdrop⟩ | ⟨ret, after, hret, hafter, hdrop⟩
      · exact .inl ⟨after, hafter.trans (List.suffix_cons j more), hdrop⟩
      · exact .inr ⟨ret, after, hret, hafter.trans (List.suffix_cons j more), hdrop⟩
    rw [closed_cons] at h ⊢
    split at h
    · next hret =>
      rw [if_pos hret]
      match k with
      | 0 => exact .inl ⟨j :: more, List.suffix_refl _, by rw [closed_cons, if_pos hret]; rfl⟩
      | 1 => exact .inr ⟨j, more, hret, List.suffix_refl _, rfl⟩
      | k + 2 => exact hbehind k h
    · next hret =>
      rw [if_neg hret]
      match k with
      | 0 => exact .inl ⟨j :: more, List.suffix_refl _, by rw [closed_cons, if_neg hret]; rfl⟩
      | k + 1 => exact hbehind k h

end Closed

/-- Code with one frame, which is opened behind the label and closed in front of each return. -/
structure Framed (p : Processor xlen σ) (size : xlen.Word) (name : Id)
    (enter leave : Instruction) (rest : List Instruction) : Prop where
  page : NamesPage name
  enters : ∀ m, (p.exec m enter).sp = m.sp - size
  leaves : ∀ m, (p.exec m leave).sp = m.sp + size
  keeps : ∀ o ∈ rest, ∀ m, (p.exec m o).sp = m.sp
  plain : ∀ o ∈ [enter, leave], o.isLabel = false ∧ o.name ≠ "ret" ∧ ∀ slot s, ¬ o.Mentions slot s
  labels : ∀ o ∈ rest, o.isLabel → o.name ≠ "ret"
  goals : ∀ o ∈ rest, ∀ slot ∈ [Slot.offset, Slot.resume], ∀ s, o.Mentions slot s → NamesLabel s

def framedCode (name : Id) (enter leave : Instruction) (rest : List Instruction) :
    List Instruction :=
  .label name name false :: enter :: closed leave rest

namespace Framed

inductive Balance (leave : Instruction) (rest out : List Instruction) (entry size : xlen.Word) :
    Nat → xlen.Word → Prop where
  | entering {n} (hn : n ≤ 1) : Balance leave rest out entry size n entry
  | inside {n after} (hafter : after <:+ rest) (hdrop : out.drop n = closed leave after) :
      Balance leave rest out entry size n (entry - size)
  | returning {n ret after} (hret : ret.name = "ret") (hafter : ret :: after <:+ rest)
      (hdrop : out.drop n = ret :: closed leave after) : Balance leave rest out entry size n entry

variable (h : Framed p size name enter leave rest)

include h in
theorem mem (ho : o ∈ framedCode name enter leave rest) :
    o = .label name name false ∨ o ∈ [enter, leave] ∨ o ∈ rest := by
  simp only [framedCode, List.mem_cons] at ho
  rcases ho with rfl | rfl | ho
  · exact .inl rfl
  · exact .inr (.inl List.mem_cons_self)
  · rcases mem_closed ho with ho | rfl
    · exact .inr (.inr ho)
    · exact .inr (.inl (by simp))

include h in
theorem goal (ho : o ∈ framedCode name enter leave rest) {slot : Slot}
    (hslot : slot ∈ [Slot.offset, Slot.resume]) {s : String} (hs : o.Mentions slot s) :
    NamesLabel s := by
  rcases h.mem ho with rfl | ho | ho
  · obtain ⟨_, hmem, _⟩ := hs
    cases hmem
  · exact absurd hs ((h.plain o ho).2.2 slot s)
  · exact h.goals o ho slot hslot s hs

include h in
theorem balance_label (htarget : (framedCode name enter leave rest)[k]? = some o) (hlabel : o.isLabel)
    (hname : NamesLabel o.name) :
    Balance leave rest (framedCode name enter leave rest) entry size k (entry - size) := by
  match k with
  | 0 =>
    simp only [framedCode, List.getElem?_cons_zero, Option.some.injEq] at htarget
    subst htarget
    exact absurd h.page hname.not_page
  | 1 =>
    simp only [framedCode, List.getElem?_cons_succ, List.getElem?_cons_zero, Option.some.injEq]
      at htarget
    subst htarget
    rw [(h.plain enter (by simp)).1] at hlabel
    cases hlabel
  | k + 2 =>
    have htarget : (closed leave rest)[k]? = some o := htarget
    rcases drop_closed htarget with ⟨after, hafter, hdrop⟩ | ⟨ret, after, hret, _, hdrop⟩
    · exact .inside hafter hdrop
    · have hhead : (closed leave rest)[k]? = some ret := by
        rw [← List.head?_drop, hdrop, List.head?_cons]
      rw [htarget, Option.some.injEq] at hhead
      subst hhead
      exact absurd hret (FreshIds.ne_ret_of_label (.inl hname))

theorem head_closed {after : List Instruction}
    (hdrop : (framedCode name enter leave rest).drop k = closed leave after)
    (hi : (framedCode name enter leave rest)[k]? = some i) :
    (∃ j more, after = j :: more ∧ j.name = "ret" ∧ i = leave) ∨
      ∃ more, after = i :: more ∧ i.name ≠ "ret" := by
  rw [← List.head?_drop, hdrop] at hi
  cases after with
  | nil => simp at hi
  | cons j more =>
    rw [closed_cons] at hi
    split at hi
    · next hret => exact .inl ⟨j, more, rfl, hret, (Option.some.inj hi).symm⟩
    · next hret =>
      obtain rfl := Option.some.inj hi
      exact .inr ⟨more, rfl, hret⟩

theorem Balance.inside_of {sp : xlen.Word}
    (hbalance : Balance leave rest (framedCode name enter leave rest) entry size k sp)
    (hi : (framedCode name enter leave rest)[k]? = some i) (hlabel : i ≠ .label name name false)
    (henter : i ≠ enter) (hret : i.name ≠ "ret") : sp = entry - size := by
  cases hbalance with
  | entering hn =>
    match k with
    | 0 => exact absurd (Option.some.inj hi).symm hlabel
    | 1 => exact absurd (Option.some.inj hi).symm henter
  | inside => rfl
  | returning hname _ hdrop =>
    rw [← List.head?_drop, hdrop, List.head?_cons, Option.some.injEq] at hi
    exact absurd (hi ▸ hname) hret

include h

theorem balance_return {sp : xlen.Word}
    (hbalance : Balance leave rest (framedCode name enter leave rest) entry size k sp)
    (hi : (framedCode name enter leave rest)[k]? = some i) (hret : i.name = "ret") : sp = entry := by
  cases hbalance with
  | entering => rfl
  | inside _ hdrop =>
    rcases head_closed hdrop hi with ⟨_, _, _, _, rfl⟩ | ⟨_, _, hname⟩
    · exact absurd hret (h.plain i (by simp)).2.1
    · exact absurd hret hname
  | returning => rfl

theorem step_balance {x y : Point xlen σ}
    (hx : Balance leave rest (framedCode name enter leave rest) entry size x.index
      (x.machine.sp)) (hstep : p.Step (framedCode name enter leave rest) x y) :
    Balance leave rest (framedCode name enter leave rest) entry size y.index
      (y.machine.sp) := by
  cases hstep with
  | @next k m i hi hgoes =>
    dsimp only at hx ⊢
    generalize hsp : m.sp = sp at hx
    cases hx with
    | entering hn =>
      match k with
      | 0 =>
        obtain rfl : _ = i := Option.some.inj hi
        rw [Processor.exec_label rfl, hsp]
        exact .entering (Nat.le_refl 1)
      | 1 =>
        obtain rfl : enter = i := Option.some.inj hi
        rw [h.enters, hsp]
        exact .inside (List.suffix_refl rest) rfl
    | inside hafter hdrop =>
      rcases head_closed hdrop hi with ⟨ret, more, rfl, hret, rfl⟩ | ⟨more, rfl, hret⟩
      · rw [h.leaves, hsp, BitVec.sub_add_cancel]
        refine .returning hret hafter ?_
        rw [← List.tail_drop, hdrop, closed_cons, if_pos hret, List.tail_cons]
      · rw [h.keeps i (hafter.subset List.mem_cons_self), hsp]
        refine .inside ((List.suffix_cons i more).trans hafter) ?_
        rw [← List.tail_drop, hdrop, closed_cons, if_neg hret, List.tail_cons]
    | returning hret _ hdrop =>
      rw [← List.head?_drop, hdrop, List.head?_cons, Option.some.injEq] at hi
      exact absurd (hi ▸ hret) hgoes
  | @branch k k' m i target hi hgoes htarget hlabel hgoal =>
    have hmem := List.mem_of_getElem? hi
    have hentry : i ≠ .label name name false := by
      rintro rfl
      obtain ⟨_, hnone, _⟩ := hgoal
      cases hnone
    have hplain : i ∉ [enter, leave] := fun hplain => (h.plain i hplain).2.2 _ _ hgoal
    have hrest := ((h.mem hmem).resolve_left hentry).resolve_left hplain
    have hinside := hx.inside_of hi hentry (fun henter => hplain (by simp [henter])) hgoes
    dsimp only at hinside ⊢
    rw [h.keeps i hrest, hinside]
    exact h.balance_label htarget hlabel (h.goal hmem (by simp) hgoal)
  | @trap k k' m m' i directive target hi hpointer hdirective hfault htarget hlabel hresume hsp =>
    have hpointed : i.isLabel := by
      unfold Instruction.isLabel
      rw [Instruction.isPointerLabel, decide_eq_true_eq] at hpointer
      rw [hpointer]
    have hentry : i ≠ .label name name false := by
      rintro rfl
      cases hpointer
    have hplain : i ∉ [enter, leave] := by
      intro hplain
      rw [(h.plain i hplain).1] at hpointed
      cases hpointed
    have hrest := ((h.mem (List.mem_of_getElem? hi)).resolve_left hentry).resolve_left hplain
    have hinside := hx.inside_of hi hentry (fun henter => hplain (by simp [henter]))
      (h.labels i hrest hpointed)
    dsimp only at hinside ⊢
    rw [hsp, hinside]
    exact h.balance_label htarget hlabel (h.goal hdirective (by simp) hresume)

theorem reached_balance {x : Point xlen σ}
    (hreach : p.Reaches (framedCode name enter leave rest) m x) :
    Balance leave rest (framedCode name enter leave rest) (m.sp) size x.index
      (x.machine.sp) := by
  induction hreach with
  | refl => exact .entering (Nat.zero_le 1)
  | tail _ hstep ih => exact h.step_balance ih hstep

end Framed

/-- Without a frame nothing moves the stack pointer. -/
theorem reached_keeps_sp (hkeeps : ∀ o ∈ code, ∀ m, (p.exec m o).sp = m.sp)
    {x : Point xlen σ} (hreach : p.Reaches code m x) : x.machine.sp = m.sp := by
  induction hreach with
  | refl => rfl
  | tail _ hstep ih =>
    cases hstep with
    | next hi => exact (hkeeps _ (List.mem_of_getElem? hi) _).trans ih
    | branch hi => exact (hkeeps _ (List.mem_of_getElem? hi) _).trans ih
    | trap _ _ _ _ _ _ _ hsp => exact hsp.trans ih

variable {a : Allocation} {spill : SpillCode} {context : Context}

section Spill

variable {r : Register} {slot : Nat} {id : Id}

theorem SpillCode.address_reload (hdeclared : spill.Declared xlen)
    (h : spill.reload r slot id = .ok o) : m.address? o = some (spill.cell m slot) := by
  simp only [reload, except_bind_ok, except_pure_ok] at h
  obtain ⟨i, htemplate, i₁, hdest, i₂, hbase, i₃, himm, rfl⟩ := h
  obtain ⟨hspills, _⟩ := (hdeclared.load r i htemplate).setDestination hdest
  exact (hspills.address hbase himm s!"{id}.reload").2.1

theorem SpillCode.address_save (hdeclared : spill.Declared xlen)
    (h : spill.save r slot id = .ok o) : m.address? o = some (spill.cell m slot) := by
  simp only [save, except_bind_ok, except_pure_ok] at h
  obtain ⟨i, htemplate, i₁, hdata, i₂, hbase, i₃, himm, rfl⟩ := h
  obtain ⟨hspills, _⟩ := (hdeclared.store r i htemplate).1.setSource hdata
  exact (hspills.address hbase himm s!"{id}.spill").2.1

namespace Allocation

theorem Reaches.address (h : a.Reaches spill o) (hdeclared : spill.Declared xlen)
    (hsound : a.Sound {}) : ∃ n < a.slots.size, m.address? o = some (spill.cell m n) := by
  cases h with
  | reload _ hslot h =>
    exact ⟨_, (hsound.numbered _).1 ⟨_, hslot⟩, SpillCode.address_reload hdeclared h⟩
  | save hslot h =>
    exact ⟨_, (hsound.numbered _).1 ⟨_, hslot⟩, SpillCode.address_save hdeclared h⟩

theorem Reaches.keeps_sp (h : a.Reaches spill o) (hdeclared : spill.Declared xlen) :
    (p.exec m o).sp = m.sp := by
  cases h with
  | reload hr _ h =>
    rw [Machine.sp, (SpillCode.exec_reload hdeclared h).2.2.1]
    exact Function.update_of_ne hr.ne_sp.symm _ _
  | save _ h => rw [Machine.sp, (SpillCode.exec_save hdeclared h).2.2.1]

end Allocation

theorem SpillCode.moveStack_plain {bytes : Int}
    (htyped : ∀ t ∈ context.catalog.templates, t.Typed)
    (hspill : SpillCode.ofContext context = .ok spill) (h : spill.moveStack bytes id = .ok o) :
    o.isLabel = false ∧ o.name ≠ "ret" ∧ ∀ slot s, ¬ o.Mentions slot s := by
  have hmade : spill.Makes o := .moveStack h
  refine ⟨hmade.not_label hspill, hmade.ne_return hspill, ?_⟩
  rintro slot s ⟨op, hop, _, hs⟩
  exact hmade.no_symbol htyped hspill op hop s hs

end Spill

namespace Allocation.Lays

variable (h : a.Lays spill name rest out)
include h

theorem keeps_sp (hdeclared : spill.Declared xlen) :
    ∀ o ∈ rest, ∀ m, (p.exec m o).sp = m.sp := fun o ho _ =>
  (h.members o ho).elim (fun hconventional => hconventional.keeps_sp)
    fun hreaches => hreaches.keeps_sp hdeclared

theorem framed_of_moves (hname : NamesPage name)
    (htyped : ∀ t ∈ context.catalog.templates, t.Typed) (hdeclared : spill.Declared xlen)
    (hspill : SpillCode.ofContext context = .ok spill)
    (henter : spill.moveStack (-spill.offset a.slots.size) "spill_frame_open" = .ok enter)
    (hleave : spill.moveStack (spill.offset a.slots.size) "spill_frame_close" = .ok leave) :
    Framed p (BitVec.ofNat _ (a.slots.size * xlen.bytes)) name enter leave rest where
  page := hname
  enters m := by
    rw [Machine.sp, (SpillCode.exec_moveStack hdeclared henter).2.2.1, Function.update_self,
      SpillCode.offset, hdeclared.width, BitVec.ofInt_neg, BitVec.ofInt_natCast]
    exact (BitVec.sub_eq_add_neg _ _).symm
  leaves m := by
    rw [Machine.sp, (SpillCode.exec_moveStack hdeclared hleave).2.2.1, Function.update_self,
      SpillCode.offset, hdeclared.width, BitVec.ofInt_natCast]
    rfl
  keeps := h.keeps_sp hdeclared
  plain := by
    simp only [List.forall_mem_cons]
    exact ⟨SpillCode.moveStack_plain htyped hspill henter,
      SpillCode.moveStack_plain htyped hspill hleave, by simp⟩
  labels := by
    intro o ho hlabel
    rcases h.members o ho with hconventional | hreaches
    · exact FreshIds.ne_ret_of_label (hconventional.label hlabel)
    · rw [hreaches.makes.not_label hspill] at hlabel
      cases hlabel
  goals := by
    rintro o ho slot hslot s ⟨op, hop, rfl, hs⟩
    rcases h.members o ho with hconventional | hreaches
    · exact hconventional.goals op hop (by simpa using hslot) s hs
    · exact absurd hs (hreaches.makes.no_symbol htyped hspill op hop s)

end Allocation.Lays

/-- At every return that a run reaches, the stack pointer is back where it was at the entry. Where it
is used to access memory, it lies so many slots below that, and the access is to one of them. -/
structure Routine.Balanced (routine : Routine) (xlen : Xlen) (slots : Nat) : Prop where
  returns : ∀ (σ : Type) (p : Processor xlen σ) (m : Machine xlen σ) (x : Point xlen σ)
    (i : Instruction), p.Reaches routine.instructions m x →
      routine.instructions[x.index]? = some i → i.name = "ret" → x.machine.sp = m.sp
  accesses : ∀ (σ : Type) (p : Processor xlen σ) (m : Machine xlen σ) (x : Point xlen σ)
    (i : Instruction), p.Reaches routine.instructions m x →
      routine.instructions[x.index]? = some i → i.AccessesStack →
      x.machine.sp = m.sp - BitVec.ofNat _ (slots * xlen.bytes) ∧
        ∃ n < slots, x.machine.address? i = some (x.machine.sp.toNat + (n * xlen.bytes : Nat))

namespace Allocation.Lays

variable {routine : Routine}

theorem reaches_of_access (h : a.Lays spill name rest out)
    (ho : o ∈ rest) (haccess : o.AccessesStack) : a.Reaches spill o := by
  obtain ⟨⟨op, hop, hsp⟩, _⟩ := haccess
  refine (h.members o ho).resolve_left fun hconventional => ?_
  exact hconventional.sources op hop .sp hsp rfl

theorem balanced (h : a.Lays spill routine.name rest routine.instructions)
    (hsound : a.Sound {}) (hname : NamesPage routine.name) {specs : List TemplateSpec} {width : Xlen}
    (hcatalog : Catalog.ofSpecs specs width = .ok context.catalog)
    (hspill : SpillCode.ofContext context = .ok spill) :
    routine.Balanced context.environment.xlen a.slots.size := by
  have hdeclared := SpillCode.ofContext_declared hcatalog hspill
  have hlabel : ¬ (Instruction.label routine.name routine.name false).AccessesStack := by
    rintro ⟨⟨_, hnone, _⟩, _⟩
    cases hnone
  rcases h.framed with ⟨hempty, hout⟩ | ⟨enter, leave, henter, hleave, hout⟩
  · have hkeeps {σ : Type} {p : Processor context.environment.xlen σ} :
        ∀ o ∈ routine.instructions, ∀ m, (p.exec m o).sp = m.sp := by
      rw [hout, List.forall_mem_cons]
      exact ⟨fun _ => by rw [Processor.exec_label rfl], h.keeps_sp hdeclared⟩
    constructor
    · exact fun σ p m x i hreach _ _ => reached_keeps_sp hkeeps hreach
    · intro σ p m x i _ hi haccess
      rcases List.mem_cons.1 (hout ▸ List.mem_of_getElem? hi) with rfl | hi
      · exact absurd haccess hlabel
      · obtain ⟨n, hn, _⟩ := (h.reaches_of_access hi haccess).address (m := x.machine)
          hdeclared hsound
        omega
  · have hframed {σ : Type} (p : Processor context.environment.xlen σ) :=
      h.framed_of_moves (p := p) hname (Catalog.ofSpecs_typed hcatalog) hdeclared hspill
        henter hleave
    change routine.instructions = framedCode routine.name enter leave rest at hout
    constructor
    · intro σ p m x i hreach hi hret
      rw [hout] at hreach hi
      exact (hframed p).balance_return ((hframed p).reached_balance hreach) hi hret
    · intro σ p m x i hreach hi haccess
      rw [hout] at hreach hi
      have hplain : i ∉ [enter, leave] := by
        intro hplain
        simp only [List.mem_cons, List.not_mem_nil, or_false] at hplain
        rcases hplain with rfl | rfl
        · exact haccess.2 (SpillCode.exec_moveStack (p := p) (m := m) hdeclared henter).2.1
        · exact haccess.2 (SpillCode.exec_moveStack (p := p) (m := m) hdeclared hleave).2.1
      have hentry : i ≠ .label routine.name routine.name false := by
        rintro rfl
        exact hlabel haccess
      have hmem := (((hframed p).mem (List.mem_of_getElem? hi)).resolve_left hentry).resolve_left
        hplain
      have hreaches := h.reaches_of_access hmem haccess
      have hsp := ((hframed p).reached_balance hreach).inside_of hi hentry
        (fun henter => hplain (by simp [henter])) (hreaches.makes.ne_return hspill)
      obtain ⟨n, hn, haddress⟩ := hreaches.address (m := x.machine) hdeclared hsound
      rw [haddress, SpillCode.cell, SpillCode.offset, hdeclared.width]
      exact ⟨hsp, n, hn, rfl⟩

end Allocation.Lays

namespace Program

/-- Every function of a lowered program starts with its label, ends with a return, and keeps the
stack pointer. -/
theorem functions_balanced {scenarios : List Scenario} {program : Program} {routine : Routine}
    (hcatalog : Catalog.builtin context.environment.xlen = .ok context.catalog)
    (h : lowerScenarios .standard context scenarios = .ok program)
    (hroutine : routine ∈ program.functions) :
    (∃ mid ret, routine.instructions =
      .label routine.name routine.name false :: mid ++ [ret] ∧ ret.name = "ret") ∧
      ∃ slots, routine.Balanced context.environment.xlen slots := by
  obtain ⟨a, spill, rest, hsound, hspill, hname, hlays⟩ := functions_lay hcatalog h hroutine
  refine ⟨?_, a.slots.size, hlays.balanced hsound hname hcatalog hspill⟩
  obtain ⟨mid, last, rfl, hlast⟩ := hlays.returns
  rcases hlays.framed with ⟨_, hout⟩ | ⟨enter, leave, _, _, hout⟩
  · exact ⟨mid, last, hout, hlast.name⟩
  · refine ⟨enter :: (closed leave mid ++ [leave]), last, ?_, hlast.name⟩
    rw [hout]
    simp [closed, hlast.name]

/-- A function that may return early. -/
def earlyReturn : List Scenario :=
  [{ name := "t", steps := [{ id := "f", kind := .codePage {}, code := [
    { id := "r", kind := .system "ret" }, { id := "c", kind := .comment "behind" }] }] }]

theorem earlyReturn_balanced : ∃ catalog program, Catalog.builtin .rv64 = .ok catalog ∧
    lowerScenarios .standard (standardContext catalog) earlyReturn = .ok program ∧
    ∃ routine ∈ program.functions,
      (∃ mid ret, routine.instructions =
        .label routine.name routine.name false :: mid ++ [ret] ∧ ret.name = "ret") ∧
        ∃ slots, routine.Balanced .rv64 slots := by
  obtain ⟨program, h, routine, hroutine, _⟩ : ∃ program,
      lowerScenarios .standard (standardContext .rv64) earlyReturn = .ok program ∧
      ∃ routine ∈ program.functions, routine.name = "code_mem0" :=
    exists_lowered rfl (by decide +kernel)
  have hbuiltin : Catalog.builtin (standardContext .rv64).environment.xlen =
      .ok (standardContext .rv64).catalog := Catalog.builtin_rv64
  exact ⟨.rv64, program, Catalog.builtin_rv64, h, routine, hroutine,
    functions_balanced hbuiltin h hroutine⟩

end Program
end PlanLowering
