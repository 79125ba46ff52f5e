import Mathlib.Data.List.Forall2
import PlanLowering.Allocation.Spill
import PlanLowering.Proofs.Catalog
import PlanLowering.Proofs.Wiring

/-!
# Members of allocated code

What stands in allocated code, whatever its order: each instruction of the code before, with
registers for ids, and spill code. What the scratch registers hold at a reload is left open here.
-/

namespace PlanLowering

theorem Piece.mem_place {o : Instruction} {held : List Instruction} {pieces : List Piece} :
    o ∈ place held pieces ↔
      o ∈ held ∨ ∃ p ∈ pieces, o ∈ p.before ∨ o = p.instruction ∨ o ∈ p.after := by
  induction pieces generalizing held with
  | nil => simp [place]
  | cons p rest ih =>
    rw [List.exists_mem_cons_iff, place]
    by_cases hlabel : p.instruction.isPointerLabel ∧ p.after = []
    · rw [if_pos hlabel, List.mem_append, List.mem_append, ih, List.mem_singleton, hlabel.2]
      simp only [List.not_mem_nil, or_false, or_assoc, or_left_comm]
    · rw [if_neg hlabel, List.mem_append, List.mem_append, List.mem_append, List.mem_cons, ih]
      simp only [List.not_mem_nil, false_or, or_assoc, or_left_comm]

theorem Piece.mem_layout {o : Instruction} {pieces : List Piece} : o ∈ layout pieces ↔
    ∃ p ∈ pieces, o ∈ p.before ∨ o = p.instruction ∨ o ∈ p.after := by
  simp [layout, mem_place]

/-- Virtual operands became registers, and all others are as they were. -/
def Operand.Placed (op op' : Operand) : Prop :=
  match op.virtual? with
  | none => op' = op
  | some _ => ∃ r, op' = { op with value := .reg r }

/-- An instruction and what allocation made of it. -/
structure Instruction.Placed (i o : Instruction) : Prop where
  same : o = { i with destination := o.destination, sources := o.sources }
  destination : List.Forall₂ Operand.Placed i.destination.toList o.destination.toList
  sources : List.Forall₂ Operand.Placed i.sources o.sources

/-- An instruction that allocation puts in. -/
inductive SpillCode.Makes (spill : SpillCode) : Instruction → Prop where
  | reload {r slot id o} (h : spill.reload r slot id = .ok o) : Makes spill o
  | save {r slot id o} (h : spill.save r slot id = .ok o) : Makes spill o
  | moveStack {bytes id o} (h : spill.moveStack bytes id = .ok o) : Makes spill o

/-- The body stays, and the only code around it moves the stack pointer. -/
theorem SpillCode.mem_frame {spill : SpillCode} {slots : Nat} {body out : List Instruction}
    (h : spill.frame slots body = .ok out) :
    body ⊆ out ∧ ∀ o ∈ out, o ∈ body ∨ spill.Makes o := by
  simp only [frame, except_bind_ok] at h
  obtain ⟨enter, henter, leave, hleave, h⟩ := h
  have hclosing (code : List Instruction) :
      let closed := code.flatMap fun i => if i.name = "ret" then [leave, i] else [i]
      code ⊆ closed ∧ ∀ o ∈ closed, o ∈ code ∨ o = leave := by
    constructor
    · intro o ho
      refine List.mem_flatMap.2 ⟨o, ho, ?_⟩
      split <;> simp
    · intro o ho
      obtain ⟨i, hi, ho⟩ := List.mem_flatMap.1 ho
      split at ho
      · rw [List.mem_cons, List.mem_singleton] at ho
        rcases ho with rfl | rfl
        · exact .inr rfl
        · exact .inl hi
      · rw [List.mem_singleton] at ho
        exact .inl (ho ▸ hi)
  cases body with
  | nil =>
    simp only [except_pure_ok] at h
    subst h
    simpa using Makes.moveStack henter
  | cons first rest =>
    dsimp only at h
    split at h
    · rw [except_pure_ok] at h
      subst h
      obtain ⟨hkept, hnew⟩ := hclosing rest
      constructor
      · intro o ho
        rcases List.mem_cons.1 ho with rfl | ho
        · exact List.mem_cons_self
        · exact List.mem_cons_of_mem _ (List.mem_cons_of_mem _ (hkept ho))
      · intro o ho
        simp only [List.mem_cons] at ho
        rcases ho with rfl | rfl | ho
        · exact .inl List.mem_cons_self
        · exact .inr (.moveStack henter)
        · rcases hnew o ho with ho | rfl
          · exact .inl (List.mem_cons_of_mem _ ho)
          · exact .inr (.moveStack hleave)
    · rw [except_pure_ok] at h
      subst h
      obtain ⟨hkept, hnew⟩ := hclosing (first :: rest)
      refine ⟨fun o ho => List.mem_cons_of_mem _ (hkept ho), fun o ho => ?_⟩
      rcases List.mem_cons.1 ho with rfl | ho
      · exact .inr (.moveStack henter)
      · rcases hnew o ho with ho | rfl
        · exact .inl ho
        · exact .inr (.moveStack hleave)

namespace Reloads

variable {spill : SpillCode} {reloads reloads' : Reloads} {consumer id : Id} {slot : Nat}
variable {file : RegisterFile} {r : Register}

def Grows (reloads reloads' : Reloads) : Prop :=
  ∀ id r, reloads.held.get? id = some r → reloads'.held.get? id = some r

/-- An id is found where it is held, or takes the next scratch register of its file. -/
theorem reload_cases (h : reload spill consumer file id slot reloads = .ok (r, reloads')) :
    (reloads.held.get? id = some r ∧ reloads' = reloads) ∨
      (reloads.held.get? id = none ∧
        file.scratch[(reloads.held.entries.filter fun entry => entry.2.file = file).length]? =
          some r ∧
        ∃ o, spill.reload r slot id = .ok o ∧
          reloads' = { held := reloads.held.insert id r, code := reloads.code ++ [o] }) := by
  unfold reload at h
  cases hheld : reloads.held.get? id with
  | some s =>
    simp only [hheld, except_pure_ok, Prod.mk.injEq] at h
    exact .inl ⟨congrArg some h.1, h.2.symm⟩
  | none =>
    simp only [hheld] at h
    split at h
    · simp at h
    · next s hnext =>
      simp only [except_bind_ok, except_pure_ok, Prod.mk.injEq] at h
      obtain ⟨o, ho, rfl, rfl⟩ := h
      exact .inr ⟨rfl, hnext, o, ho, rfl⟩

theorem reload_grows (h : reload spill consumer file id slot reloads = .ok (r, reloads')) :
    reloads.Grows reloads' ∧ reloads'.held.get? id = some r := by
  rcases reload_cases h with ⟨hheld, rfl⟩ | ⟨hnone, _, o, _, rfl⟩
  · exact ⟨fun _ _ hr => hr, hheld⟩
  · refine ⟨fun key t ht => ?_, by simp⟩
    have hne : key ≠ id := by
      rintro rfl
      rw [hnone] at ht
      cases ht
    simpa [hne] using ht

/-- A property that reloads for these operands preserve, their values being on the stack. -/
def Preserved (a : Allocation) (spill : SpillCode) (ops : List Operand) (I : Reloads → Prop) :
    Prop :=
  ∀ op ∈ ops, ∀ consumer file id slot reloads r reloads', op.virtual? = some id →
    op.type.file? = some file → a.registers.get? id = none → a.slots.get? id = some slot →
      I reloads → reload spill consumer file id slot reloads = .ok (r, reloads') → I reloads'

theorem makes_preserved (a : Allocation) (ops : List Operand) :
    Preserved a spill ops fun reloads => ∀ o ∈ reloads.code, spill.Makes o := by
  intro _ _ consumer file id slot reloads r reloads' _ _ _ _ hcode h
  rcases reload_cases h with ⟨_, rfl⟩ | ⟨_, _, o, ho, rfl⟩
  · exact hcode
  · intro o' ho'
    rcases List.mem_append.1 ho' with ho' | ho'
    · exact hcode o' ho'
    · rw [List.mem_singleton] at ho'
      exact ho' ▸ .reload ho

end Reloads

namespace Allocation

variable {a : Allocation} {spill : SpillCode} {I : Reloads → Prop}
variable {reloads reloads' : Reloads} {consumer id : Id} {op op' : Operand}
variable {ops ops' : List Operand}
variable {after : List Instruction} {i : Instruction} {piece : Piece}

theorem location_ok {location : Location} (h : a.location id = .ok location) :
    (∃ r, a.registers.get? id = some r ∧ location = .register r) ∨
      (∃ n, a.registers.get? id = none ∧ a.slots.get? id = some n ∧ location = .slot n) := by
  unfold Allocation.location at h
  cases hregister : a.registers.get? id with
  | some r =>
    simp only [hregister, except_pure_ok] at h
    exact .inl ⟨r, rfl, h.symm⟩
  | none =>
    cases hslot : a.slots.get? id with
    | none => simp [hregister, hslot] at h
    | some n =>
      simp only [hregister, hslot, except_pure_ok] at h
      exact .inr ⟨n, rfl, rfl, h.symm⟩

def Sourced (a : Allocation) (reloads : Reloads) (op op' : Operand) : Prop :=
  match op.virtual? with
  | none => op' = op
  | some id => ∃ r, op' = { op with value := .reg r } ∧
      (a.registers.get? id = some r ∨ reloads.held.get? id = some r)

theorem Sourced.placed (h : a.Sourced reloads op op') : op.Placed op' := by
  unfold Sourced at h
  unfold Operand.Placed
  cases hvirtual : op.virtual? with
  | none => simpa [hvirtual] using h
  | some id =>
    simp only [hvirtual] at h ⊢
    obtain ⟨r, hr, _⟩ := h
    exact ⟨r, hr⟩

theorem replaceSources_ok (hstep : Reloads.Preserved a spill ops I)
    (h : a.replaceSources spill consumer reloads ops = .ok (ops', reloads')) (hI : I reloads) :
    I reloads' ∧ reloads.Grows reloads' ∧ List.Forall₂ (a.Sourced reloads') ops ops' := by
  induction ops generalizing reloads ops' with
  | nil =>
    simp only [replaceSources, except_pure_ok, Prod.mk.injEq] at h
    obtain ⟨rfl, rfl⟩ := h
    exact ⟨hI, fun _ _ hr => hr, .nil⟩
  | cons op rest ih =>
    have ih := fun {reloads ops'} =>
      @ih reloads ops' fun other hother => hstep other (List.mem_cons_of_mem _ hother)
    cases hop : op.virtual? with
    | none =>
      simp only [replaceSources, hop, except_bind_ok, except_pure_ok, Prod.exists,
        Prod.mk.injEq] at h
      obtain ⟨more, _, hrest, rfl, rfl⟩ := h
      obtain ⟨hI', hgrows, hmore⟩ := ih hrest hI
      exact ⟨hI', hgrows, .cons (by simp [Sourced, hop]) hmore⟩
    | some id =>
      obtain ⟨file, hfile⟩ := Operand.file_of_virtual hop
      simp only [replaceSources, hop, hfile, except_bind_ok] at h
      obtain ⟨location, hlocation, h⟩ := h
      rcases location_ok hlocation with ⟨s, hs, rfl⟩ | ⟨n, hnone, hn, rfl⟩
      · simp only [except_bind_ok, except_pure_ok, Prod.exists, Prod.mk.injEq] at h
        obtain ⟨_, _, ⟨rfl, rfl⟩, more, _, hrest, rfl, rfl⟩ := h
        obtain ⟨hI', hgrows, hmore⟩ := ih hrest hI
        refine ⟨hI', hgrows, .cons ?_ hmore⟩
        simp only [Sourced, hop]
        exact ⟨s, rfl, .inl hs⟩
      · simp only [except_bind_ok, except_pure_ok, Prod.exists, Prod.mk.injEq] at h
        obtain ⟨r, next, hr, more, _, hrest, rfl, rfl⟩ := h
        obtain ⟨hgrows, hheld⟩ := Reloads.reload_grows hr
        obtain ⟨hI', hgrows', hmore⟩ := ih hrest
          (hstep op List.mem_cons_self _ _ _ _ _ _ _ hop hfile hnone hn hI hr)
        refine ⟨hI', fun key t ht => hgrows' key t (hgrows key t ht), .cons ?_ hmore⟩
        simp only [Sourced, hop]
        exact ⟨r, rfl, .inr (hgrows' id r hheld)⟩

/-- A destination, what replaces it, and the code behind it that takes the result to its slot. -/
inductive Targeted (a : Allocation) (spill : SpillCode) (reloads : Reloads) (op : Operand) :
    Operand → List Instruction → Prop where
  | fixed (hop : op.virtual? = none) : Targeted a spill reloads op op []
  | register {id r} (hop : op.virtual? = some id) (hr : a.registers.get? id = some r) :
      Targeted a spill reloads op { op with value := .reg r } []
  | slot {id file r n o} (hop : op.virtual? = some id) (hfile : op.type.file? = some file)
      (hnone : a.registers.get? id = none) (hn : a.slots.get? id = some n)
      (hr : r = (reloads.held.get? id).getD (RegisterFile.resultScratch file))
      (ho : spill.save r n id = .ok o) : Targeted a spill reloads op { op with value := .reg r } [o]

theorem replaceDestination_ok (h : a.replaceDestination spill reloads op = .ok (op', after)) :
    a.Targeted spill reloads op op' after := by
  cases hop : op.virtual? with
  | none =>
    simp only [replaceDestination, hop, except_pure_ok, Prod.mk.injEq] at h
    obtain ⟨rfl, rfl⟩ := h
    exact .fixed hop
  | some id =>
    obtain ⟨file, hfile⟩ := Operand.file_of_virtual hop
    simp only [replaceDestination, hop, hfile, except_bind_ok] at h
    obtain ⟨location, hlocation, h⟩ := h
    rcases location_ok hlocation with ⟨r, hr, rfl⟩ | ⟨n, hnone, hn, rfl⟩
    · simp only [except_pure_ok, Prod.mk.injEq] at h
      obtain ⟨rfl, rfl⟩ := h
      exact .register hop hr
    · simp only [except_bind_ok, except_pure_ok, Prod.mk.injEq] at h
      obtain ⟨o, ho, rfl, rfl⟩ := h
      exact .slot hop hfile hnone hn rfl ho

/-- What allocation makes of one instruction, given the reloads in front of it. -/
structure Rewrites (a : Allocation) (spill : SpillCode) (reloads : Reloads) (i : Instruction)
    (piece : Piece) : Prop where
  same : piece.instruction = { i with
    destination := piece.instruction.destination, sources := piece.instruction.sources }
  before : piece.before = reloads.code
  sources : List.Forall₂ (a.Sourced reloads) i.sources piece.instruction.sources
  destination : (i.destination = none ∧ piece.instruction.destination = none ∧ piece.after = []) ∨
    ∃ op op', i.destination = some op ∧ piece.instruction.destination = some op' ∧
      a.Targeted spill reloads op op' piece.after

theorem replaceOperands_ok (hstep : Reloads.Preserved a spill i.sources I) (hI : I {})
    (h : a.replaceOperands spill i = .ok piece) :
    ∃ reloads, I reloads ∧ a.Rewrites spill reloads i piece := by
  simp only [replaceOperands, except_bind_ok, Prod.exists] at h
  obtain ⟨sources, reloads, hsources, h⟩ := h
  obtain ⟨hI', _, hsourced⟩ := replaceSources_ok hstep hsources hI
  refine ⟨reloads, hI', ?_⟩
  cases hdest : i.destination with
  | none =>
    simp only [hdest, except_pure_ok] at h
    subst h
    exact ⟨by simp, rfl, hsourced, .inl ⟨hdest, rfl, rfl⟩⟩
  | some op =>
    simp only [hdest, except_bind_ok, except_pure_ok, Prod.exists] at h
    obtain ⟨op', after, hop', rfl⟩ := h
    exact ⟨rfl, rfl, hsourced, .inr ⟨op, op', hdest, rfl, replaceDestination_ok hop'⟩⟩

namespace Rewrites

theorem placed (h : a.Rewrites spill reloads i piece) : i.Placed piece.instruction where
  same := h.same
  destination := by
    rcases h.destination with ⟨hdest, hdest', _⟩ | ⟨op, op', hdest, hdest', htargeted⟩
    · rw [hdest, hdest']
      exact .nil
    · rw [hdest, hdest']
      refine .cons ?_ .nil
      generalize piece.after = after at htargeted
      cases htargeted with
      | fixed hop => simp [Operand.Placed, hop]
      | register hop _ => simp [Operand.Placed, hop]
      | slot hop _ _ _ _ _ => simp [Operand.Placed, hop]
  sources := h.sources.imp fun _ _ hop => hop.placed

theorem makes (h : a.Rewrites spill reloads i piece)
    (hcode : ∀ o ∈ reloads.code, spill.Makes o) :
    ∀ o ∈ piece.before ++ piece.after, spill.Makes o := by
  intro o ho
  rcases List.mem_append.1 ho with ho | ho
  · exact hcode o (h.before ▸ ho)
  · rcases h.destination with ⟨_, _, hafter⟩ | ⟨op, op', _, _, htargeted⟩
    · rw [hafter] at ho
      cases ho
    · generalize piece.after = after at htargeted ho
      cases htargeted with
      | fixed _ => cases ho
      | register _ _ => cases ho
      | slot _ _ _ _ _ hsave =>
        rw [List.mem_singleton] at ho
        exact ho ▸ .save hsave

end Rewrites

variable {code out : List Instruction} {context : Context}

/-- An instruction stays but for its ids, and what is put around it is spill code. -/
theorem replaceOperands_makes (h : a.replaceOperands spill i = .ok piece) :
    i.Placed piece.instruction ∧ ∀ o ∈ piece.before ++ piece.after, spill.Makes o := by
  obtain ⟨reloads, hmakes, hrewrites⟩ :=
    replaceOperands_ok (Reloads.makes_preserved a _) (by simp) h
  exact ⟨hrewrites.placed, hrewrites.makes hmakes⟩

theorem replaceAll_pairs {pieces : List Piece} (h : a.replaceAll spill code = .ok pieces) :
    ∃ pairs : List (Instruction × Piece), pairs.map Prod.fst = code ∧
      pairs.map Prod.snd = pieces ∧
      ∀ pair ∈ pairs, a.replaceOperands spill pair.1 = .ok pair.2 := by
  induction code generalizing pieces with
  | nil =>
    simp only [replaceAll, except_pure_ok] at h
    exact ⟨[], rfl, h, by simp⟩
  | cons i rest ih =>
    simp only [replaceAll, except_bind_ok, except_pure_ok] at h
    obtain ⟨piece, hpiece, more, hmore, rfl⟩ := h
    obtain ⟨pairs, rfl, rfl, hpairs⟩ := ih hmore
    exact ⟨(i, piece) :: pairs, rfl, rfl, List.forall_mem_cons.2 ⟨hpiece, hpairs⟩⟩

theorem mem_replaceAll {pieces : List Piece} (h : a.replaceAll spill code = .ok pieces) :
    (∀ i ∈ code, ∃ p ∈ pieces, i.Placed p.instruction) ∧
      ∀ p ∈ pieces, (∃ i ∈ code, i.Placed p.instruction) ∧
        ∀ o ∈ p.before ++ p.after, spill.Makes o := by
  obtain ⟨pairs, rfl, rfl, hpairs⟩ := replaceAll_pairs h
  have hpair : ∀ pair ∈ pairs, pair.1.Placed pair.2.instruction ∧
      ∀ o ∈ pair.2.before ++ pair.2.after, spill.Makes o := fun pair hpair =>
    replaceOperands_makes (hpairs pair hpair)
  constructor
  · intro i hi
    obtain ⟨pair, hmem, rfl⟩ := List.mem_map.1 hi
    exact ⟨pair.2, List.mem_map_of_mem hmem, (hpair pair hmem).1⟩
  · intro p hp
    obtain ⟨pair, hmem, rfl⟩ := List.mem_map.1 hp
    exact ⟨⟨pair.1, List.mem_map_of_mem hmem, (hpair pair hmem).1⟩, (hpair pair hmem).2⟩

/-- The pieces as they are where nothing was spilled, and otherwise a frame around them. -/
theorem apply_ok (h : a.apply context code = .ok out) :
    ∃ spill pieces, SpillCode.ofContext context = .ok spill ∧ a.replaceAll spill code = .ok pieces ∧
      (a.slots.size = 0 ∧ out = Piece.layout pieces ∨
        a.slots.size ≠ 0 ∧ spill.frame a.slots.size (Piece.layout pieces) = .ok out) := by
  simp only [apply, except_bind_ok] at h
  obtain ⟨spill, hspill, pieces, hpieces, h⟩ := h
  refine ⟨spill, pieces, hspill, hpieces, ?_⟩
  split at h
  next hslots => exact .inl ⟨hslots, (except_pure_ok.1 h).symm⟩
  next hslots => exact .inr ⟨hslots, h⟩

/-- Allocated code has every instruction of the code before, and otherwise spill code. -/
theorem mem_apply (h : a.apply context code = .ok out) :
    ∃ spill, SpillCode.ofContext context = .ok spill ∧
      (∀ i ∈ code, ∃ o ∈ out, i.Placed o) ∧
      ∀ o ∈ out, spill.Makes o ∨ ∃ i ∈ code, i.Placed o := by
  obtain ⟨spill, pieces, hspill, hpieces, hframe⟩ := apply_ok h
  obtain ⟨hcode, hback⟩ := mem_replaceAll hpieces
  have hbody : ∀ o ∈ Piece.layout pieces, spill.Makes o ∨ ∃ i ∈ code, i.Placed o := by
    intro o ho
    obtain ⟨p, hp, ho⟩ := Piece.mem_layout.1 ho
    obtain ⟨hplaced, hmade⟩ := hback p hp
    rcases ho with ho | rfl | ho
    · exact .inl (hmade o (List.mem_append_left _ ho))
    · exact .inr hplaced
    · exact .inl (hmade o (List.mem_append_right _ ho))
  have hout : Piece.layout pieces ⊆ out ∧
      ∀ o ∈ out, o ∈ Piece.layout pieces ∨ spill.Makes o := by
    rcases hframe with ⟨_, rfl⟩ | ⟨_, hframe⟩
    · exact ⟨List.Subset.refl _, fun o ho => .inl ho⟩
    · exact SpillCode.mem_frame hframe
  refine ⟨spill, hspill, fun i hi => ?_, fun o ho => ?_⟩
  · obtain ⟨p, hp, hplaced⟩ := hcode i hi
    exact ⟨p.instruction, hout.1 (Piece.mem_layout.2 ⟨p, hp, .inr (.inl rfl)⟩), hplaced⟩
  · rcases hout.2 o ho with ho | ho
    · exact hbody o ho
    · exact .inl ho

end Allocation

theorem allocate_ok {pool : RegisterPool} {code out : List Instruction} {context : Context}
    {state state' : State} (h : allocate pool code context state = .ok out state') :
    ∃ a spill, Allocation.ofCode pool code context state = .ok a state' ∧
      SpillCode.ofContext context = .ok spill ∧ a.apply context code = .ok out := by
  simp only [allocate, Lower.bind_ok, Lower.read_ok, Lower.ofExcept_ok] at h
  obtain ⟨a, _, hofCode, _, _, ⟨rfl, rfl⟩, happly, rfl⟩ := h
  obtain ⟨spill, hspill, _⟩ := Allocation.mem_apply happly
  exact ⟨a, spill, hofCode, hspill, happly⟩

def Xlen.spillOpcode (xlen : Xlen) : RegisterFile → Bool → String
  | .gpr, true => xlen.wordLoad
  | .gpr, false => xlen.wordStore
  | .fpr, true => xlen.floatLoad
  | .fpr, false => xlen.floatStore

namespace SpillCode

variable {context : Context} {spill : SpillCode} {i o : Instruction}

/-- Spill code is made from the catalog's own templates. -/
theorem template_ok (h : ofContext context = .ok spill) {r : Register} {load : Bool}
    (hi : spill.template r load = .ok i) :
    context.catalog.instruction (context.environment.xlen.spillOpcode r.file load) = .ok i := by
  simp only [ofContext, except_bind_ok, except_pure_ok] at h
  obtain ⟨loaded, hload, stored, hstore, adjust, _, rfl⟩ := h
  have hfloat : ∀ name j, (context.catalog.find? name).map Template.instruction = some j →
      context.catalog.instruction name = .ok j := by
    intro name j hj
    obtain ⟨t, hfind, rfl⟩ := Option.map_eq_some_iff.1 hj
    simp [Catalog.instruction, hfind]
  unfold template at hi
  cases hfile : r.file <;> cases load <;> simp only [hfile] at hi
  case gpr.false => exact except_pure_ok.1 hi ▸ hstore
  case gpr.true => exact except_pure_ok.1 hi ▸ hload
  all_goals
    split at hi
    · next j hj =>
      rw [except_pure_ok] at hi
      exact hi ▸ hfloat _ _ hj
    · simp at hi

theorem adjust_ok (h : ofContext context = .ok spill) :
    context.catalog.instruction "addi" = .ok spill.adjust ∧
      spill.width = context.environment.xlen.bytes := by
  simp only [ofContext, except_bind_ok, except_pure_ok] at h
  obtain ⟨_, _, _, _, adjust, hadjust, rfl⟩ := h
  exact ⟨hadjust, rfl⟩

def opcodes (xlen : Xlen) : List String :=
  ["addi", xlen.wordLoad, xlen.wordStore, xlen.floatLoad, xlen.floatStore]

theorem spillOpcode_mem (xlen : Xlen) (file : RegisterFile) (load : Bool) :
    xlen.spillOpcode file load ∈ opcodes xlen := by
  cases file <;> cases load <;> simp [Xlen.spillOpcode, opcodes]

theorem Makes.template (h : ofContext context = .ok spill) (ho : spill.Makes o) :
    ∃ t ∈ context.catalog.templates, t.name ∈ opcodes context.environment.xlen ∧
      o = { t.instruction with
        id := o.id, destination := o.destination, sources := o.sources } := by
  cases ho with
  | reload ho =>
    simp only [SpillCode.reload, except_bind_ok, except_pure_ok, Instruction.setDestination_ok,
      Instruction.setSource_ok, Instruction.setImmediate_ok] at ho
    obtain ⟨i, hi, _, ⟨_, _, rfl⟩, _, ⟨_, _, rfl⟩, _, ⟨_, _, rfl⟩, rfl⟩ := ho
    obtain ⟨t, ht, hname, rfl⟩ := Catalog.instruction_template (template_ok h hi)
    exact ⟨t, ht, hname ▸ spillOpcode_mem _ _ _, rfl⟩
  | save ho =>
    simp only [SpillCode.save, except_bind_ok, except_pure_ok, Instruction.setSource_ok,
      Instruction.setImmediate_ok] at ho
    obtain ⟨i, hi, _, ⟨_, _, rfl⟩, _, ⟨_, _, rfl⟩, _, ⟨_, _, rfl⟩, rfl⟩ := ho
    obtain ⟨t, ht, hname, rfl⟩ := Catalog.instruction_template (template_ok h hi)
    exact ⟨t, ht, hname ▸ spillOpcode_mem _ _ _, rfl⟩
  | moveStack ho =>
    simp only [SpillCode.moveStack, except_bind_ok, except_pure_ok, Instruction.setDestination_ok,
      Instruction.setSource_ok, Instruction.setImmediate_ok] at ho
    obtain ⟨_, ⟨_, _, rfl⟩, _, ⟨_, _, rfl⟩, _, ⟨_, _, rfl⟩, rfl⟩ := ho
    obtain ⟨t, ht, hname, hadjust⟩ := Catalog.instruction_template (adjust_ok h).1
    rw [← hadjust]
    exact ⟨t, ht, hname ▸ List.mem_cons_self, rfl⟩

theorem Makes.form (h : ofContext context = .ok spill) (ho : spill.Makes o) :
    o.form = .native := by
  obtain ⟨t, _, _, heq⟩ := ho.template h
  rw [heq]
  rfl

theorem Makes.not_label (h : ofContext context = .ok spill) (ho : spill.Makes o) :
    o.isLabel = false := by
  simp [Instruction.isLabel, ho.form h]

theorem Makes.opcode (h : ofContext context = .ok spill) (ho : spill.Makes o) :
    o.name ∈ opcodes context.environment.xlen := by
  obtain ⟨t, _, hname, heq⟩ := ho.template h
  rw [heq]
  exact hname

theorem Makes.ne_return (h : ofContext context = .ok spill) (ho : spill.Makes o) :
    o.name ≠ "ret" := by
  intro hret
  have hopcode := ho.opcode h
  rw [hret] at hopcode
  revert hopcode
  cases context.environment.xlen <;> decide

end SpillCode
end PlanLowering
