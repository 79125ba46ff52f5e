import Mathlib.Data.List.Induction
import PlanLowering.Proofs.FunctionCode

/-!
# Values handed over in t2

A directive to the runtime finds its operand in t2 and leaves its result there. What t2 is kept for
is followed along the code. Passes put code of their own only where t2 is idle, since whatever
touches t2 on behalf of a directive has no ids that need loads, casts or spill code.
-/

namespace PlanLowering

/-- A run along a list, one step for each element. -/
inductive Along {α σ : Type} (M : α → σ → σ → Prop) : List α → σ → σ → Prop where
  | nil {s} : Along M [] s s
  | cons {a rest s t u} (h : M a s t) (hrest : Along M rest t u) : Along M (a :: rest) s u

namespace Along

variable {α σ : Type} {M : α → σ → σ → Prop} {xs ys : List α} {a : α} {s t u : σ}

theorem single (h : M a s t) : Along M [a] s t := .cons h .nil

theorem append (h : Along M xs s t) (h' : Along M ys t u) : Along M (xs ++ ys) s u := by
  induction h with
  | nil => exact h'
  | cons h _ ih => exact .cons h (ih h')

theorem of_append (h : Along M (xs ++ ys) s u) : ∃ t, Along M xs s t ∧ Along M ys t u := by
  induction xs generalizing s with
  | nil => exact ⟨s, .nil, h⟩
  | cons x rest ih =>
    cases h with
    | cons hx hrest =>
      obtain ⟨t, hxs, hys⟩ := ih hrest
      exact ⟨t, .cons hx hxs, hys⟩

theorem stay (h : ∀ a ∈ xs, M a s s) : Along M xs s s := by
  induction xs with
  | nil => exact .nil
  | cons x rest ih =>
    exact .cons (h x List.mem_cons_self) (ih fun a ha => h a (List.mem_cons_of_mem _ ha))

end Along

namespace InstructionForm

/-- Directives that find their operand in t2. -/
def takesT2 : InstructionForm → Bool
  | .csrAccess _ (.update _) _ => true
  | .pteAccess _ _ _ write => write
  | _ => false

/-- Directives that leave their result in t2. -/
def leavesT2 : InstructionForm → Bool
  | .csrAccess _ .read _ => true
  | .pteAccess _ _ _ write => !write
  | _ => false

def passesT2 (form : InstructionForm) : Bool := !form.takesT2 && !form.leavesT2

theorem not_leavesT2 {form : InstructionForm} (h : form.takesT2) : form.leavesT2 = false := by
  unfold takesT2 at h
  split at h
  · rfl
  · rw [leavesT2, h, Bool.not_true]
  · cases h

end InstructionForm

inductive Handover where
  | idle
  | operand
  | result
  deriving DecidableEq

namespace Instruction

def ReadsRegister (i : Instruction) (r : Register) : Prop := ∃ op ∈ i.sources, op.value = .reg r

/-- What an instruction makes of t2 as far as directives are concerned. One that relies on what t2
holds reads no ids, so nothing has to be put in front of it. -/
inductive Hands : Instruction → Handover → Handover → Prop where
  -- frames are closed in front of whatever is called `ret`, be it a label
  | mark {s id name pointer} (hname : name ≠ "ret") : Hands (.label id name pointer) s s
  | pass {i} (hform : i.form.passesT2) : Hands i .idle .idle
  | fill {i} (hform : i.form = .native) (htarget : i.target? = some .t2) : Hands i .idle .operand
  | take {i} (hform : i.form.takesT2) (hname : i.name ≠ "ret") (hids : i.virtualSources = []) :
      Hands i .operand .idle
  | leave {i} (hform : i.form.leavesT2) (htarget : i.target? = some .t2) : Hands i .idle .result
  | fetch {i} (hform : i.form = .native) (hname : i.name ≠ "ret") (hids : i.virtualSources = [])
      (hreads : i.ReadsRegister .t2) : Hands i .result .idle

end Instruction

open Instruction (Hands)

variable {i o : Instruction} {code out before after : List Instruction} {s t : Handover}
variable {p : Piece} {pieces : List Piece} {catalog : Catalog}

namespace Instruction.Hands

theorem native (h : o.form = .native) : Hands o .idle .idle :=
  .pass (by rw [h]; rfl)

theorem label_loop (h : Hands i s t) (hlabel : i.isLabel) : s = t := by
  cases h with
  | mark | pass => rfl
  | fill hform _ | fetch hform _ _ _ => simp [isLabel, hform] at hlabel
  | take hform _ _ | leave hform _ =>
    unfold isLabel at hlabel
    cases hkind : i.form <;> simp [hkind, InstructionForm.takesT2, InstructionForm.leavesT2]
      at hform hlabel

/-- The frame is closed in front of nothing that relies on t2. -/
theorem idle_of_ret (h : Hands i s t) (hname : i.name = "ret") : s = .idle := by
  cases h with
  | mark hother => exact absurd hname hother
  | take _ hother _ | fetch _ hother _ _ => exact absurd hname hother
  | pass | fill | leave => rfl

end Instruction.Hands

section HandsOver

/-- Whatever puts t2 to use was written for it, and nothing stands in between. -/
theorem filled_before (h : Along Hands before .idle .operand) :
    ∃ j, before.findRev? (fun j => !j.isLabel) = some j ∧ j.target? = some .t2 := by
  simp only [List.findRev?_eq_find?_reverse]
  induction before using List.reverseRecOn with
  | nil => cases h
  | append_singleton front j ih =>
    obtain ⟨s, hfront, hj⟩ := h.of_append
    rw [List.reverse_append, List.reverse_singleton, List.singleton_append, List.find?_cons]
    cases hj with
    | cons hj hnone =>
      cases hnone
      cases hj with
      | mark _ => exact ih hfront
      | fill hform htarget => exact ⟨j, by simp [Instruction.isLabel, hform], htarget⟩

theorem fetched_after (h : Along Hands after .result .idle) :
    ∃ j, after.find? (fun j => !j.isLabel) = some j ∧ j.ReadsRegister .t2 := by
  induction after with
  | nil => cases h
  | cons j rest ih =>
    rw [List.find?_cons]
    cases h with
    | cons hj hrest =>
      cases hj with
      | mark _ => exact ih hrest
      | fetch hform _ _ hreads => exact ⟨j, by simp [Instruction.isLabel, hform], hreads⟩

/-- The operand of each directive is put into t2 by the instruction in front of it, and its result
is read from there by the instruction behind it. Labels in between do not count. -/
def HandsOver (code : List Instruction) : Prop :=
  ∀ (before : List Instruction) (i : Instruction) (after : List Instruction),
    code = before ++ i :: after →
      (i.form.takesT2 →
          ∃ j, before.findRev? (fun j => !j.isLabel) = some j ∧ j.target? = some .t2) ∧
        (i.form.leavesT2 →
          ∃ j, after.find? (fun j => !j.isLabel) = some j ∧ j.ReadsRegister .t2)

theorem Along.handsOver (h : Along Hands code .idle .idle) : HandsOver code := by
  rintro before i after rfl
  obtain ⟨s, hbefore, hrest⟩ := h.of_append
  cases hrest with
  | cons hi hafter =>
    cases hi with
    | mark _ => simp [Instruction.label, InstructionForm.takesT2, InstructionForm.leavesT2]
    | pass hform => simp_all [InstructionForm.passesT2]
    | fill hform _ | fetch hform _ _ _ =>
      simp [hform, InstructionForm.takesT2, InstructionForm.leavesT2]
    | take hform _ _ =>
      refine ⟨fun _ => filled_before hbefore, fun hleaves => ?_⟩
      rw [InstructionForm.not_leavesT2 hform] at hleaves
      cases hleaves
    | leave hform _ =>
      refine ⟨fun htakes => ?_, fun _ => fetched_after hafter⟩
      rw [InstructionForm.not_leavesT2 htakes] at hform
      cases hform

end HandsOver

section Layout

structure Instruction.Embedded (i : Instruction) (p : Piece) : Prop where
  form : p.instruction.form = i.form
  name : p.instruction.name = i.name
  target : ∀ r, i.target? = some r → p.instruction.target? = some r ∧ p.after = []
  sources : i.virtualSources = [] → p.instruction.sources = i.sources ∧ p.before = []
  idle : i.sources = [] → i.destination = none → p = { instruction := i }
  native : ∀ o ∈ p.before ++ p.after, o.form = .native

/-- Code around an instruction stands where t2 is idle, or there is none. -/
theorem Instruction.Embedded.hands (h : i.Embedded p) (hi : Hands i s t) :
    Along Hands p.before s s ∧ Hands p.instruction s t ∧ Along Hands p.after t t := by
  have hbefore : Along Hands p.before .idle .idle :=
    .stay fun o ho => .native (h.native o (List.mem_append_left _ ho))
  have hafter : Along Hands p.after .idle .idle :=
    .stay fun o ho => .native (h.native o (List.mem_append_right _ ho))
  cases hi with
  | mark hname =>
    rw [h.idle rfl rfl]
    exact ⟨.nil, .mark hname, .nil⟩
  | pass hform => exact ⟨hbefore, .pass (h.form ▸ hform), hafter⟩
  | fill hform htarget =>
    obtain ⟨htarget, hnone⟩ := h.target _ htarget
    exact ⟨hbefore, .fill (h.form.trans hform) htarget, hnone ▸ .nil⟩
  | take hform hname hids =>
    obtain ⟨hsources, hnone⟩ := h.sources hids
    refine ⟨hnone ▸ .nil, .take (h.form ▸ hform) (h.name ▸ hname) ?_, hafter⟩
    rw [Instruction.virtualSources, hsources]
    exact hids
  | leave hform htarget =>
    obtain ⟨htarget, hnone⟩ := h.target _ htarget
    exact ⟨hbefore, .leave (h.form ▸ hform) htarget, hnone ▸ .nil⟩
  | fetch hform hname hids hreads =>
    obtain ⟨hsources, hnone⟩ := h.sources hids
    refine ⟨hnone ▸ .nil, .fetch (h.form.trans hform) (h.name ▸ hname) ?_ ?_, hafter⟩
    · rw [Instruction.virtualSources, hsources]
      exact hids
    · rw [Instruction.ReadsRegister, hsources]
      exact hreads

open Instruction (Embedded)

/-- A label that is held back makes no difference to t2. -/
theorem Along.place {held : List Instruction} (h : List.Forall₂ Embedded code pieces)
    (hheld : Along Hands held s s) (hcode : Along Hands code s t) :
    Along Hands (Piece.place held pieces) s t := by
  induction h generalizing held s with
  | nil =>
    cases hcode
    exact hheld
  | @cons i p code pieces hp _ ih =>
    cases hcode with
    | cons hi hrest =>
      obtain ⟨hbefore, hi, hafter⟩ := hp.hands hi
      have hfront := hbefore.append hheld
      rw [Piece.place]
      split
      · next hlabel =>
        have hloop := hi.label_loop (by
          have hpointer := hlabel.1
          rw [Instruction.isPointerLabel, decide_eq_true_eq] at hpointer
          simp [Instruction.isLabel, hpointer])
        subst hloop
        exact hfront.append (ih (.single hi) hrest)
      · exact hfront.append (.cons hi (hafter.append (ih .nil hrest)))

theorem Along.layout (h : List.Forall₂ Embedded code pieces)
    (hcode : Along Hands code s t) : Along Hands (Piece.layout pieces) s t :=
  place h .nil hcode

end Layout

section Legalize

open Instruction (Embedded Prepared)

theorem Operand.eq_of_no_ids {R : Operand → Operand → Prop} {ops ops' : List Operand}
    (h : List.Forall₂ R ops ops') (hR : ∀ op op', R op op' → op.virtual? = none → op' = op)
    (hids : ops.filterMap Operand.virtual? = []) : ops' = ops := by
  rw [List.filterMap_eq_nil_iff] at hids
  induction h with
  | nil => rfl
  | cons hop _ ih =>
    obtain ⟨hnone, hids⟩ := List.forall_mem_cons.1 hids
    rw [hR _ _ hop hnone, ih hids]

theorem Operand.Recast.eq_of_no_id {op op' : Operand} (h : op.Recast op')
    (hnone : op.virtual? = none) : op' = op := by
  rcases h with rfl | ⟨id, fresh, hid, _⟩
  · rfl
  · rw [hnone] at hid
    cases hid

theorem Instruction.Prepared.embedded (h : i.Prepared catalog p) : i.Embedded p := by
  obtain ⟨hrecast, hbefore, hafter, hidle⟩ := h
  have hsources : i.virtualSources = [] → p.instruction.sources = i.sources ∧ p.before = [] := by
    obtain ⟨sources, hsources, hsame⟩ := hrecast
    exact fun hids => ⟨by rw [hsame, Operand.eq_of_no_ids hsources (fun _ _ hop => hop.eq_of_no_id) hids], hidle hids⟩
  constructor
  case form | name =>
    obtain ⟨_, _, hsame⟩ := hrecast
    rw [hsame]
  case target =>
    obtain ⟨_, _, hsame⟩ := hrecast
    exact fun r hr => ⟨by rw [hsame]; exact hr, hafter⟩
  case sources => exact hsources
  case idle =>
    intro hnone _
    have hempty := hidle (by simp [Instruction.virtualSources, hnone])
    have hsame := hrecast.eq_of_idle hnone
    obtain ⟨_, _, _⟩ := p
    subst hsame hempty hafter
    rfl
  case native =>
    intro o ho
    rw [hafter, List.append_nil] at ho
    obtain ⟨_, _, hdrawn⟩ := hbefore o ho
    exact hdrawn.native

variable {context : Context} {state state' : State}

theorem legalize_hands (htyped : ∀ t ∈ context.catalog.templates, t.Typed)
    (h : legalize code context state = .ok out state') (hcode : Along Hands code s t) :
    Along Hands out s t := by
  obtain ⟨resolved, _, pieces, hresolved, hpieces, rfl⟩ := legalize_ok h
  have hresolved := (Seen.resolve_prepared htyped hresolved).imp fun _ _ hp => hp.embedded
  have hpieces := (Produced.castAll_prepared hpieces).imp fun _ _ hp => hp.embedded
  exact (hcode.layout hresolved).layout hpieces

end Legalize

section Allocate

open Instruction (Embedded)

variable {context : Context} {state state' : State} {a : Allocation} {spill : SpillCode}
variable {pool : RegisterPool} {leave : Instruction}

theorem Allocation.replaceOperands_embedded (hspill : SpillCode.ofContext context = .ok spill)
    (h : a.replaceOperands spill i = .ok p) : i.Embedded p := by
  have hsettles := replaceOperands_settles h
  -- a source without an id calls for no reload
  have hids : Reloads.Preserved a spill i.sources
      fun reloads => i.virtualSources = [] → reloads.code = [] := by
    intro op hop consumer file id slot reloads r reloads' hid _ _ _ _ _ hnone
    rw [Instruction.virtualSources, List.filterMap_eq_nil_iff] at hnone
    rw [hnone op hop] at hid
    cases hid
  obtain ⟨reloads, hreloads, hrewrites⟩ := replaceOperands_ok hids (by simp) h
  have hsame := hrewrites.same
  constructor
  case form | name => rw [hsame]
  case target =>
    intro r hr
    obtain ⟨op, hop, hr⟩ := Option.bind_eq_some_iff.1 hr
    rcases hrewrites.destination with ⟨hdest, _, _⟩ | ⟨op', op'', hdest, hdest', htargeted⟩
    · rw [hdest] at hop
      cases hop
    · rw [hdest, Option.some.injEq] at hop
      subst hop
      have hnone : op'.virtual? = none :=
        Operand.virtual?_eq_none fun id hid => by simp [Operand.register?, hid] at hr
      generalize p.after = after at htargeted
      cases htargeted with
      | fixed _ => exact ⟨Option.bind_eq_some_iff.2 ⟨op', hdest', hr⟩, rfl⟩
      | register hid _ | slot hid _ _ _ _ _ =>
        rw [hnone] at hid
        cases hid
  case sources =>
    intro hnone
    have hkept : ∀ op op', Operand.Placed op op' → op.virtual? = none → op' = op := by
      intro op op' hplaced hid
      simpa [Operand.Placed, hid] using hplaced
    exact ⟨Operand.eq_of_no_ids hrewrites.placed.sources hkept hnone,
      hrewrites.before.trans (hreloads hnone)⟩
  case idle => exact hsettles.idle
  case native =>
    exact fun o ho => (hsettles.reaches o ho).makes.form hspill

theorem Allocation.replaceAll_embedded (hspill : SpillCode.ofContext context = .ok spill)
    (h : a.replaceAll spill code = .ok pieces) : List.Forall₂ Embedded code pieces := by
  induction code generalizing pieces with
  | nil =>
    simp only [replaceAll, except_pure_ok] at h
    exact h ▸ .nil
  | cons i rest ih =>
    simp only [replaceAll, except_bind_ok, except_pure_ok] at h
    obtain ⟨p, hp, more, hmore, rfl⟩ := h
    exact .cons (replaceOperands_embedded hspill hp) (ih hmore)

theorem Along.closed (hleave : leave.form = .native) (h : Along Hands code s t) :
    Along Hands (closed leave code) s t := by
  induction h with
  | nil => exact .nil
  | cons hi _ ih =>
    rw [closed_cons]
    split
    · next hret =>
      obtain rfl := hi.idle_of_ret hret
      exact .cons (.native hleave) (.cons hi ih)
    · exact .cons hi ih

theorem SpillCode.frame_hands (hspill : ofContext context = .ok spill) {slots : Nat}
    (h : spill.frame slots code = .ok out) (hcode : Along Hands code .idle .idle) :
    Along Hands out .idle .idle := by
  simp only [frame, except_bind_ok] at h
  obtain ⟨enter, henter, leave, hleave, h⟩ := h
  have henter : Hands enter .idle .idle := .native (Makes.form hspill (.moveStack henter))
  have hleave := Makes.form hspill (.moveStack hleave)
  cases hcode with
  | nil =>
    rw [except_pure_ok] at h
    exact h ▸ .single henter
  | cons hfirst hrest =>
    dsimp only at h
    split at h
    · next hlabel =>
      rw [except_pure_ok] at h
      obtain rfl := hfirst.label_loop hlabel
      subst h
      exact .cons hfirst (.cons henter (hrest.closed hleave))
    · rw [except_pure_ok] at h
      subst h
      exact .cons henter (Along.closed hleave (.cons hfirst hrest))

theorem allocate_hands (h : allocate pool code context state = .ok out state')
    (hcode : Along Hands code .idle .idle) : Along Hands out .idle .idle := by
  simp only [allocate, Allocation.apply, Lower.bind_ok, Lower.read_ok, Lower.ofExcept_ok,
    except_bind_ok] at h
  obtain ⟨a, _, _, _, _, ⟨rfl, rfl⟩, ⟨spill, hspill, pieces, hpieces, h⟩, rfl⟩ := h
  have hbody := hcode.layout (Allocation.replaceAll_embedded hspill hpieces)
  split at h
  · rw [except_pure_ok] at h
    exact h ▸ hbody
  · exact SpillCode.frame_hands hspill h hbody

end Allocate

end PlanLowering
