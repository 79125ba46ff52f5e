import PlanLowering.Proofs.ExpansionSteps
import PlanLowering.Proofs.Pins

/-!
# Expanded actions

What an action is replaced by is cheaper than the action. It pins the same opcodes, but for the few
that passes ask for themselves.
-/

namespace PlanLowering

def Pin.own : List Pin :=
  [⟨"add", .arithmetic⟩, ⟨"ld", .load⟩, ⟨"lw", .load⟩, ⟨"sd", .store⟩, ⟨"sw", .store⟩]

theorem Pin.fits_own {catalog : Catalog} (h : catalog.Complete) :
    ∀ pin ∈ own, pin.fits catalog := by
  have hfits : ∀ opcode category slots, (opcode, slots) ∈ Catalog.namedOpcodes →
      slots ⊆ category.wired → Pin.fits ⟨opcode, category⟩ catalog := by
    intro opcode category slots hname hslots
    cases hfind : catalog.find? opcode with
    | none => simp [fits, hfind]
    | some t =>
      obtain ⟨ht, htemplate⟩ := Catalog.find?_eq_some.1 hfind
      have hnamed := h.named _ hname t ht htemplate
      exact (Pin.fits_iff hfind).2 (List.Subset.trans hnamed hslots)
  intro pin hpin
  simp only [own, List.mem_cons, List.not_mem_nil, or_false] at hpin
  rcases hpin with rfl | rfl | rfl | rfl | rfl
  · exact hfits _ _ [.rd, .rs1, .rs2] (by simp [Catalog.namedOpcodes]) (by simp [Category.wired])
  · exact hfits _ _ [.rd, .rs1, .imm] (by simp [Catalog.namedOpcodes]) (by simp [Category.wired])
  · exact hfits _ _ [.rd, .rs1, .imm] (by simp [Catalog.namedOpcodes]) (by simp [Category.wired])
  · exact hfits _ _ [.rs1, .rs2, .imm] (by simp [Catalog.namedOpcodes]) (by simp [Category.wired])
  · exact hfits _ _ [.rs1, .rs2, .imm] (by simp [Catalog.namedOpcodes]) (by simp [Category.wired])

namespace Action

theorem cost_pos (a : Action) : 0 < a.cost := by
  cases a with
  | simple id expanded op =>
    cases expanded
    · rw [cost]
      cases op <;> simp [Op.cost]
    · simp [cost]
  | block id expanded owner code =>
    cases expanded <;> cases owner <;> rw [cost] <;> omega

@[simp] theorem cost_expanded (id : Id) (op : Op) : (Action.simple id true op).cost = 1 := rfl

@[simp] theorem cost_new (id : Id) (op : Op) : (Action.simple id false op).cost = op.cost := rfl

@[simp] theorem costs_nil : costs [] = 0 := rfl

@[simp] theorem costs_cons (a : Action) (rest : List Action) :
    costs (a :: rest) = a.cost + costs rest := rfl

@[simp] theorem costs_append (actions more : List Action) :
    costs (actions ++ more) = costs actions + costs more := by
  induction actions with
  | nil => simp
  | cons a rest ih => simp [ih, Nat.add_assoc]

/-- The second list pins what the first one does and nothing else of the plan. -/
structure Covers (code body : List Action) : Prop where
  kept : pinsAll code ⊆ pinsAll body
  own : ∀ pin ∈ pinsAll body, pin ∈ pinsAll code ∨ pin ∈ Pin.own

namespace Covers

variable {xs xs' ys ys' zs : List Action}

theorem refl (xs : List Action) : Covers xs xs :=
  ⟨List.Subset.refl _, fun _ hpin => .inl hpin⟩

theorem trans (h : Covers xs ys) (h' : Covers ys zs) : Covers xs zs where
  kept := List.Subset.trans h.kept h'.kept
  own := by
    intro pin hpin
    rcases h'.own pin hpin with hpin | hpin
    · exact h.own pin hpin
    · exact .inr hpin

theorem append (h : Covers xs ys) (h' : Covers xs' ys') : Covers (xs ++ xs') (ys ++ ys') where
  kept := by
    rw [pinsAll_append, pinsAll_append]
    exact List.append_subset.2 ⟨List.Subset.trans h.kept (List.subset_append_left _ _),
      List.Subset.trans h'.kept (List.subset_append_right _ _)⟩
  own := by
    intro pin hpin
    rw [pinsAll_append, List.mem_append] at hpin
    rw [pinsAll_append, List.mem_append]
    rcases hpin with hpin | hpin
    · exact (h.own pin hpin).imp_left .inl
    · exact (h'.own pin hpin).imp_left .inr

end Covers

structure Yields (a : Action) (e : Expansion) : Prop where
  covers : Covers [a] e.actions
  cheaper : ∀ actions, e = .spliced actions → costs actions < a.cost
  closed : ∀ b, e = .alone b → b.isExpanded

end Action

section Op

open PlanLowering.Action

variable {context : Context} {state state' : State} {before : List Action} {e : Expansion}
variable {id : Id} {op op' : Op}

theorem Access.widen_cheap {address : List Action} {a a' : Access} (hcost : costs address ≤ 1)
    (hpins : pinsAll address = [])
    (h : a.widen address context state = .ok (before, a') state') :
    a'.op = a.op ∧ costs before ≤ 3 ∧ ∀ pin ∈ pinsAll before, pin ∈ Pin.own := by
  obtain ⟨_, rfl, rfl, _⟩ | ⟨base, offset, sum, _, _, _, _, _, rfl, rfl⟩ := widen_ok h
  · exact ⟨rfl, by omega, by simp [hpins]⟩
  · refine ⟨rfl, ?_, ?_⟩
    · simp only [costs_append, Action.li, Action.new, costs_cons, cost_new, costs_nil, Op.cost]
      omega
    · simp [hpins, Action.li, Action.new, Op.pin?, Arithmetic.binary, Pin.own]

/-- An access takes at most two loads and a sum in front of it. -/
theorem Access.expand_cheap {flags : PageFlags} {a a' : Access}
    (h : a.expand flags context state = .ok (before, a') state') :
    a'.op = a.op ∧ costs before ≤ 3 ∧ ∀ pin ∈ pinsAll before, pin ∈ Pin.own := by
  obtain ⟨anchored, label, _, hanchor, h⟩ := expand_ok h
  have hop : anchored.op = a.op := by rw [(anchor_ok hanchor).1]
  rw [← hop]
  rcases h with ⟨_, h⟩ | ⟨name, base, _, _, _, h⟩
  · exact widen_cheap (by simp) rfl h
  · have hcost : costs [Action.li base (.symbol name)] ≤ 1 := by
      simp [Action.li, Action.new, Op.cost]
    have hwidened := widen_cheap hcost rfl h
    exact hwidened

theorem Op.FillsT2.cheap {src : Option Id} (h : op.FillsT2 src) (load : Id) :
    costs [Action.new load op] ≤ 1 ∧ pinsAll [Action.new load op] = [] := by
  cases h <;> simp [Action.new, cost, pin?]

theorem CsrWrite.expand_cheap {w w' : CsrWrite}
    (h : w.expand context state = .ok (before, w') state') :
    costs before ≤ 1 ∧ pinsAll before = [] := by
  obtain ⟨_, _, ⟨_, rfl, _⟩ | ⟨op, load, ⟨_, hfills⟩ | ⟨_, v, rfl⟩, _, rfl, _⟩⟩ := expand_ok h
  · simp
  · exact hfills.cheap load
  · simp [Action.new, Op.cost, Op.pin?]

theorem PteTarget.expandWrite_cheap {target target' : PteTarget}
    (h : target.expandWrite context state = .ok (before, target') state') :
    costs before ≤ 1 ∧ pinsAll before = [] := by
  obtain ⟨op, load, _, hfills, _, rfl, _⟩ := expandWrite_ok h
  exact hfills.cheap load

theorem Op.behind_yields (hpin : op'.pin? = op.pin?)
    (hbefore : ∀ pin ∈ pinsAll before, pin ∈ Pin.own)
    (hcost : before ≠ [] → costs before + 1 < op.cost) :
    Yields (.simple id false op) (behind id op' before) := by
  have hcovers : Covers [.simple id false op] (before ++ [.simple id true op']) := by
    constructor
    · simp [hpin]
    · intro pin hmem
      simp only [pinsAll_append, List.mem_append, pinsAll_cons, pins_simple, hpin] at hmem ⊢
      rcases hmem with hmem | hmem
      · exact .inr (hbefore pin hmem)
      · exact .inl hmem
  cases before with
  | nil => exact ⟨hcovers, by simp [behind], by simp [behind, isExpanded]⟩
  | cons b rest =>
    refine ⟨hcovers, ?_, by simp [behind]⟩
    rintro _ ⟨⟩
    rw [costs_append]
    exact hcost (by simp)

theorem Op.fetched_yields (read : Id) (hcost : op.cost = 3) :
    Yields (.simple id false op) (fetched id op read) := by
  refine ⟨⟨?_, ?_⟩, ?_, by simp [fetched]⟩
  · simp [fetched, Expansion.actions]
  · intro pin hpin
    simpa [fetched, Expansion.actions, Action.new, pin?] using Or.inl hpin
  · rintro _ ⟨⟩
    rw [costs_cons, costs_cons, cost_expanded, Action.new, cost_new, costs_nil, cost_new, hcost]
    simp [cost]

theorem Op.expand_yields (h : op.expand id context state = .ok e state') :
    Yields (.simple id false op) e := by
  cases expand_ok h with
  | alone => exact behind_yields rfl (by simp) (by simp)
  | load haccess | store haccess =>
    obtain ⟨hop, hcost, hown⟩ := Access.expand_cheap haccess
    refine behind_yields (by simp [pin?, hop]) hown fun _ => ?_
    rw [cost]
    omega
  | call =>
    exact behind_yields rfl (by simp [Action.li, Action.new, pin?])
      (by simp [Action.li, Action.new, cost])
  | csrRead | readPte => exact fetched_yields _ rfl
  | csrWrite hwrite =>
    obtain ⟨hcost, hpins⟩ := CsrWrite.expand_cheap hwrite
    refine behind_yields rfl (by simp [hpins]) fun _ => ?_
    rw [cost]
    omega
  | writePte hwrite =>
    obtain ⟨hcost, hpins⟩ := PteTarget.expandWrite_cheap hwrite
    refine behind_yields rfl (by simp [hpins]) fun _ => ?_
    rw [cost]
    omega
  | compare =>
    refine ⟨⟨by simp [pin?], by simp [Expansion.actions, Action.new, pin?]⟩, ?_, by simp⟩
    rintro _ ⟨⟩
    simp [Action.new, cost]
  | jumpToFail =>
    refine behind_yields rfl ?_ (by simp [Action.li, Action.new, cost])
    cases hxlen : context.environment.xlen <;>
      simp [Action.li, Action.new, pin?, Xlen.wordLoad, Pin.own]
  | modifyPte =>
    refine ⟨⟨by simp [pin?], ?_⟩, ?_, by simp⟩
    · cases hxlen : context.environment.xlen <;>
        simp [Expansion.actions, Action.li, Action.new, pin?, Xlen.wordStore, Pin.own]
    · rintro _ ⟨⟩
      simp [Action.li, Action.new, cost]

theorem insertBeforeLast_mem {α : Type} {x y : α} {xs : List α} :
    y ∈ insertBeforeLast x xs ↔ y = x ∨ y ∈ xs := by
  induction xs with
  | nil => simp [insertBeforeLast]
  | cons a rest ih =>
    cases rest with
    | nil => simp [insertBeforeLast]
    | cons b rest =>
      rw [insertBeforeLast, List.mem_cons, ih]
      · simp only [List.mem_cons, or_left_comm]
      · simp

theorem costs_insertBeforeLast {a : Action} {code : List Action} :
    costs (insertBeforeLast a code) = a.cost + costs code := by
  induction code with
  | nil => simp [insertBeforeLast]
  | cons b rest ih =>
    cases rest with
    | nil => simp [insertBeforeLast]
    | cons c rest =>
      rw [insertBeforeLast, costs_cons, ih]
      · simp only [costs_cons]
        omega
      · simp

end Op

namespace Action

variable {context : Context} {state state' : State}

theorem covers_insertBeforeLast {a : Action} {code : List Action} (ha : a.pins = []) :
    Covers code (insertBeforeLast a code) := by
  have hsame : ∀ pin, pin ∈ pinsAll (insertBeforeLast a code) ↔ pin ∈ pinsAll code := by
    intro pin
    simp [mem_pinsAll, insertBeforeLast_mem, ha]
  exact ⟨fun pin hpin => (hsame pin).2 hpin, fun pin hpin => .inl ((hsame pin).1 hpin)⟩

theorem cost_of_expanded {a : Action} (h : a.isExpanded) : a.cost = 1 := by
  cases a with
  | simple id expanded op =>
    rw [isExpanded] at h
    subst h
    rfl
  | block id expanded owner code =>
    rw [isExpanded] at h
    subst h
    simp [cost]

mutual

theorem expand_yields {state state' : State} {a : Action} {e : Expansion}
    (h : a.expand context state = .ok e state') : Yields a e := by
  match a with
  | .simple id true op | .block id true owner code =>
    obtain ⟨rfl, _⟩ := expand_of_expanded rfl h
    exact ⟨.refl _, by simp, by simp [isExpanded]⟩
  | .simple id false op =>
    rw [expand] at h
    exact Op.expand_yields h
  | .block id false (.codePage spec) code =>
    obtain ⟨ret, _, rfl⟩ := codePage_ok h
    refine ⟨⟨?_, ?_⟩, ?_, by simp⟩
    · simp [Expansion.actions, pins, new, Op.pin?]
    · intro pin hpin
      simpa [Expansion.actions, pins, new, Op.pin?] using Or.inl hpin
    · rintro _ ⟨⟩
      simp only [costs_append, costs_cons, new, cost, Op.cost, costs_nil]
      omega
  | .block id false (.assertException cause old old') code =>
    obtain ⟨_, body, fault, resume, label, fail, label', _, _, _, _, _, hbody, _, _, _, _, _, rfl⟩ :=
      assertException_ok h
    obtain ⟨hcovers, hcost⟩ := expandEach_covers hbody
    have hinserted : Covers body (insertBeforeLast (new label (.label fault true)) body) :=
      covers_insertBeforeLast rfl
    have hall := hcovers.trans hinserted
    refine ⟨⟨?_, ?_⟩, ?_, by simp⟩
    · simpa [Expansion.actions, pins, new, Op.pin?] using hall.kept
    · simpa [Expansion.actions, pins, new, Op.pin?] using hall.own
    · rintro _ ⟨⟩
      simp only [List.cons_append, costs_append, costs_cons, costs_insertBeforeLast, new, cost,
        Op.cost, costs_nil]
      omega

theorem expandEach_covers {state state' : State} {code body : List Action}
    (h : expandEach code context state = .ok body state') :
    Covers code body ∧ costs body ≤ costs code := by
  match code with
  | [] =>
    obtain ⟨rfl, _⟩ := expandEach_nil_ok.1 h
    exact ⟨.refl _, Nat.le_refl _⟩
  | a :: rest =>
    obtain ⟨e, _, more, ha, hmore, rfl⟩ := expandEach_cons_ok h
    have hyields := expand_yields ha
    obtain ⟨hcovers, hcost⟩ := expandEach_covers hmore
    have hle : costs e.actions ≤ a.cost := by
      cases e with
      | alone b =>
        have hpos := cost_pos a
        rw [Expansion.actions, costs_cons, cost_of_expanded (hyields.closed b rfl), costs_nil]
        omega
      | spliced actions => exact Nat.le_of_lt (hyields.cheaper actions rfl)
    refine ⟨hyields.covers.append hcovers, ?_⟩
    simp only [costs_append, costs_cons]
    omega

end

end Action

end PlanLowering
