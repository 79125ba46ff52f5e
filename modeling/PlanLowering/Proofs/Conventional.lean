import PlanLowering.Proofs.Calls
import PlanLowering.Proofs.LegalCode
import PlanLowering.Proofs.Lodging
import PlanLowering.Proofs.Supplied

/-!
# Registers and labels with a role of their own

Only calls write a register that the calling convention keeps to itself, and jumps go to labels
that expansion made up. Each pass keeps this. Spill code, which moves the stack pointer, is not
part of it.
-/

namespace PlanLowering

open FreshIds (NamesLabel NamesPage)

namespace FreshIds

variable {name : String}

theorem NamesLabel.initial (h : NamesLabel name) :
    name.toList.head? ∈ [some 'p', some 'f', some 'e'] := by
  obtain ⟨stem, hstem, k, rfl⟩ := h
  simp only [labelStems, List.mem_cons, List.not_mem_nil, or_false] at hstem
  rcases hstem with rfl | rfl | rfl <;> simp [ToString.toString]

theorem NamesPage.initial (h : NamesPage name) : name.toList.head? = some 'c' := by
  obtain ⟨k, rfl⟩ := h
  simp [ToString.toString]

theorem NamesLabel.not_page (h : NamesLabel name) : ¬ NamesPage name := by
  intro hpage
  have hinitial := h.initial
  rw [hpage.initial] at hinitial
  exact absurd hinitial (by decide)

/-- No label is spelled like the opcode that closes a function. -/
theorem ne_ret_of_label (h : NamesLabel name ∨ NamesPage name) : name ≠ "ret" := by
  rintro rfl
  rcases h with h | h
  · exact absurd h.initial (by decide)
  · exact absurd h.initial (by decide)

end FreshIds

namespace Action

/-- Labels in the action are made up by expansion, and its code pages were numbered. -/
inductive Labelled : Action → Prop where
  | simple {id expanded op} (h : ∀ name ∈ op.labels, NamesLabel name) :
      Labelled (.simple id expanded op)
  | codePage {id expanded spec code} (h : NamesPage id) (hcode : ∀ a ∈ code, Labelled a) :
      Labelled (.block id expanded (.codePage spec) code)
  | assertException {id expanded cause fault resume code}
      (h : expanded = true → ∀ s ∈ resume, NamesLabel s) (hcode : ∀ a ∈ code, Labelled a) :
      Labelled (.block id expanded (.assertException cause fault resume) code)

theorem labelled_inherited : Inherited fun _ => Labelled where
  grow _ _ _ _ h := h
  spawned id op low high b h _ hspawns := by
    obtain ⟨hlabels⟩ := h
    cases hspawns with
    | itself hkeeps =>
      exact .simple fun name hname => (hkeeps.labels name hname).elim (hlabels name) fun h => h
    | helper _ _ _ hnone => exact .simple (by simp [hnone])
    | label hname => exact .simple (by simpa [Op.labels] using hname)
  helper k _ op _ _ hnone := .simple (by simp [hnone])
  label k _ name pointer hname := .simple (by simpa [Op.labels] using hname)
  codePage id spec code _ h := by
    cases h with
    | codePage hid hcode => exact ⟨.codePage hid (by simp), hcode⟩
  assertException id cause fault resume fault' resume' code _ h _ hresume := by
    cases h with
    | assertException _ hcode => exact ⟨.assertException (by simpa using hresume) (by simp), hcode⟩

end Action

/-- Registers with a role of their own stay out of the instruction, but for the return address that
a call writes. Its labels are made up by expansion or name a function. -/
structure Instruction.Conventional (i : Instruction) : Prop where
  target : ∀ r, i.target? = some r → r.role ≠ .special ∨ r = .ra ∧ ∃ f, i.form = .call f
  sources : ∀ o ∈ i.sources, ∀ r, o.value = .reg r → r.role ≠ .special
  clobbers : ∀ r ∈ i.clobbers, r.role ≠ .special
  call : ∀ f, i.form = .call f → i.name = "jalr" ∧ i.target? = some .ra
  label : i.isLabel → NamesLabel i.name ∨ NamesPage i.name
  goals : ∀ o ∈ i.sources, o.slot = .offset ∨ o.slot = .resume →
    ∀ s, o.value = .symbol s → NamesLabel s

open Instruction (Conventional Drawn)

variable {catalog : Catalog} {opcode : String} {target : OperandValue} {i o : Instruction}
variable {supplies : Slot → OperandValue → Prop} {op : Op} {low high : Nat} {id : Id}

namespace Instruction

theorem Drawn.target_eq {r : Register} (h : i.Drawn catalog opcode target supplies)
    (hr : i.target? = some r) : target = .reg r := by
  obtain ⟨o, ho, hr⟩ := Option.bind_eq_some_iff.1 hr
  rw [← h.target o ho]
  unfold Operand.register? at hr
  split at hr
  · next hvalue => rw [hvalue, Option.some.inj hr]
  · cases hr

theorem Drawn.conventional (h : i.Drawn catalog opcode target supplies)
    (hregisters : ∀ slot r, supplies slot (.reg r) → r.role ≠ .special)
    (hgoals : ∀ slot s, supplies slot (.symbol s) → slot = .offset ∨ slot = .resume → NamesLabel s)
    {form : InstructionForm} {clobbers : List Register}
    (hform : form = .native ∧ (∀ r, target = .reg r → r.role ≠ .special) ∨
      ∃ f, form = .call f ∧ opcode = "jalr" ∧ i.target? = some .ra)
    (hclobbers : ∀ r ∈ clobbers, r.role ≠ .special) :
    Conventional { i with form, clobbers } where
  target := by
    intro r hr
    rcases hform with ⟨_, hrole⟩ | ⟨f, rfl, _, hra⟩
    · exact .inl (hrole r (h.target_eq hr))
    · exact .inr ⟨Option.some.inj (hr.symm.trans hra), f, rfl⟩
  sources o ho r hr := hregisters o.slot r (hr ▸ h.sources o ho)
  clobbers := hclobbers
  call := by
    intro f hf
    rcases hform with ⟨rfl, _⟩ | ⟨_, _, hname, hra⟩
    · cases hf
    · exact ⟨h.name.trans hname, hra⟩
  label := by
    rcases hform with ⟨rfl, _⟩ | ⟨f, rfl, _⟩ <;> simp [isLabel]
  goals o ho hslot s hs := hgoals o.slot s (hs ▸ h.sources o ho) hslot

theorem Auxiliary.conventional (h : o.Auxiliary catalog) : o.Conventional := by
  obtain ⟨opcode, id, hdrawn⟩ := h
  have hsame : o = { o with form := .native, clobbers := [] } := by
    rw [← hdrawn.native, ← hdrawn.harmless]
  rw [hsame]
  refine hdrawn.conventional ?_ ?_ (.inl ⟨rfl, by simp⟩) (by simp)
  · intro slot r hr
    exact absurd rfl (hr.1 r)
  · intro slot s hs
    exact absurd rfl (hs.2 s)

theorem conventional_of_t2 (hdest : ∀ o ∈ i.destination, o.value = .reg .t2)
    (hsources : ∀ o ∈ i.sources, o.value = .reg .t2) (hclobbers : ∀ r ∈ i.clobbers, r.role ≠ .special)
    (hcall : ∀ f, i.form ≠ .call f) (hlabel : i.isLabel → NamesLabel i.name ∨ NamesPage i.name) :
    i.Conventional where
  target := by
    intro r hr
    obtain ⟨o, ho, hr⟩ := Option.bind_eq_some_iff.1 hr
    simp only [Operand.register?, hdest o ho, Option.some.injEq] at hr
    exact .inl (hr ▸ by decide)
  sources := by
    intro o ho r hr
    rw [hsources o ho] at hr
    cases hr
    decide
  clobbers := hclobbers
  call f hf := absurd hf (hcall f)
  label := hlabel
  goals := by
    intro o ho _ s hs
    rw [hsources o ho] at hs
    cases hs

theorem runtimeClobbers_role : ∀ r ∈ runtimeClobbers, r.role ≠ .special := by
  decide

theorem conventional_label {name : String} {pointer : Bool} (h : NamesLabel name ∨ NamesPage name) :
    (label id name pointer).Conventional :=
  conventional_of_t2 (by simp [label]) (by simp [label]) (by simp [label]) (by simp [label])
    fun _ => h

theorem Selected.conventional (h : i.Selected catalog op low high)
    (hlabels : ∀ name ∈ op.labels, NamesLabel name) : i.Conventional := by
  have hregisters : ∀ opcode slot r, op.Supplies low high opcode slot (.reg r) →
      r.role ≠ .special := by
    rintro opcode slot r ⟨⟩
    decide
  have hgoals : ∀ opcode slot s, op.Supplies low high opcode slot (.symbol s) →
      slot = .offset ∨ slot = .resume → NamesLabel s := by
    intro opcode slot s hs hslot
    cases hs with
    | symbol hother =>
      rcases hslot with rfl | rfl <;> simp at hother
    | pass hop => exact hlabels s (by simp [hop, Op.labels])
  cases h with
  | @plain opcode i _ h =>
    have hsame : i = { i with form := .native, clobbers := [] } := by
      rw [← h.native, ← h.harmless]
    rw [hsame]
    exact h.conventional (hregisters opcode) (hgoals opcode) (.inl ⟨rfl, by simp⟩) (by simp)
  | @toT2 opcode i _ h =>
    have hsame : i = { i with form := .native } := by
      rw [← h.native]
    rw [hsame]
    refine h.conventional (hregisters opcode) (hgoals opcode) (.inl ⟨rfl, ?_⟩)
      runtimeClobbers_role
    rintro r ⟨⟩
    decide
  | @call i f h htarget =>
    have hsame : i = { i with clobbers := [] } := by
      rw [← h.harmless]
    rw [hsame]
    exact h.conventional (hregisters _) (hgoals _) (.inr ⟨f, rfl, rfl, htarget⟩) (by simp)
  | @csr csr access direct =>
    refine conventional_of_t2 ?_ ?_ runtimeClobbers_role (by simp [csrDirective])
      (by simp [csrDirective, isLabel])
    all_goals cases access <;> simp [csrDirective]
  | @pte target write paging =>
    refine conventional_of_t2 ?_ ?_ runtimeClobbers_role (by simp [PteTarget.directive])
      (by simp [PteTarget.directive, isLabel])
    all_goals cases write <;> simp [PteTarget.directive]
  | label hop => exact conventional_label (.inl (hlabels _ (by simp [hop, Op.labels])))
  | comment =>
    refine conventional_of_t2 ?_ ?_ ?_ ?_ ?_ <;> simp [Instruction.comment, isLabel]

end Instruction

theorem Instruction.target_openDestination (id : Id) (i : Instruction) :
    (Action.openDestination id i).target? = i.target? := by
  unfold Action.openDestination target?
  cases i.destination with
  | none => rfl
  | some o =>
    simp only [Option.map_some, Option.bind_some]
    split
    · next hopen => simp [Operand.register?, hopen.2]
    · rfl

theorem Instruction.Conventional.openDestination (h : i.Conventional) (id id' : Id) :
    (Action.openDestination id { i with id := id' }).Conventional where
  target r hr := h.target r (by rwa [target_openDestination] at hr)
  sources := h.sources
  clobbers := h.clobbers
  call f hf := by
    rw [target_openDestination]
    exact h.call f hf
  label := h.label
  goals := h.goals

theorem Action.Selects.conventional {a : Action} (h : a.Selects catalog low high i)
    (ha : a.Labelled) (hexpanded : a.isExpanded) : i.Conventional := by
  cases h with
  | simple h =>
    obtain ⟨hlabels⟩ := ha
    exact (h.conventional hlabels).openDestination _ _
  | codePage =>
    cases ha with
    | codePage hid => exact Instruction.conventional_label (.inr hid)
  | assertException =>
    cases ha with
    | assertException hresume =>
      exact {
        target := by simp [Instruction.target?, ExceptionCause.directive]
        sources := by simp [ExceptionCause.directive]
        clobbers := by simp [ExceptionCause.directive]
        call := by simp [ExceptionCause.directive]
        label := by simp [ExceptionCause.directive, Instruction.isLabel]
        goals := by simpa [ExceptionCause.directive] using hresume hexpanded }

theorem Instruction.Conventional.recast (h : i.Conventional) (hrecast : i.Recast o) :
    o.Conventional := by
  have hvalues : ∀ o' ∈ o.sources, (∃ fresh, o'.value = .virtual fresh) ∨
      ∃ op ∈ i.sources, op.slot = o'.slot ∧ op.value = o'.value := by
    intro o' ho'
    obtain ⟨op, hop, hrecast⟩ := hrecast.source ho'
    rcases hrecast.value with hsame | ⟨_, hnew⟩
    · exact .inr ⟨op, hop, congrArg Prod.fst hrecast.field.symm, hsame.symm⟩
    · exact .inl hnew
  obtain ⟨sources, _, rfl⟩ := hrecast
  refine ⟨h.target, ?_, h.clobbers, h.call, h.label, ?_⟩
  · intro o' ho' r hr
    rcases hvalues o' ho' with ⟨fresh, hfresh⟩ | ⟨op, hop, _, hvalue⟩
    · rw [hr] at hfresh
      cases hfresh
    · exact h.sources op hop r (hvalue.trans hr)
  · intro o' ho' hslot s hs
    rcases hvalues o' ho' with ⟨fresh, hfresh⟩ | ⟨op, hop, hsame, hvalue⟩
    · rw [hs] at hfresh
      cases hfresh
    · exact h.goals op hop (hsame ▸ hslot) s (hvalue.trans hs)

section Lodged

variable {a : Allocation} {pool : RegisterPool} {op op' : Operand} {ops : List Operand}

/-- What is no id stays, and no id gets a register with a role of its own. -/
theorem Operand.Lodged.value (h : op.Lodged a ops op') (hsound : a.Sound pool) :
    op' = op ∨ ∃ r, op' = { op with value := .reg r } ∧ r.role ≠ .special := by
  unfold Lodged at h
  split at h
  · exact .inl h
  · obtain ⟨r, rfl, hr⟩ := h
    exact .inr ⟨r, rfl, hr.role hsound⟩

theorem Operand.Lodged.register {r : Register} (h : op.Lodged a ops op')
    (hr : op.register? = some r) : op' = op := by
  unfold Lodged at h
  split at h
  · exact h
  · next hid =>
    unfold register? at hr
    unfold virtual? at hid
    cases hvalue : op.value <;> simp [hvalue] at hr hid

theorem Instruction.Conventional.lodged (h : i.Conventional) (hlodged : i.Lodged a o)
    (hsound : a.Sound pool) : o.Conventional := by
  have hform : o.form = i.form := by rw [hlodged.same]
  constructor
  case target =>
    intro r hr
    obtain ⟨op', hop', hr⟩ := Option.bind_eq_some_iff.1 hr
    obtain ⟨op, hop, hplaced⟩ := exists_of_forall₂ hlodged.destination (Option.mem_toList.2 hop')
    rcases hplaced.value hsound with rfl | ⟨s, rfl, hrole⟩
    · rw [hform]
      exact h.target r (Option.bind_eq_some_iff.2 ⟨op', Option.mem_toList.1 hop, hr⟩)
    · simp only [Operand.register?, Option.some.injEq] at hr
      exact .inl (hr ▸ hrole)
  case sources =>
    intro op' hop' r hr
    obtain ⟨op, hop, hplaced⟩ := exists_of_forall₂ hlodged.sources hop'
    rcases hplaced.value hsound with rfl | ⟨s, rfl, hrole⟩
    · exact h.sources op' hop r hr
    · cases hr
      exact hrole
  case clobbers => rw [hlodged.same]; exact h.clobbers
  case call =>
    intro f hf
    obtain ⟨hname, hra⟩ := h.call f (hform ▸ hf)
    obtain ⟨op, hop, hra⟩ := Option.bind_eq_some_iff.1 hra
    have hdest := hlodged.destination
    rw [hop, Option.toList_some] at hdest
    obtain ⟨op', _, hplaced, _, hsame⟩ := List.forall₂_cons_left_iff.1 hdest
    obtain rfl := hplaced.register hra
    have hmem : op' ∈ o.destination := Option.mem_toList.1 (by simp [hsame])
    refine ⟨?_, Option.bind_eq_some_iff.2 ⟨op', hmem, hra⟩⟩
    rw [hlodged.same]
    exact hname
  case label => rw [hlodged.same]; exact h.label
  case goals =>
    intro op' hop' hslot s hs
    obtain ⟨op, hop, hplaced⟩ := exists_of_forall₂ hlodged.sources hop'
    rcases hplaced.value hsound with rfl | ⟨r, rfl, _⟩
    · exact h.goals op' hop hslot s hs
    · cases hs

end Lodged

section Machine

variable {xlen : Xlen} {σ : Type} {p : Processor xlen σ} {m : Machine xlen σ}

theorem Instruction.Conventional.keeps_sp (h : i.Conventional) :
    (p.exec m i).registers .sp = m.registers .sp := by
  refine Processor.exec_register (fun hsp => ?_)
    (Processor.sp_not_destroyed fun hsp => h.clobbers .sp hsp rfl)
  rcases h.target .sp hsp with hrole | ⟨hra, _⟩
  · exact hrole rfl
  · exact absurd hra (by decide)

theorem Instruction.Conventional.keeps_ra (h : i.Conventional) (hcall : ∀ f, i.form ≠ .call f) :
    (p.exec m i).registers .ra = m.registers .ra := by
  have hclobbers : LiveInterval.clobbers p.recorded i = .ok i.clobbers := by
    unfold LiveInterval.clobbers
    split
    · next f hform => exact absurd hform (hcall f)
    · rfl
  refine Processor.exec_register (fun hra => ?_) fun hra => ?_
  · rcases h.target .ra hra with hrole | ⟨_, f, hform⟩
    · exact hrole rfl
    · exact hcall f hform
  · exact h.clobbers .ra (Processor.destroyed_subset hclobbers hra) rfl

end Machine

theorem legalizedCode_conventional {actions : List Action} {context : Context}
    {state state' : State} {code : List Instruction}
    (htyped : ∀ t ∈ context.catalog.templates, t.Typed)
    (hactions : ∀ a ∈ actions, a.Labelled)
    (h : legalizedCode actions context state = .ok code state') : ∀ i ∈ code, i.Conventional := by
  simp only [legalizedCode, Lower.bind_ok] at h
  obtain ⟨expanded, _, hexpanded, selected, _, hselected, hlegal⟩ := h
  have hlabelled := Action.expandAll_inherits Action.labelled_inherited hactions hexpanded
  have hexpanded := (Action.expandAll_covers hexpanded).2
  have hselects := Action.selectAll_selects htyped hselected
  have hselected : ∀ i ∈ selected, i.Conventional := by
    intro i hi
    obtain ⟨a, ha, hselects⟩ := exists_of_forall₂ hselects hi
    exact hselects.conventional (hlabelled a ha) (hexpanded a ha)
  intro o ho
  rcases mem_legalize htyped hlegal ho with ⟨i, hi, hrecast⟩ | hauxiliary
  · exact (hselected i hi).recast hrecast
  · exact hauxiliary.conventional

end PlanLowering
