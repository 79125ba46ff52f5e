import PlanLowering.Proofs.FieldFiles
import PlanLowering.Proofs.Spelling
import PlanLowering.Proofs.Supplied

/-!
# Actions and the values they make

The instruction of an action defines the action's own id and no other. It reads ids that were given
out before. Where it reads its own id, what it makes is no float; a plan may break this, and then
nothing here applies to it.
-/

namespace PlanLowering

open FreshIds (Numbers NamesLabel)

namespace FreshIds

variable {n n' k low high : Nat} {id : Id}

/-- No number from `n` on spells the id. -/
def Below (n : Nat) (id : Id) : Prop := ∀ k : Nat, id = s!"r{k}" → k < n

theorem value_injective {m : Nat} (h : s!"r{k}" = s!"r{m}") : k = m := by
  apply repr_injective
  simpa [ToString.toString] using h

@[simp] theorem below_value : Below n s!"r{k}" ↔ k < n := by
  constructor
  · exact fun h => h k rfl
  · intro h m hm
    exact value_injective hm ▸ h

theorem Below.mono (h : Below n id) (hle : n ≤ n') : Below n' id :=
  fun k hk => Nat.lt_of_lt_of_le (h k hk) hle

theorem Numbers.below (h : Numbers low high id) : Below high id := by
  obtain ⟨k, _, hk, rfl⟩ := h
  exact below_value.2 hk

theorem Below.not_numbers (h : Below low id) : ¬ Numbers low high id := by
  rintro ⟨k, hk, _, rfl⟩
  exact absurd (below_value.1 h) (Nat.not_lt.2 hk)

theorem below_of_initial (h : id.toList.head? ≠ some 'r') : Below n id := by
  rintro k rfl
  simp [ToString.toString] at h

theorem value_ne_empty : s!"r{k}" ≠ "" := by
  intro h
  simpa [ToString.toString] using congrArg String.toList h

end FreshIds

open FreshIds (Below)

theorem Op.templates_subset (op : Op) (catalog : Catalog) :
    op.templates catalog ⊆ catalog.templates := by
  have hfind : ∀ (opcode : String) (t : Template),
      t ∈ (catalog.find? opcode).toList → t ∈ catalog.templates :=
    fun _ _ ht => Catalog.mem_of_find? (Option.mem_toList.1 ht)
  have haccess : ∀ (a : Access) (category : Category),
      a.templates catalog category ⊆ catalog.templates := by
    intro a category t ht
    unfold Access.templates at ht
    split at ht
    · exact hfind _ t ht
    · exact (List.mem_filter.1 ht).1
  intro t ht
  cases op with
  | arithmetic a =>
    cases hpin : a.op.bind catalog.find? with
    | some found =>
      simp only [templates, hpin, List.mem_singleton] at ht
      obtain ⟨opcode, _, hopcode⟩ := Option.bind_eq_some_iff.1 hpin
      exact ht ▸ Catalog.mem_of_find? hopcode
    | none =>
      simp only [templates, hpin] at ht
      exact (List.mem_filter.1 ht).1
  | load a => exact haccess a .load ht
  | store a value => exact haccess a .store ht
  | system opcode => exact hfind opcode t ht
  | _ => cases ht

theorem Op.ownOpcodes_integer : ∀ opcode ∈ ownOpcodes,
    opcode ∈ Catalog.namedOpcodes.map Prod.fst ∧ opcode ∉ Catalog.floatAccesses := by
  decide

namespace Op.Supplies

variable {op : Op} {low high : Nat} {opcode : String} {slot : Slot}

theorem of_virtual {id : Id} (h : op.Supplies low high opcode slot (.virtual id)) :
    id ∈ op.reads ∨ Numbers low high id := by
  cases h with
  | read h => exact .inl h
  | fresh h => exact .inr h

theorem of_register {r : Register} (h : op.Supplies low high opcode slot (.reg r)) :
    opcode = "mv" ∧ slot = .rs1 ∧ r = .t2 := by
  cases h with
  | t2 h => exact ⟨h, rfl, rfl⟩

end Op.Supplies

def Op.MakesNoFloat (catalog : Catalog) (op : Op) : Prop :=
  ∀ t ∈ op.templates catalog, t.destination ≠ some .fpr

namespace Action

/-- Ids in the action were given out before number `n`, and it does not read its own id as a
float. -/
inductive Owned (catalog : Catalog) (n : Nat) : Action → Prop where
  | simple {id expanded op} (hid : id ≠ "") (hbelow : Below n id)
      (hreads : ∀ x ∈ op.reads, Below n x) (hown : id ∈ op.reads → op.MakesNoFloat catalog) :
      Owned catalog n (.simple id expanded op)
  | block {id expanded owner code} (hcode : ∀ a ∈ code, Owned catalog n a) :
      Owned catalog n (.block id expanded owner code)

theorem Owned.mono {catalog : Catalog} {low high : Nat} {a : Action} (h : a.Owned catalog low)
    (hle : low ≤ high) : a.Owned catalog high := by
  induction h with
  | simple hid hbelow hreads hown =>
    exact .simple hid (hbelow.mono hle) (fun x hx => (hreads x hx).mono hle) hown
  | block _ ih => exact .block ih

theorem owned_helper {catalog : Catalog} {k n : Nat} {expanded : Bool} {op : Op} (hk : k < n)
    (hreads : ∀ x ∈ op.reads, Below k x) :
    (Action.simple s!"r{k}" expanded op).Owned catalog n := by
  refine .simple FreshIds.value_ne_empty (FreshIds.below_value.2 hk)
    (fun x hx => (hreads x hx).mono (Nat.le_of_lt hk)) fun hown => ?_
  exact absurd (FreshIds.below_value.1 (hreads _ hown)) (Nat.lt_irrefl k)

theorem owned_label {catalog : Catalog} {k n : Nat} {name : String} {pointer : Bool} :
    (Action.simple s!"L{k}" false (.label name pointer)).Owned catalog n := by
  refine .simple ?_ (FreshIds.below_of_initial (by simp [ToString.toString])) (by simp [Op.reads])
    (by simp [Op.reads])
  intro h
  simpa [ToString.toString] using congrArg String.toList h

/-- Expansion keeps to the ids of the action and to new ones. -/
theorem owned_inherited (catalog : Catalog) : Inherited (fun n a => a.Owned catalog n) where
  grow _ _ _ hle h := h.mono hle
  spawned id op low high b h hle hspawns := by
    obtain ⟨hid, hbelow, hreads, hown⟩ | _ := h
    cases hspawns with
    | itself hkeeps =>
      have hall : ∀ x ∈ _, x ∈ op.reads ∨ FreshIds.Numbers low high x := hkeeps.reads
      refine .simple hid (hbelow.mono hle) (fun x hx => ?_) fun hself => ?_
      · rcases hall x hx with hx | hx
        · exact (hreads x hx).mono hle
        · exact hx.below
      · intro t ht
        rw [hkeeps.templates] at ht
        exact hown ((hall id hself).resolve_right hbelow.not_numbers) t ht
    | @helper k expanded op' hlow hhigh hfrom _ =>
      refine owned_helper hhigh fun x hx => ?_
      rcases hfrom x hx with hx | hx
      · exact (hreads x hx).mono hlow
      · exact hx.below
    | label _ => exact owned_label
  helper k n op hk hreads _ := owned_helper hk (by simp [hreads])
  label k n name pointer _ := owned_label
  codePage id spec code n h := by
    obtain _ | ⟨hcode⟩ := h
    exact ⟨.block (by simp), hcode⟩
  assertException id cause fault resume fault' resume' code n h _ _ := by
    obtain _ | ⟨hcode⟩ := h
    exact ⟨.block (by simp), hcode⟩

end Action

namespace Instruction

variable {catalog : Catalog} {op : Op} {low high : Nat} {i : Instruction} {opcode : String}
variable {target : OperandValue}

/-- Ids were given out before number `n`, and registers are where they belong. -/
structure Plain (n : Nat) (i : Instruction) : Prop where
  below : ∀ o ∈ i.operands, ∀ id, o.virtual? = some id → Below n id
  files : i.KeepsFiles
  pointer : i.isPointerLabel → i.operands = []

/-- The instruction of an action defines its own id only, and is no float if it reads that. -/
structure Owned (n : Nat) (i : Instruction) : Prop extends i.Plain n where
  own : ∀ id, i.Defines id → id = i.id ∧ id ≠ ""
  integer : i.id ∈ i.virtualSources → ∀ o ∈ i.destination, o.type ≠ .register .fpr

structure Unopened (catalog : Catalog) (op : Op) (low high : Nat) (i : Instruction) : Prop where
  closed : ∀ o ∈ i.destination, ∀ id, o.value ≠ .virtual id
  reads : ∀ o ∈ i.sources, ∀ id, o.value = .virtual id → id ∈ op.reads ∨ Numbers low high id
  float : ∀ o ∈ i.destination, o.type = .register .fpr → ¬ op.MakesNoFloat catalog
  files : i.KeepsFiles
  pointer : i.isPointerLabel → i.operands = []

theorem Draws.reads (h : i.Draws catalog op opcode target low high) :
    ∀ o ∈ i.sources, ∀ id, o.value = .virtual id → id ∈ op.reads ∨ Numbers low high id :=
  fun o ho _ hid => Op.Supplies.of_virtual (hid ▸ h.sources o ho)

theorem unopened_of_t2 (h : ∀ o ∈ i.operands, o.type = .register .gpr ∧ o.value = .reg .t2)
    (hpointer : i.isPointerLabel → i.operands = []) : i.Unopened catalog op low high := by
  have hdest : ∀ o ∈ i.destination, o.type = .register .gpr ∧ o.value = .reg .t2 :=
    fun o ho => h o (List.mem_append_left _ (Option.mem_toList.2 ho))
  constructor
  case closed =>
    intro o ho id hid
    rw [(hdest o ho).2] at hid
    cases hid
  case reads =>
    intro o ho id hid
    rw [(h o (List.mem_append_right _ ho)).2] at hid
    cases hid
  case float =>
    intro o ho hfpr
    rw [(hdest o ho).1] at hfpr
    cases hfpr
  case files => exact keepsFiles_of_t2 h
  case pointer => exact hpointer

section Filed

variable (hfiled : catalog.Filed)
include hfiled

theorem Draws.keepsFiles_named (h : i.Draws catalog op opcode target low high)
    (hname : opcode ∈ Catalog.namedOpcodes.map Prod.fst) (hopcode : opcode ∉ Catalog.floatAccesses)
    (htarget : target.Integer) : i.KeepsFiles := by
  refine h.keepsFiles hfiled hname (fun r hr => ?_) fun slot r hr => ?_
  · rw [htarget r hr, Catalog.file_eq_gpr hopcode]
  · obtain ⟨_, rfl, rfl⟩ := hr.of_register
    rw [Catalog.file_base]
    rfl

theorem Draws.unopened_named (h : i.Draws catalog op opcode target low high)
    (hname : opcode ∈ Catalog.namedOpcodes.map Prod.fst) (hopcode : opcode ∉ Catalog.floatAccesses)
    (hclosed : ∀ id, target ≠ .virtual id) (htarget : target.Integer) {form : InstructionForm}
    {clobbers : List Register} (hform : form ≠ .label true) :
    Unopened catalog op low high { i with form, clobbers } where
  closed o ho id hid := hclosed id ((h.target o ho).symm.trans hid)
  reads := h.reads
  float o ho hfpr := by
    have hfile := h.file hfiled hname (List.mem_append_left _ (Option.mem_toList.2 ho)) hfpr
    rw [Catalog.file_eq_gpr hopcode] at hfile
    cases hfile
  files := by
    have hfiles := h.keepsFiles_named hfiled hname hopcode htarget
    exact hfiles
  pointer := by simp [isPointerLabel, hform]

theorem Draws.unopened_chosen (h : i.Draws catalog op opcode .unset low high) {t : Template}
    (ht : t ∈ op.templates catalog) (hname : t.name = opcode) : Unopened catalog op low high i := by
  have hshaped := h.shaped_of_mem (op.templates_subset catalog ht) hname
  constructor
  case closed =>
    intro o ho id hid
    rw [h.target o ho] at hid
    cases hid
  case reads => exact h.reads
  case float =>
    intro o ho hfpr hnone
    have hdest := hshaped.destination
    rw [Option.mem_def.1 ho, Option.map_some, eq_comm, Option.map_eq_some_iff] at hdest
    obtain ⟨file, hfile, hfield⟩ := hdest
    rw [Prod.mk.injEq, hfpr, OperandType.register.injEq] at hfield
    exact hnone t ht (hfield.2 ▸ hfile)
  case files =>
    by_cases hmv : opcode = "mv"
    · subst hmv
      exact h.keepsFiles_named hfiled (by decide) (by decide) OperandValue.integer_unset
    · intro o ho f r _ hr
      rcases List.mem_append.1 ho with ho | ho
      · rw [h.target o (Option.mem_toList.1 ho)] at hr
        cases hr
      · exact absurd (Op.Supplies.of_register (hr ▸ h.sources o ho)).1 hmv
  case pointer => simp [isPointerLabel, h.native]

theorem Selected.unopened (h : i.Selected catalog op low high) : i.Unopened catalog op low high := by
  cases h with
  | @plain opcode i htakes h =>
    rcases htakes with ⟨t, ht, hname⟩ | hown
    · exact h.unopened_chosen hfiled ht hname
    · have hnamed := Op.ownOpcodes_integer opcode hown
      have hsame : i = { i with form := .native, clobbers := [] } := by
        rw [← h.native, ← h.harmless]
      rw [hsame]
      exact h.unopened_named hfiled hnamed.1 hnamed.2 (by simp) OperandValue.integer_unset (by simp)
  | @toT2 opcode i hname h =>
    have hnamed : opcode ∈ Catalog.namedOpcodes.map Prod.fst ∧ opcode ∉ Catalog.floatAccesses := by
      rcases hname with rfl | rfl <;> decide
    have hsame : i = { i with form := .native } := by
      rw [← h.native]
    rw [hsame]
    exact h.unopened_named hfiled hnamed.1 hnamed.2 (by simp) (OperandValue.integer_reg.2 rfl)
      (by simp)
  | @call i f h _ =>
    have hsame : i = { i with clobbers := [] } := by
      rw [← h.harmless]
    rw [hsame]
    exact h.unopened_named hfiled (by decide) (by decide) (by simp)
      (OperandValue.integer_reg.2 rfl) (by simp)
  | @csr csr access direct =>
    refine unopened_of_t2 ?_ (by simp [isPointerLabel, csrDirective])
    cases access <;> simp [operands, csrDirective]
  | @pte target write paging =>
    refine unopened_of_t2 ?_ (by simp [isPointerLabel, PteTarget.directive])
    cases write <;> simp [operands, PteTarget.directive]
  | label hop => exact unopened_of_t2 (by simp [operands, Instruction.label]) fun _ => rfl
  | comment => exact unopened_of_t2 (by simp [operands, Instruction.comment]) fun _ => rfl

end Filed

theorem mem_openDestination {id : Id} {o : Operand}
    (h : o ∈ (Action.openDestination id i).destination) : ∃ o' ∈ i.destination,
      o.type = o'.type ∧ (o.value = o'.value ∨ o.value = .virtual id) := by
  obtain ⟨o', ho', rfl⟩ := Option.map_eq_some_iff.1 h
  refine ⟨o', ho', ?_⟩
  split
  · exact ⟨rfl, .inr rfl⟩
  · exact ⟨rfl, .inl rfl⟩

theorem Unopened.owned {id : Id} {expanded : Bool} (h : i.Unopened catalog op low high)
    (hle : low ≤ high) (ha : (Action.simple id expanded op).Owned catalog low) :
    Owned high (Action.openDestination id { i with id }) := by
  obtain ⟨hid, hbelow, hreads, hown⟩ := ha
  have hdest : ∀ o ∈ (Action.openDestination id { i with id }).destination, ∀ x,
      o.virtual? = some x → x = id := by
    intro o ho x hx
    obtain ⟨o', ho', _, hvalue⟩ := mem_openDestination ho
    rw [Operand.value_of_virtual hx] at hvalue
    rcases hvalue with hvalue | hvalue
    · exact absurd hvalue.symm (h.closed o' ho' x)
    · exact OperandValue.virtual.inj hvalue
  have hsource : ∀ o ∈ i.sources, ∀ x, o.virtual? = some x → x ∈ op.reads ∨ Numbers low high x :=
    fun o ho x hx => h.reads o ho x (Operand.value_of_virtual hx)
  refine ⟨⟨?below, ?files, ?pointer⟩, ?own, ?integer⟩
  case own =>
    intro x hx
    obtain ⟨o, ho, hx⟩ := Option.bind_eq_some_iff.1 hx
    obtain rfl := hdest o ho x hx
    exact ⟨rfl, hid⟩
  case below =>
    intro o ho x hx
    rcases List.mem_append.1 ho with ho | ho
    · exact hdest o (Option.mem_toList.1 ho) x hx ▸ hbelow.mono hle
    · rcases hsource o ho x hx with hread | hfresh
      · exact (hreads x hread).mono hle
      · exact hfresh.below
  case integer =>
    intro hself o ho hfpr
    obtain ⟨source, hmem, hself⟩ := List.mem_filterMap.1 hself
    have hread := (hsource source hmem id hself).resolve_right hbelow.not_numbers
    obtain ⟨o', ho', htype, _⟩ := mem_openDestination ho
    exact h.float o' ho' (htype.symm.trans hfpr) (hown hread)
  case files =>
    intro o ho f r hf hr
    rcases List.mem_append.1 ho with ho | ho
    · obtain ⟨o', ho', htype, hvalue⟩ := mem_openDestination (Option.mem_toList.1 ho)
      rcases hvalue with hvalue | hvalue
      · exact h.files o' (List.mem_append_left _ (Option.mem_toList.2 ho')) f r
          (htype.symm.trans hf) (hvalue.symm.trans hr)
      · rw [hvalue] at hr
        cases hr
    · exact h.files o (List.mem_append_right _ ho) f r hf hr
  case pointer =>
    intro hpointer
    have hnone := h.pointer hpointer
    simp only [operands, List.append_eq_nil_iff, Option.toList_eq_nil_iff] at hnone ⊢
    exact ⟨by simp [Action.openDestination, hnone.1], hnone.2⟩

theorem owned_of_no_register {n : Nat} (h : ∀ o ∈ i.operands, o.type.file? = none)
    (hpointer : i.isPointerLabel → i.operands = []) : i.Owned n := by
  have hvirtual : ∀ o ∈ i.operands, ∀ x, o.virtual? ≠ some x := by
    intro o ho x hx
    obtain ⟨f, hf⟩ := Operand.file_of_virtual hx
    rw [h o ho] at hf
    cases hf
  have hdest : ∀ o ∈ i.destination, o ∈ i.operands :=
    fun o ho => List.mem_append_left _ (Option.mem_toList.2 ho)
  refine ⟨⟨?below, ?files, ?pointer⟩, ?own, ?integer⟩
  case own =>
    intro x hx
    obtain ⟨o, ho, hx⟩ := Option.bind_eq_some_iff.1 hx
    exact absurd hx (hvirtual o (hdest o ho) x)
  case below => exact fun o ho x hx => absurd hx (hvirtual o ho x)
  case integer =>
    intro _ o ho hfpr
    have hnone := h o (hdest o ho)
    rw [hfpr] at hnone
    cases hnone
  case files =>
    intro o ho f r hf _
    have hnone := h o ho
    rw [hf] at hnone
    cases hnone
  case pointer => exact hpointer

end Instruction

namespace Action

variable {catalog : Catalog} {low high : Nat}

theorem Selects.owned {a : Action} {i : Instruction} (h : a.Selects catalog low high i)
    (hfiled : catalog.Filed) (hle : low ≤ high) (ha : a.Owned catalog low) : i.Owned high := by
  cases h with
  | simple h => exact (h.unopened hfiled).owned hle ha
  | codePage =>
    exact Instruction.owned_of_no_register (by simp [Instruction.operands, Instruction.label])
      fun _ => rfl
  | assertException =>
    refine Instruction.owned_of_no_register ?_ (by
      simp [Instruction.isPointerLabel, ExceptionCause.directive])
    simp [Instruction.operands, ExceptionCause.directive, OperandType.file?]

/-- Each action makes its own value, through expansion and selection. -/
theorem selected_owned {actions expanded : List Action} {code : List Instruction}
    {context : Context} {s t u : State} (htyped : ∀ t ∈ context.catalog.templates, t.Typed)
    (hfiled : context.catalog.Filed)
    (hactions : ∀ a ∈ actions, a.Owned context.catalog s.ids.values)
    (hexpanded : expandAll actions context s = .ok expanded t)
    (hselected : selectAll expanded context t = .ok code u) :
    ∀ i ∈ code, i.Owned u.ids.values := by
  have hle : t.ids.values ≤ u.ids.values :=
    Lower.selectAll_moves (R := Lower.CountsOn) expanded _ _ _ _ hselected
  have howned := expandAll_inherits (owned_inherited context.catalog) hactions hexpanded
  intro i hi
  obtain ⟨a, ha, hselects⟩ := exists_of_forall₂ (selectAll_selects htyped hselected) hi
  exact hselects.owned hfiled hle (howned a ha)

end Action
end PlanLowering
