import PlanLowering.Proofs.Complete
import PlanLowering.Proofs.Drawn
import PlanLowering.Proofs.OperandLists
import PlanLowering.Proofs.Success

/-!
# What the built-in catalogs have in stock

Passes name opcodes, and selection asks for one of a kind. For either register width the built-in
catalog has the opcodes with the slots that passes wire, and an answer to every such question.
-/

namespace PlanLowering

def Returns {ε α : Type} (m : Except ε α) (post : α → Prop) : Prop := ∃ a, m = .ok a ∧ post a

section Returns

variable {ε α β : Type} {m : Except ε α} {f : α → Except ε β} {a : α} {post post' : α → Prop}

theorem Returns.mono (h : Returns m post) (hsub : ∀ a, post a → post' a) : Returns m post' := by
  obtain ⟨a, hrun, ha⟩ := h
  exact ⟨a, hrun, hsub a ha⟩

@[simp] theorem returns_ok : Returns (.ok a : Except ε α) post ↔ post a := by
  simp [Returns]

@[simp] theorem returns_pure : Returns (pure a : Except ε α) post ↔ post a := by
  simp [Returns]

@[simp] theorem returns_bind {post : β → Prop} :
    Returns (m >>= f) post ↔ Returns m fun a => Returns (f a) post := by
  constructor
  · rintro ⟨b, hrun, hb⟩
    obtain ⟨a, ha, hrest⟩ := except_bind_ok.1 hrun
    exact ⟨a, ha, b, hrest, hb⟩
  · rintro ⟨a, ha, b, hrest, hb⟩
    exact ⟨b, except_bind_ok.2 ⟨a, ha, hrest⟩, hb⟩

theorem Lower.succeeds_of_returns {context : Context} {s : State} {m : Except LoweringError α}
    {post : α → State → Prop} (h : Returns m (post · s)) :
    (Lower.ofExcept m).Succeeds context s post :=
  succeeds_ofExcept.2 h

end Returns

namespace Template

def sourceSlots (t : Template) : List Slot := t.sources.map Prod.fst

/-- The template has the slots that an action of its category wires, and no more register sources
than scratch registers can hold. -/
def fits (t : Template) : Bool :=
  (match t.category with
    | .arithmetic => t.destination.isSome &&
      (t.instruction.registerSources < 1 || .rs1 ∈ t.sourceSlots) &&
      (t.instruction.registerSources < 2 || .rs2 ∈ t.sourceSlots)
    | .load => t.destination.isSome && .rs1 ∈ t.sourceSlots
    | .store => .rs1 ∈ t.sourceSlots && .rs2 ∈ t.sourceSlots
    | .cast => t.destination.isSome && .rs1 ∈ t.sourceSlots
    | _ => true) &&
  [RegisterFile.gpr, .fpr].all fun file =>
    (t.sources.filter (·.2 = .register file)).length ≤ file.scratch.length

end Template

namespace Catalog

def wideOpcodes : List String := ["ld", "sd"]

def arithmeticFilters : List TemplateFilter :=
  [(none, none), (none, some true), (some 1, none), (some 1, some true), (some 2, none)].map
    fun (registerSources, hasImmediate) =>
      { category := some .arithmetic, registerSources, hasImmediate }

def castFilters : List TemplateFilter :=
  [.cast (.register .gpr) (.register .fpr), .cast (.register .fpr) (.register .gpr)]

def accessSizes : List (Option Nat) := [none, some 1, some 2, some 4, some 8]

end Catalog

def Access.choices (templates : List Template) (size : Option Nat) (filter : TemplateFilter)
    (skip : List String) : List Template :=
  (templates.filter filter.accepts).filter fun t =>
    (skip.all fun part => !Text.occursIn part.toList t.name.toList) &&
      (suffix? size).all fun c => t.name.toList.getLast? = some c

namespace Catalog

def answersAccess (templates : List Template) (category : Category) (excluded : Extensions)
    (skip : List String) : Bool :=
  accessSizes.all fun size => [none, some true].all fun hasImmediate =>
    Access.choices templates size { category := some category, excluded, hasImmediate } skip ≠ []

def stocks (xlen : Xlen) (templates : List Template) : Bool :=
  templates.all Template.fits &&
  (namedOpcodes.all fun opcode => (xlen = .rv32 && opcode.1 ∈ wideOpcodes) ||
    (templates.find? (·.name = opcode.1)).any fun t => opcode.2.all (· ∈ t.slots)) &&
  ((arithmeticFilters ++ castFilters).all fun filter => templates.filter filter.accepts ≠ []) &&
  answersAccess templates .load .none ["sp"] &&
  answersAccess templates .store (.union .atomic .svinval) ["sp", "sc"]

def wideNames : List String :=
  ["addw", "subw", "sllw", "srlw", "sraw", "addiw", "slliw", "srliw", "sraiw", "mulw", "divw",
    "remw", "roriw", "fmv.d.x", "fmv.x.d", "lwu", "ld", "sd", "sc.d"]

def rv32Templates : List Template := rv64Templates.filter (·.name ∉ wideNames)

theorem kept_rv32 : ∀ spec ∈ builtinSpecs, kept .rv32 spec = decide (spec.name ∉ wideNames) := by
  decide +kernel

def builtinTemplates : Xlen → List Template
  | .rv64 => rv64Templates
  | .rv32 => rv32Templates

theorem rv64_stocks : stocks .rv64 rv64Templates = true := by
  decide +kernel

theorem rv32_stocks : stocks .rv32 rv32Templates = true := by
  decide +kernel

theorem forall₂_builtinTemplates (xlen : Xlen) :
    List.Forall₂ (fun spec t => Template.ofSpec spec = .ok t) (builtinSpecs.filter (kept xlen))
      (builtinTemplates xlen) := by
  cases xlen with
  | rv64 =>
    have h := ofSpecs_reads.1 builtin_rv64
    rwa [rv64] at h
  | rv32 =>
    have hkept : builtinSpecs.filter (kept .rv32) = builtinSpecs.filter (·.name ∉ wideNames) :=
      List.filter_congr kept_rv32
    rw [hkept]
    refine List.rel_filter (fun spec t hread => ?_) forall₂_builtinSpecs
    dsimp only
    rw [Template.ofSpec_name hread]

theorem builtin_exists (xlen : Xlen) : ∃ catalog, builtin xlen = .ok catalog := by
  have hnodup : ((builtinTemplates xlen).map Template.name).Nodup := by
    cases xlen with
    | rv64 => exact rv64Templates_nodup
    | rv32 => exact rv64Templates_nodup.sublist (List.filter_sublist.map Template.name)
  exact ⟨.ofTemplates (builtinTemplates xlen) hnodup, ofSpecs_reads.2 (forall₂_builtinTemplates xlen)⟩

structure Stocked (xlen : Xlen) (catalog : Catalog) : Prop where
  typed : ∀ t ∈ catalog.templates, t.Typed
  fits : ∀ t ∈ catalog.templates, t.fits
  named : ∀ opcode slots, (opcode, slots) ∈ namedOpcodes → (xlen = .rv64 ∨ opcode ∉ wideOpcodes) →
    ∃ t, catalog.find? opcode = some t ∧ slots ⊆ t.slots
  answers : ∀ filter ∈ arithmeticFilters ++ castFilters, catalog.filter filter ≠ []
  loads : answersAccess catalog.templates .load .none ["sp"]
  stores : answersAccess catalog.templates .store (.union .atomic .svinval) ["sp", "sc"]

theorem stocked_of_stocks {xlen : Xlen} {catalog : Catalog}
    (htyped : ∀ t ∈ catalog.templates, t.Typed) (h : stocks xlen catalog.templates) :
    catalog.Stocked xlen := by
  simp only [stocks, Bool.and_eq_true, List.all_eq_true, Bool.or_eq_true, Option.any_eq_true,
    decide_eq_true_eq] at h
  obtain ⟨⟨⟨⟨hfits, hnamed⟩, hanswers⟩, hloads⟩, hstores⟩ := h
  refine ⟨htyped, hfits, fun opcode slots hmem hxlen => ?_, hanswers, hloads, hstores⟩
  rcases hnamed _ hmem with ⟨rfl, hwide⟩ | ⟨t, hfind, hslots⟩
  · rcases hxlen with hxlen | hxlen
    · cases hxlen
    · exact absurd hwide hxlen
  · exact ⟨t, find?_eq.trans hfind, hslots⟩

theorem templates_of_builtin {xlen : Xlen} {catalog : Catalog} (h : builtin xlen = .ok catalog) :
    catalog.templates = builtinTemplates xlen := by
  refine List.right_unique_forall₂' ?_ (ofSpecs_reads.1 h) (forall₂_builtinTemplates xlen)
  intro spec t u ht hu
  exact Except.ok.inj (ht.symm.trans hu)

theorem builtin_stocked {xlen : Xlen} {catalog : Catalog} (h : builtin xlen = .ok catalog) :
    catalog.Stocked xlen := by
  refine stocked_of_stocks (ofSpecs_typed h) ?_
  rw [templates_of_builtin h]
  cases xlen with
  | rv64 => exact rv64_stocks
  | rv32 => exact rv32_stocks

end Catalog

namespace Instruction.Shaped

variable {t : Template} {i : Instruction} {slot : Slot} {value : OperandValue} {action : String}

theorem rewire {sources : List Operand} (h : i.Shaped t)
    (hfields : sources.map Operand.field = i.sources.map Operand.field) :
    Shaped t { i with sources } :=
  ⟨h.destination, hfields.trans h.sources⟩

theorem makes (h : i.Shaped t) (hdest : t.destination.isSome) : i.destination.isSome := by
  have hfields := congrArg Option.isSome h.destination
  rw [Option.isSome_map, Option.isSome_map] at hfields
  rw [hfields, hdest]

theorem source?_isSome (h : i.Shaped t) : (i.source? slot).isSome ↔ slot ∈ t.sourceSlots := by
  rw [source?, List.find?_isSome, Template.sourceSlots, ← h.sources, List.map_map]
  simp

theorem hasImmediate (h : i.Shaped t) : i.hasImmediate = t.instruction.hasImmediate := by
  have hsame : i.sources.map Operand.field = t.instruction.sources.map Operand.field :=
    h.sources.trans t.shaped_instruction.sources.symm
  have hany (ops : List Operand) :
      ops.any (·.type = .imm) = (ops.map Operand.field).any (·.2 = .imm) := by
    simp [List.any_map, Function.comp_def]
  rw [Instruction.hasImmediate, Instruction.hasImmediate, hany, hany, hsame]

theorem setFirst_returns {p : Operand → Bool} {ops : List Operand} (h : ∃ op ∈ ops, p op) :
    ∃ ops', setFirst p value ops = some ops' := by
  induction ops with
  | nil => simp at h
  | cons op rest ih =>
    rw [setFirst]
    by_cases hop : p op
    · simp [hop]
    · have hrest : ∃ op ∈ rest, p op := by simpa [hop] using h
      obtain ⟨ops', hops'⟩ := ih hrest
      simp [hop, hops']

theorem setSource (h : i.Shaped t) (hslot : slot ∈ t.sourceSlots) :
    Returns (i.setSource slot value action) (·.Shaped t) := by
  have hop : ∃ op ∈ i.sources, decide (op.slot = slot) := by
    rw [← h.source?_isSome, source?, List.find?_isSome] at hslot
    exact hslot
  obtain ⟨sources, hsources⟩ := setFirst_returns hop
  exact ⟨_, setSource_ok.2 ⟨sources, hsources, rfl⟩, h.rewire (fields_setFirst hsources)⟩

theorem setImmediate (h : i.Shaped t) (himm : t.instruction.hasImmediate) :
    Returns (i.setImmediate value action) (·.Shaped t) := by
  have hop : ∃ op ∈ i.sources, decide (op.type = .imm) := by
    rw [← h.hasImmediate, Instruction.hasImmediate, List.any_eq_true] at himm
    exact himm
  obtain ⟨sources, hsources⟩ := setFirst_returns hop
  exact ⟨_, setImmediate_ok.2 ⟨sources, hsources, rfl⟩, h.rewire (fields_setFirst hsources)⟩

theorem setDestination (h : i.Shaped t) (hdest : t.destination.isSome) :
    Returns (i.setDestination value action) (·.Shaped t) := by
  obtain ⟨file, hfile⟩ := Option.isSome_iff_exists.1 hdest
  have hshape := h.destination
  rw [hfile, Option.map_some, Option.map_eq_some_iff] at hshape
  obtain ⟨op, hop, hfield⟩ := hshape
  refine ⟨_, setDestination_ok.2 ⟨op, hop, rfl⟩, ⟨?_, h.sources⟩⟩
  rw [hfile]
  exact congrArg some hfield

end Instruction.Shaped

namespace Template

variable {t : Template} {slot : Slot}

theorem mem_slots : slot ∈ t.slots ↔ (slot = .rd ∧ t.destination.isSome) ∨ slot ∈ t.sourceSlots := by
  cases hdest : t.destination <;> simp [slots, fields, sourceSlots, hdest]

theorem Typed.rd_not_mem (ht : t.Typed) : .rd ∉ t.sourceSlots := by
  intro hslot
  obtain ⟨source, hsource, hrd⟩ := List.mem_map.1 hslot
  have hadmits := ht source hsource
  rw [hrd] at hadmits
  cases hadmits

theorem Typed.destination_isSome (ht : t.Typed) (h : .rd ∈ t.slots) : t.destination.isSome := by
  rcases mem_slots.1 h with h | h
  · exact h.2
  · exact absurd h ht.rd_not_mem

theorem Typed.hasImmediate (ht : t.Typed) (h : .imm ∈ t.sourceSlots) :
    t.instruction.hasImmediate := by
  obtain ⟨source, hsource, himm⟩ := List.mem_map.1 h
  have hadmits := ht source hsource
  rw [himm] at hadmits
  have htype : source.2 = .imm := by
    cases htype : source.2 <;> simp [Slot.admits, htype] at hadmits ⊢
  simp only [Instruction.hasImmediate, instruction, List.any_map, List.any_eq_true]
  exact ⟨source, hsource, decide_eq_true htype⟩

end Template

structure Instruction.Offers (slots : List Slot) (i : Instruction) : Prop where
  shaped : ∃ t : Template, t.Typed ∧ slots ⊆ t.slots ∧ i.Shaped t

namespace Instruction.Offers

variable {i : Instruction} {slots : List Slot} {slot : Slot} {value : OperandValue} {need : String}
variable {post : Instruction → Prop}

theorem setSource (h : i.Offers slots) (hslot : slot ∈ slots) (hrd : slot ≠ .rd)
    (hrest : ∀ i, i.Offers slots → post i) : Returns (i.setSource slot value need) post := by
  obtain ⟨t, ht, hslots, hi⟩ := h
  have hsource : slot ∈ t.sourceSlots := (Template.mem_slots.1 (hslots hslot)).resolve_left
    fun h => hrd h.1
  exact (hi.setSource hsource).mono fun i hi => hrest i ⟨t, ht, hslots, hi⟩

theorem setImmediate (h : i.Offers slots) (hslot : .imm ∈ slots)
    (hrest : ∀ i, i.Offers slots → post i) : Returns (i.setImmediate value need) post := by
  obtain ⟨t, ht, hslots, hi⟩ := h
  have hsource : .imm ∈ t.sourceSlots := (Template.mem_slots.1 (hslots hslot)).resolve_left
    fun h => by cases h.1
  exact (hi.setImmediate (ht.hasImmediate hsource)).mono fun i hi => hrest i ⟨t, ht, hslots, hi⟩

theorem setDestination (h : i.Offers slots) (hslot : .rd ∈ slots)
    (hrest : ∀ i, i.Offers slots → post i) : Returns (i.setDestination value need) post := by
  obtain ⟨t, ht, hslots, hi⟩ := h
  exact (hi.setDestination (ht.destination_isSome (hslots hslot))).mono
    fun i hi => hrest i ⟨t, ht, hslots, hi⟩

theorem destination_isSome (h : i.Offers slots) (hslot : .rd ∈ slots) : i.destination.isSome := by
  obtain ⟨t, ht, hslots, hi⟩ := h
  exact hi.makes (ht.destination_isSome (hslots hslot))

end Instruction.Offers

section Named

variable {xlen : Xlen} {catalog : Catalog} {opcode : String} {slots : List Slot}

theorem Catalog.Stocked.instruction (h : catalog.Stocked xlen)
    (hname : (opcode, slots) ∈ namedOpcodes) (hxlen : xlen = .rv64 ∨ opcode ∉ wideOpcodes) :
    Returns (catalog.instruction opcode) (·.Offers slots) := by
  obtain ⟨t, hfind, hslots⟩ := h.named opcode slots hname hxlen
  exact ⟨_, Catalog.instruction_ok.2 ⟨t, hfind, rfl⟩, t, h.typed t (Catalog.mem_of_find? hfind),
    hslots, t.shaped_instruction⟩

end Named
end PlanLowering
