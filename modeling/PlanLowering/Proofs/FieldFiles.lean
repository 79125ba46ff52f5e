import PlanLowering.Program.Frame
import PlanLowering.Program.Harness
import PlanLowering.Proofs.Complete
import PlanLowering.Proofs.Lodging
import PlanLowering.Proofs.TestCode

/-!
# Register files of operands

Templates give each register slot a file. Passes that name an opcode wire registers into its slots
by hand, and these are of the right file: integer registers everywhere but in the data of float
loads and stores.
-/

namespace PlanLowering

/-- A register in the operand belongs to the file of its type. -/
def Operand.KeepsFile (op : Operand) : Prop :=
  ∀ file r, op.type = .register file → op.value = .reg r → r.file = file

theorem Operand.keepsFile_iff {op : Operand} :
    op.KeepsFile ↔ ∀ file ∈ op.type.file?, ∀ r ∈ op.register?, r.file = file := by
  cases op with
  | mk slot type value =>
    cases type <;> cases value <;> simp [KeepsFile, OperandType.file?, register?]

instance (op : Operand) : Decidable op.KeepsFile := decidable_of_iff _ Operand.keepsFile_iff.symm

def Instruction.KeepsFiles (i : Instruction) : Prop := ∀ op ∈ i.operands, op.KeepsFile

instance (i : Instruction) : Decidable i.KeepsFiles :=
  inferInstanceAs (Decidable (∀ op ∈ i.operands, op.KeepsFile))

def OperandValue.Integer (value : OperandValue) : Prop := ∀ r, value = .reg r → r.file = .gpr

namespace OperandValue

theorem integer_unset : unset.Integer := by
  simp [Integer]

theorem integer_imm {v : Int} : (imm v).Integer := by
  simp [Integer]

theorem integer_symbol {s : String} : (symbol s).Integer := by
  simp [Integer]

theorem integer_reg {r : Register} : (reg r).Integer ↔ r.file = .gpr := by
  simp [Integer]

end OperandValue

namespace Catalog

def floatAccesses : List String := ["fld", "flw", "fsd", "fsw"]

/-- The file of a register slot of an opcode that passes name. Float loads and stores have their
base address in the integer file. -/
def file (opcode : String) (slot : Slot) : RegisterFile :=
  if opcode ∈ floatAccesses ∧ slot ≠ .rs1 then .fpr else .gpr

def Filed (catalog : Catalog) : Prop :=
  ∀ opcode ∈ namedOpcodes, ∀ t ∈ catalog.templates, t.name = opcode.1 →
    ∀ field ∈ t.fields, ∀ f, field.2 = .register f → f = file opcode.1 field.1

def filedBy (t : Template) : Bool :=
  namedOpcodes.all fun opcode => t.name ≠ opcode.1 ||
    t.fields.all fun field => field.2.file?.all (· = file opcode.1 field.1)

theorem rv64Templates_filed : rv64Templates.all filedBy = true := by
  decide +kernel

theorem builtin_filed {xlen : Xlen} {catalog : Catalog} (h : builtin xlen = .ok catalog) :
    catalog.Filed := by
  have hfiled : ∀ t ∈ catalog.templates, filedBy t := fun t ht =>
    List.all_eq_true.1 rv64Templates_filed t (mem_rv64Templates h t ht)
  intro opcode hopcode t ht hname field hfield f hf
  have hall := List.all_eq_true.1 (hfiled t ht) opcode hopcode
  simp only [hname, ne_eq, not_true_eq_false, decide_false, Bool.false_or, List.all_eq_true] at hall
  have hfile := hall field hfield
  simpa [hf, OperandType.file?] using hfile

theorem file_eq_gpr {opcode : String} (h : opcode ∉ floatAccesses) (slot : Slot) :
    file opcode slot = .gpr := by
  simp [file, h]

@[simp] theorem file_base (opcode : String) : file opcode .rs1 = .gpr := by
  simp [file]

end Catalog

theorem Xlen.file_spillOpcode (xlen : Xlen) (f : RegisterFile) (load : Bool) {slot : Slot}
    (hslot : slot ≠ .rs1) : Catalog.file (xlen.spillOpcode f load) slot = f := by
  cases xlen <;> cases f <;> cases load <;>
    simp [Catalog.file, Catalog.floatAccesses, hslot, spillOpcode, wordLoad, wordStore, floatLoad,
      floatStore]

theorem Xlen.spillOpcode_mem_named (xlen : Xlen) (f : RegisterFile) (load : Bool) :
    xlen.spillOpcode f load ∈ Catalog.namedOpcodes.map Prod.fst := by
  cases xlen <;> cases f <;> cases load <;> decide

theorem Xlen.spillOpcode_integer (xlen : Xlen) (load : Bool) :
    xlen.spillOpcode .gpr load ∉ Catalog.floatAccesses := by
  cases xlen <;> cases load <;> decide

namespace Instruction

variable {catalog : Catalog} {t : Template} {i : Instruction} {op : Operand} {opcode : String}
variable {target : OperandValue} {supplies : Slot → OperandValue → Prop}

theorem Shaped.fields (h : i.Shaped t) : i.operands.map Operand.field = t.fields := by
  rw [operands, List.map_append, h.sources, Template.fields, ← h.destination]
  cases i.destination <;> rfl

theorem Shaped.slot_of_destination (h : i.Shaped t) (hop : op ∈ i.destination) :
    op.slot = .rd ∧ op.type.isRegister := by
  have hfield := h.destination
  rw [Option.mem_def.1 hop, Option.map_some, eq_comm, Option.map_eq_some_iff] at hfield
  obtain ⟨file, _, hfile⟩ := hfield
  rw [Prod.mk.injEq] at hfile
  exact ⟨hfile.1.symm, hfile.2 ▸ rfl⟩

theorem Drawn.file (h : i.Drawn catalog opcode target supplies) (hfiled : catalog.Filed)
    (hname : opcode ∈ Catalog.namedOpcodes.map Prod.fst) (hop : op ∈ i.operands)
    {f : RegisterFile} (hf : op.type = .register f) : f = Catalog.file opcode op.slot := by
  obtain ⟨t, ht, rfl, hshaped⟩ := h.shaped
  obtain ⟨named, hnamed, heq⟩ := List.mem_map.1 hname
  have hfield : op.field ∈ t.fields := hshaped.fields ▸ List.mem_map_of_mem hop
  rw [← heq]
  exact hfiled named hnamed t ht heq.symm op.field hfield f hf

/-- Registers that are wired into an opcode by hand are of the files that it asks for. -/
theorem Drawn.keepsFiles (h : i.Drawn catalog opcode target supplies) (hfiled : catalog.Filed)
    (hname : opcode ∈ Catalog.namedOpcodes.map Prod.fst)
    (htarget : ∀ r, target = .reg r → r.file = Catalog.file opcode .rd)
    (hsources : ∀ slot r, supplies slot (.reg r) → r.file = Catalog.file opcode slot) :
    i.KeepsFiles := by
  intro op hop f r hf hr
  rw [h.file hfiled hname hop hf]
  rcases List.mem_append.1 hop with hop | hop
  · rw [Option.mem_toList] at hop
    obtain ⟨t, _, _, hshaped⟩ := h.shaped
    rw [(hshaped.slot_of_destination hop).1]
    exact htarget r ((h.target op hop).symm.trans hr)
  · exact hsources op.slot r (hr ▸ h.sources op hop)

theorem Drawn.keepsFiles_integer
    (h : i.Drawn catalog opcode target fun _ value => value.Integer) (hfiled : catalog.Filed)
    (hname : opcode ∈ Catalog.namedOpcodes.map Prod.fst) (hopcode : opcode ∉ Catalog.floatAccesses)
    (htarget : target.Integer) : i.KeepsFiles := by
  refine h.keepsFiles hfiled hname (fun r hr => ?_) fun slot r hr => ?_
  · rw [htarget r hr, Catalog.file_eq_gpr hopcode]
  · rw [hr r rfl, Catalog.file_eq_gpr hopcode]

theorem keepsFiles_label (id : Id) (name : String) (pointer : Bool) :
    (label id name pointer).KeepsFiles := by
  simp [KeepsFiles, operands, label]

theorem keepsFiles_of_t2 (h : ∀ o ∈ i.operands, o.type = .register .gpr ∧ o.value = .reg .t2) :
    i.KeepsFiles := by
  intro o ho f r hf hr
  rw [(h o ho).1] at hf
  rw [(h o ho).2] at hr
  cases hf
  cases hr
  rfl

theorem keepsFiles_csrDirective (csr : String) (access : CsrAccess) (direct : Bool) :
    (csrDirective csr access direct).KeepsFiles := by
  apply keepsFiles_of_t2
  cases access <;> simp [operands, csrDirective]

end Instruction

section Around

variable {context : Context} {spill : SpillCode} {i i₁ i₂ o : Instruction} {code : List Instruction}
variable {r base : Register} {value : OperandValue} {name symbol owner : String} {offset : Int}
variable (htyped : ∀ t ∈ context.catalog.templates, t.Typed) (hfiled : context.catalog.Filed)
include htyped hfiled

theorem SpillCode.Makes.keepsFiles (hspill : SpillCode.ofContext context = .ok spill)
    (h : spill.Makes o) : o.KeepsFiles := by
  cases h with
  | @reload r _ _ _ h =>
    refine (drawn_reload htyped hspill h).keepsFiles hfiled (Xlen.spillOpcode_mem_named _ _ _) ?_ ?_
    · rintro _ ⟨⟩
      rw [Xlen.file_spillOpcode _ _ _ (by decide)]
    · rintro _ _ (_ | _)
      · rw [Catalog.file_base]
        rfl
      · rw [Xlen.file_spillOpcode _ _ _ (by decide)]
  | @save r _ _ _ h =>
    refine (drawn_save htyped hspill h).keepsFiles hfiled (Xlen.spillOpcode_mem_named _ _ _) ?_ ?_
    · rintro _ ⟨⟩
    · rintro _ _ (_ | _)
      · rw [Catalog.file_base]
        rfl
      · rw [Xlen.file_spillOpcode _ _ _ (by decide)]
  | moveStack h =>
    refine (drawn_moveStack htyped hspill h).keepsFiles hfiled (by decide) ?_ ?_
    · rintro _ ⟨⟩
      rfl
    · rintro _ _ (_ | _) <;> rfl

theorem keepsFiles_li {need need' : String} (hr : r.file = .gpr) (hvalue : value.Integer)
    (hi : context.catalog.instruction "li" = .ok i)
    (hrd : i.setDestination (.reg r) need = .ok i₁)
    (himm : i₁.setImmediate value need' = .ok o) : o.KeepsFiles := by
  have hdrawn := Catalog.drawn_instruction (fun _ value => value.Integer) hi fun _ =>
    OperandValue.integer_unset
  have hdrawn := (hdrawn.setDestination hrd).setImmediate htyped himm hvalue
  exact hdrawn.keepsFiles_integer hfiled (by decide) (by decide) (OperandValue.integer_reg.2 hr)

/-- An instruction that takes an integer register and an immediate to an integer register. -/
theorem keepsFiles_based {need need' need'' : String}
    (hname : name ∈ Catalog.namedOpcodes.map Prod.fst) (hopcode : name ∉ Catalog.floatAccesses)
    (hr : r.file = .gpr) (hbase : base.file = .gpr)
    (hi : context.catalog.instruction name = .ok i)
    (hrd : i.setDestination (.reg r) need = .ok i₁)
    (hrs1 : i₁.setSource .rs1 (.reg base) need' = .ok i₂)
    (himm : i₂.setImmediate (.imm offset) need'' = .ok o) : o.KeepsFiles := by
  have hdrawn := Catalog.drawn_instruction (fun _ value => value.Integer) hi fun _ =>
    OperandValue.integer_unset
  have hdrawn := (hdrawn.setDestination hrd).setSource hrs1 (OperandValue.integer_reg.2 hbase)
  have hdrawn := hdrawn.setImmediate htyped himm OperandValue.integer_imm
  exact hdrawn.keepsFiles_integer hfiled hname hopcode (OperandValue.integer_reg.2 hr)

namespace TestFrame

theorem loadSymbol_keepsFiles (hr : r.file = .gpr) (h : loadSymbol context r symbol = .ok o) :
    o.KeepsFiles := by
  simp only [loadSymbol, except_bind_ok, except_pure_ok] at h
  obtain ⟨i, hi, i₁, hrd, i₂, himm, rfl⟩ := h
  have hload : i₂.KeepsFiles :=
    keepsFiles_li htyped hfiled hr OperandValue.integer_symbol hi hrd himm
  exact hload

theorem storageLoad_keepsFiles (h : storageLoad context offset = .ok o) : o.KeepsFiles := by
  simp only [storageLoad, except_bind_ok] at h
  obtain ⟨i, hi, i₁, hrd, i₂, hrs1, himm⟩ := h
  exact keepsFiles_based htyped hfiled (Xlen.spillOpcode_mem_named _ .gpr true)
    (Xlen.spillOpcode_integer _ true) rfl rfl hi hrd hrs1 himm

theorem storageStore_keepsFiles (h : storageStore context offset = .ok o) : o.KeepsFiles := by
  simp only [storageStore, except_bind_ok] at h
  obtain ⟨i, hi, i₁, hrs2, i₂, hrs1, himm⟩ := h
  have hdrawn := Catalog.drawn_instruction (fun _ value => value.Integer) hi fun _ =>
    OperandValue.integer_unset
  have hdrawn := (hdrawn.setSource hrs2 (OperandValue.integer_reg.2 rfl)).setSource hrs1
    (OperandValue.integer_reg.2 rfl)
  have hdrawn := hdrawn.setImmediate htyped himm OperandValue.integer_imm
  exact hdrawn.keepsFiles_integer hfiled (Xlen.spillOpcode_mem_named _ .gpr false)
    (Xlen.spillOpcode_integer _ false) OperandValue.integer_unset

theorem openStack_keepsFiles {stack : Id} {size : UInt64}
    (h : openStack context stack size = .ok code) : ∀ o ∈ code, o.KeepsFiles := by
  simp only [openStack, except_bind_ok, except_pure_ok] at h
  obtain ⟨i, hbytes, i₁, hbytesRd, bytes, hbytesImm, j, htop, j₁, htopRd, j₂, htopRs1, top,
    htopRs2, k, halign, k₁, halignRd, k₂, halignRs1, align, halignImm, page, hpage, rfl⟩ := h
  have hbytes : bytes.KeepsFiles :=
    keepsFiles_li htyped hfiled rfl OperandValue.integer_imm hbytes hbytesRd hbytesImm
  have htop : top.KeepsFiles := by
    have hdrawn := Catalog.drawn_instruction (fun _ value => value.Integer) htop fun _ =>
      OperandValue.integer_unset
    have hdrawn := (hdrawn.setDestination htopRd).setSource htopRs1 (OperandValue.integer_reg.2 rfl)
    have hdrawn := hdrawn.setSource htopRs2 (OperandValue.integer_reg.2 rfl)
    exact hdrawn.keepsFiles_integer hfiled (by decide) (by decide)
      (OperandValue.integer_reg.2 rfl)
  have halign : align.KeepsFiles :=
    keepsFiles_based htyped hfiled (by decide) (by decide) rfl rfl halign halignRd halignRs1
      halignImm
  simp only [List.forall_mem_cons]
  exact ⟨loadSymbol_keepsFiles htyped hfiled rfl hpage, hbytes, htop, halign, by simp⟩

end TestFrame

namespace Harness

theorem jumpThrough_keepsFiles (h : jumpThrough context symbol owner = .ok code) :
    ∀ o ∈ code, o.KeepsFiles := by
  simp only [jumpThrough, except_bind_ok, except_pure_ok] at h
  obtain ⟨i, haddress, i₁, haddressRd, address, haddressImm, j, htarget, j₁, htargetRd, j₂,
    htargetRs1, target, htargetImm, k, hjump, k₁, hjumpRd, k₂, hjumpRs1, jump, hjumpImm, rfl⟩ := h
  have haddress : address.KeepsFiles :=
    keepsFiles_li htyped hfiled rfl OperandValue.integer_symbol haddress haddressRd haddressImm
  have htarget : target.KeepsFiles :=
    keepsFiles_based htyped hfiled (Xlen.spillOpcode_mem_named _ .gpr true)
      (Xlen.spillOpcode_integer _ true) rfl rfl htarget htargetRd htargetRs1 htargetImm
  have hjump : jump.KeepsFiles :=
    keepsFiles_based htyped hfiled (by decide) (by decide) rfl rfl hjump hjumpRd hjumpRs1 hjumpImm
  simp only [List.forall_mem_cons]
  exact ⟨haddress, htarget, hjump, by simp⟩

end Harness

theorem Framing.keepsFiles : Framing context Instruction.KeepsFiles where
  label id name := Instruction.keepsFiles_label id name false
  read csr := Instruction.keepsFiles_csrDirective csr _ _
  write csr := Instruction.keepsFiles_csrDirective csr _ _
  page _ _ := TestFrame.loadSymbol_keepsFiles htyped hfiled rfl
  store _ _ := TestFrame.storageStore_keepsFiles htyped hfiled
  load _ _ := TestFrame.storageLoad_keepsFiles htyped hfiled
  stack _ _ _ := TestFrame.openStack_keepsFiles htyped hfiled
  jump _ _ _ := Harness.jumpThrough_keepsFiles htyped hfiled

end Around
end PlanLowering
