import PlanLowering.Catalog.Builtin
import PlanLowering.Proofs.Catalog

/-!
# The built-in catalog for 64-bit registers

Its templates, grouped by their shape. Facts about the built-in catalogs and runs on concrete plans
are evaluated with this list, since reading the declarations takes longer than such a run.
-/

namespace PlanLowering.Catalog

def alike (category : Category) (extension : Extensions) (destination : Option RegisterFile)
    (sources : List (Slot × OperandType)) (nodup : (sources.map Prod.fst).Nodup)
    (names : List String) : List Template :=
  names.map fun name => { name, category, extension, destination, sources, nodup }

def integer (slot : Slot) : Slot × OperandType := (slot, .register .gpr)

def float (slot : Slot) : Slot × OperandType := (slot, .register .fpr)

def rv64Templates : List Template :=
  alike .arithmetic .base (some .gpr) [integer .rs1, integer .rs2] (by decide)
    ["add", "sub", "and", "or", "xor", "sll", "srl", "sra", "slt", "sltu"] ++
  alike .arithmetic .base (some .gpr) [integer .rs1, (.imm, .imm)] (by decide)
    ["addi", "andi", "ori", "xori", "slti", "sltiu", "slli", "srli", "srai"] ++
  alike .arithmetic .base (some .gpr) [(.imm, .imm)] (by decide) ["lui"] ++
  alike .arithmetic .base (some .gpr) [integer .rs1, integer .rs2] (by decide)
    ["addw", "subw", "sllw", "srlw", "sraw"] ++
  alike .arithmetic .base (some .gpr) [integer .rs1, (.imm, .imm)] (by decide)
    ["addiw", "slliw", "srliw", "sraiw"] ++
  alike .arithmetic .multiply (some .gpr) [integer .rs1, integer .rs2] (by decide)
    ["mul", "mulh", "mulhu", "div", "divu", "rem", "remu", "mulw", "divw", "remw"] ++
  alike .arithmetic .zbb (some .gpr) [integer .rs1, integer .rs2] (by decide)
    ["andn", "orn", "xnor", "rol", "ror"] ++
  alike .arithmetic .zbb (some .gpr) [integer .rs1, (.imm, .imm)] (by decide)
    ["rori", "roriw"] ++
  alike .arithmetic .single (some .fpr) [float .rs1, float .rs2] (by decide)
    ["fadd.s", "fsub.s", "fmul.s", "fmin.s", "fmax.s"] ++
  alike .arithmetic .single (some .fpr) [float .rs1, float .rs2, float .rs3] (by decide)
    ["fmadd.s"] ++
  alike .arithmetic .double (some .fpr) [float .rs1, float .rs2] (by decide)
    ["fadd.d", "fsub.d", "fmul.d"] ++
  alike .arithmetic .double (some .fpr) [float .rs1, float .rs2, float .rs3] (by decide)
    ["fmadd.d"] ++
  alike .cast .single (some .fpr) [integer .rs1] (by decide) ["fmv.w.x"] ++
  alike .cast .single (some .gpr) [float .rs1] (by decide) ["fmv.x.w"] ++
  alike .cast .double (some .fpr) [integer .rs1] (by decide) ["fmv.d.x"] ++
  alike .cast .double (some .gpr) [float .rs1] (by decide) ["fmv.x.d"] ++
  alike .load .base (some .gpr) [integer .rs1, (.imm, .imm)] (by decide)
    ["lb", "lh", "lw", "lbu", "lhu", "lwu", "ld"] ++
  alike .load .single (some .fpr) [integer .rs1, (.imm, .imm)] (by decide) ["flw"] ++
  alike .load .double (some .fpr) [integer .rs1, (.imm, .imm)] (by decide) ["fld"] ++
  alike .store .base none [integer .rs2, integer .rs1, (.imm, .imm)] (by decide)
    ["sb", "sh", "sw", "sd"] ++
  alike .store .single none [float .rs2, integer .rs1, (.imm, .imm)] (by decide) ["fsw"] ++
  alike .store .double none [float .rs2, integer .rs1, (.imm, .imm)] (by decide) ["fsd"] ++
  alike .store .atomic (some .gpr) [integer .rs2, integer .rs1] (by decide) ["sc.w", "sc.d"] ++
  alike .branch .base none [integer .rs1, integer .rs2, (.offset, .symbol)] (by decide)
    ["beq", "bne", "blt", "bge", "bltu", "bgeu"] ++
  alike .jump .base (some .gpr) [(.offset, .symbol)] (by decide) ["jal"] ++
  alike .jump .base (some .gpr) [integer .rs1, (.imm, .imm)] (by decide) ["jalr"] ++
  alike .jump .base none [integer .rs1] (by decide) ["jr"] ++
  alike .jump .base none [] (by decide) ["ret"] ++
  alike .csr .zicsr (some .gpr) [(.csr, .csr), integer .rs1] (by decide)
    ["csrrw", "csrrs", "csrrc"] ++
  alike .csr .zicsr (some .gpr) [(.csr, .csr), (.imm, .imm)] (by decide)
    ["csrrwi", "csrrsi", "csrrci"] ++
  alike .csr .zicsr (some .gpr) [(.csr, .csr)] (by decide) ["csrr"] ++
  alike .csr .zicsr none [(.csr, .csr), integer .rs1] (by decide) ["csrw"] ++
  alike .pseudo .base (some .gpr) [(.imm, .imm)] (by decide) ["li"] ++
  alike .pseudo .base (some .gpr) [integer .rs1] (by decide) ["mv"] ++
  alike .pseudo .base none [] (by decide) ["nop"] ++
  alike .system .base none [] (by decide) ["ecall", "ebreak", "fence"] ++
  alike .system .zifencei none [] (by decide) ["fence.i"] ++
  alike .system .base none [] (by decide) ["wfi", "mret", "sret"] ++
  alike .system .base none [integer .rs1, integer .rs2] (by decide) ["sfence.vma"]

theorem builtinSpecs_read :
    builtinSpecs.map (fun spec => (Template.ofSpec spec).toOption) = rv64Templates.map some := by
  decide +kernel

theorem rv64Templates_nodup : (rv64Templates.map Template.name).Nodup := by
  decide +kernel

theorem forall₂_builtinSpecs :
    List.Forall₂ (fun spec t => Template.ofSpec spec = .ok t) builtinSpecs rv64Templates := by
  have hread := builtinSpecs_read
  rw [← List.forall₂_eq_eq_eq, List.forall₂_map_left_iff, List.forall₂_map_right_iff] at hread
  exact hread.imp fun _ _ h => except_toOption_eq_some.1 h

theorem mem_rv64Templates {xlen : Xlen} {catalog : Catalog} (h : builtin xlen = .ok catalog) :
    ∀ t ∈ catalog.templates, t ∈ rv64Templates := by
  refine ofSpecs_forall h fun spec hspec t ht => ?_
  obtain ⟨u, hu, hread⟩ := exists_of_forall₂ forall₂_builtinSpecs.flip hspec
  rw [hread, Except.ok.injEq] at ht
  exact ht ▸ hu

/-- The built-in catalog, spelled out. It is never unfolded outside of evaluation. -/
@[irreducible]
def rv64 : Catalog := .ofTemplates rv64Templates rv64Templates_nodup

theorem builtin_rv64 : builtin .rv64 = .ok rv64 := by
  have hkept : builtinSpecs.filter (kept .rv64) = builtinSpecs :=
    List.filter_eq_self.2 fun spec _ => by simp [kept]
  rw [builtin, ofSpecs_reads, hkept, rv64]
  exact forall₂_builtinSpecs

end PlanLowering.Catalog
