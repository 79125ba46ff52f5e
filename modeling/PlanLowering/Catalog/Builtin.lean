import PlanLowering.Catalog.Basic

/-! # The built-in catalog

A subset of RV32 and RV64 with multiplication, floats, control registers and bit manipulation.
-/

namespace PlanLowering.Catalog

/-- A template for both register widths. -/
def both (category : Category) (extension : Extensions) (name operands : String) : TemplateSpec :=
  { name, operands, category, extension }

/-- A template for the wide registers only. -/
def wide (category : Category) (extension : Extensions) (name operands : String) : TemplateSpec :=
  { name, operands, category, extension, rv64Only := true }

def integerOps : List TemplateSpec :=
  [both .arithmetic .base "add" "rd, rs1, rs2",
    both .arithmetic .base "sub" "rd, rs1, rs2",
    both .arithmetic .base "and" "rd, rs1, rs2",
    both .arithmetic .base "or" "rd, rs1, rs2",
    both .arithmetic .base "xor" "rd, rs1, rs2",
    both .arithmetic .base "sll" "rd, rs1, rs2",
    both .arithmetic .base "srl" "rd, rs1, rs2",
    both .arithmetic .base "sra" "rd, rs1, rs2",
    both .arithmetic .base "slt" "rd, rs1, rs2",
    both .arithmetic .base "sltu" "rd, rs1, rs2",
    both .arithmetic .base "addi" "rd, rs1, imm",
    both .arithmetic .base "andi" "rd, rs1, imm",
    both .arithmetic .base "ori" "rd, rs1, imm",
    both .arithmetic .base "xori" "rd, rs1, imm",
    both .arithmetic .base "slti" "rd, rs1, imm",
    both .arithmetic .base "sltiu" "rd, rs1, imm",
    both .arithmetic .base "slli" "rd, rs1, shamt",
    both .arithmetic .base "srli" "rd, rs1, shamt",
    both .arithmetic .base "srai" "rd, rs1, shamt",
    both .arithmetic .base "lui" "rd, imm",
    wide .arithmetic .base "addw" "rd, rs1, rs2",
    wide .arithmetic .base "subw" "rd, rs1, rs2",
    wide .arithmetic .base "sllw" "rd, rs1, rs2",
    wide .arithmetic .base "srlw" "rd, rs1, rs2",
    wide .arithmetic .base "sraw" "rd, rs1, rs2",
    wide .arithmetic .base "addiw" "rd, rs1, imm",
    wide .arithmetic .base "slliw" "rd, rs1, shamt",
    wide .arithmetic .base "srliw" "rd, rs1, shamt",
    wide .arithmetic .base "sraiw" "rd, rs1, shamt",
    both .arithmetic .multiply "mul" "rd, rs1, rs2",
    both .arithmetic .multiply "mulh" "rd, rs1, rs2",
    both .arithmetic .multiply "mulhu" "rd, rs1, rs2",
    both .arithmetic .multiply "div" "rd, rs1, rs2",
    both .arithmetic .multiply "divu" "rd, rs1, rs2",
    both .arithmetic .multiply "rem" "rd, rs1, rs2",
    both .arithmetic .multiply "remu" "rd, rs1, rs2",
    wide .arithmetic .multiply "mulw" "rd, rs1, rs2",
    wide .arithmetic .multiply "divw" "rd, rs1, rs2",
    wide .arithmetic .multiply "remw" "rd, rs1, rs2",
    both .arithmetic .zbb "andn" "rd, rs1, rs2",
    both .arithmetic .zbb "orn" "rd, rs1, rs2",
    both .arithmetic .zbb "xnor" "rd, rs1, rs2",
    both .arithmetic .zbb "rol" "rd, rs1, rs2",
    both .arithmetic .zbb "ror" "rd, rs1, rs2",
    both .arithmetic .zbb "rori" "rd, rs1, shamt",
    wide .arithmetic .zbb "roriw" "rd, rs1, shamt"]

def floatOps : List TemplateSpec :=
  [both .arithmetic .single "fadd.s" "fd, fs1, fs2",
    both .arithmetic .single "fsub.s" "fd, fs1, fs2",
    both .arithmetic .single "fmul.s" "fd, fs1, fs2",
    both .arithmetic .single "fmin.s" "fd, fs1, fs2",
    both .arithmetic .single "fmax.s" "fd, fs1, fs2",
    both .arithmetic .single "fmadd.s" "fd, fs1, fs2, fs3",
    both .arithmetic .double "fadd.d" "fd, fs1, fs2",
    both .arithmetic .double "fsub.d" "fd, fs1, fs2",
    both .arithmetic .double "fmul.d" "fd, fs1, fs2",
    both .arithmetic .double "fmadd.d" "fd, fs1, fs2, fs3"]

def fileMoves : List TemplateSpec :=
  [both .cast .single "fmv.w.x" "fd, rs1",
    both .cast .single "fmv.x.w" "rd, fs1",
    wide .cast .double "fmv.d.x" "fd, rs1",
    wide .cast .double "fmv.x.d" "rd, fs1"]

def memoryOps : List TemplateSpec :=
  [both .load .base "lb" "rd, rs1, imm",
    both .load .base "lh" "rd, rs1, imm",
    both .load .base "lw" "rd, rs1, imm",
    both .load .base "lbu" "rd, rs1, imm",
    both .load .base "lhu" "rd, rs1, imm",
    wide .load .base "lwu" "rd, rs1, imm",
    wide .load .base "ld" "rd, rs1, imm",
    both .load .single "flw" "fd, rs1, imm",
    both .load .double "fld" "fd, rs1, imm",
    both .store .base "sb" "rs2, rs1, imm",
    both .store .base "sh" "rs2, rs1, imm",
    both .store .base "sw" "rs2, rs1, imm",
    wide .store .base "sd" "rs2, rs1, imm",
    both .store .single "fsw" "fs2, rs1, imm",
    both .store .double "fsd" "fs2, rs1, imm",
    both .store .atomic "sc.w" "rd, rs2, rs1",
    wide .store .atomic "sc.d" "rd, rs2, rs1"]

def controlFlow : List TemplateSpec :=
  [both .branch .base "beq" "rs1, rs2, offset",
    both .branch .base "bne" "rs1, rs2, offset",
    both .branch .base "blt" "rs1, rs2, offset",
    both .branch .base "bge" "rs1, rs2, offset",
    both .branch .base "bltu" "rs1, rs2, offset",
    both .branch .base "bgeu" "rs1, rs2, offset",
    both .jump .base "jal" "rd, offset",
    both .jump .base "jalr" "rd, rs1, imm",
    both .jump .base "jr" "rs1",
    both .jump .base "ret" ""]

def csrOps : List TemplateSpec :=
  [both .csr .zicsr "csrrw" "rd, csr, rs1",
    both .csr .zicsr "csrrs" "rd, csr, rs1",
    both .csr .zicsr "csrrc" "rd, csr, rs1",
    both .csr .zicsr "csrrwi" "rd, csr, zimm",
    both .csr .zicsr "csrrsi" "rd, csr, zimm",
    both .csr .zicsr "csrrci" "rd, csr, zimm",
    both .csr .zicsr "csrr" "rd, csr",
    both .csr .zicsr "csrw" "csr, rs1"]

def pseudoOps : List TemplateSpec :=
  [both .pseudo .base "li" "rd, imm",
    both .pseudo .base "mv" "rd, rs1",
    both .pseudo .base "nop" ""]

def systemOps : List TemplateSpec :=
  [both .system .base "ecall" "",
    both .system .base "ebreak" "",
    both .system .base "fence" "",
    both .system .zifencei "fence.i" "",
    both .system .base "wfi" "",
    both .system .base "mret" "",
    both .system .base "sret" "",
    both .system .base "sfence.vma" "rs1, rs2"]

def builtinSpecs : List TemplateSpec :=
  integerOps ++ floatOps ++ fileMoves ++ memoryOps ++ controlFlow ++
    csrOps ++ pseudoOps ++ systemOps

def builtin (xlen : Xlen) : Except CatalogFlaw Catalog := ofSpecs builtinSpecs xlen

end PlanLowering.Catalog
