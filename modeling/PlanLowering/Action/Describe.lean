import PlanLowering.Action.Basic
import PlanLowering.Text.Quoted

/-! # Descriptions of actions

The short text by which an error names an action.
-/

namespace PlanLowering

def Immediate.describe : Immediate → String
  | .value v => "0x" ++ Text.hexWord v
  | .symbol s => s

def Access.describe (a : Access) : String :=
  let memory := (a.memory.map Address.id).getD "?"
  s!"{a.offset}('{memory}')"

def Arithmetic.describe (a : Arithmetic) : String :=
  ", ".intercalate <|
    (a.op.map ("op=" ++ ·)).toList ++ (a.src1.map fun s => s!"'{s}'").toList ++
    (a.src2.map fun s => s!"'{s}'").toList ++ (a.imm.map ("0x" ++ Text.hexWord ·)).toList

def CsrWrite.describe (w : CsrWrite) : String :=
  let supply := match w.src, w.value with
    | some src, _ => s!" '{src}'"
    | none, some v => " 0x" ++ Text.hexWord v
    | none, none => ""
  s!"'{w.csr}' {w.how.name}" ++ supply

def PteTarget.describe (t : PteTarget) : String :=
  match t.level with
  | some level => s!"'{t.memory}' level {level}"
  | none => s!"'{t.memory}' leaf"

def PageSpec.describe (spec : PageSpec) : String := "size=0x" ++ Text.hex spec.size.toNat

namespace Op

def title : Op → String
  | .arithmetic _ => "Arithmetic"
  | .li _ => "Li"
  | .liToT2 _ => "LiToT2"
  | .moveToT2 _ => "MoveToT2"
  | .moveFromT2 _ => "MoveFromT2"
  | .label .. => "Label"
  | .load _ => "Load"
  | .store .. => "Store"
  | .memory _ => "Memory"
  | .ret => "Return"
  | .call .. => "Call"
  | .csrRead .. => "CsrRead"
  | .csrWrite _ => "CsrWrite"
  | .compare .equal .. => "AssertEqual"
  | .compare .different .. => "AssertNotEqual"
  | .jumpToFail _ => "JumpToFail"
  | .readPte _ => "ReadPte"
  | .writePte _ => "WritePte"
  | .modifyPte .. => "ModifyPte"
  | .system _ => "System"
  | .comment _ => "Comment"

def describe : Op → String
  | .arithmetic a => a.describe
  | .li v => v.describe
  | .liToT2 v => v.describe
  | .moveToT2 src => s!"'{src}'"
  | .moveFromT2 src => s!"'{src}'"
  | .label name _ => name
  | .load access => access.describe
  | .store access value => access.describe ++ " <- " ++ Text.quotedOption value
  | .memory spec => spec.describe
  | .ret => ""
  | .call target _ => s!"'{target}'"
  | .csrRead csr _ => s!"'{csr}'"
  | .csrWrite w => w.describe
  | .compare .equal lhs rhs _ => s!"{lhs} == {rhs}"
  | .compare .different lhs rhs _ => s!"{lhs} != {rhs}"
  | .jumpToFail _ => ""
  | .readPte target => target.describe
  | .writePte target => target.describe
  | .modifyPte page level _ => s!"memory={page}, level={level}"
  | .system instruction => instruction
  | .comment text => s!"'{text}'"

end Op

namespace Block

def title : Block → String
  | .codePage _ => "CodePage"
  | .assertException .. => "AssertException"

def describe : Block → String
  | .codePage spec => spec.describe
  | .assertException cause _ _ => cause.title

end Block

/-- Title and id, with what there is to say about the action. -/
def describeAs (title : String) (id : Id) (details : String) : String :=
  if details = "" then s!"{title}({id})" else s!"{title}({id}: {details})"

def Action.describe : Action → String
  | .simple id _ op => describeAs op.title id op.describe
  | .block id _ owner code =>
    describeAs owner.title id s!"{owner.describe}, {code.length} actions"

end PlanLowering
