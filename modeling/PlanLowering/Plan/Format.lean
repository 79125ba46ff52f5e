import PlanLowering.Json.Reader
import PlanLowering.Json.Record
import PlanLowering.Plan.Step

/-! # Plans as JSON

A step is one object: its id, the name of its kind, the payload of that kind, its inputs and its
nested steps. Writing gives every field; reading accepts the defaults. A step may hold further
fields, which have to be readable.
-/

namespace PlanLowering

namespace StepInput

def ofJson? : Json → Option StepInput
  | .str id => some (.ref id)
  | json => json.int64?.map .imm

def toJson : StepInput → Json
  | .imm v => .int v.toInt
  | .ref id => .str id

end StepInput

namespace StepTag

/-- A kind is given by its name or by its position among the kinds. -/
def ofJson? : Json → Option StepTag
  | .str s => all.find? (·.key = s)
  | .int n => if 0 ≤ n then all[n.toNat]? else none
  | _ => none

end StepTag

namespace StepKind

def keys : StepTag → List String
  | .arithmetic => ["op"]
  | .load => ["offset", "access_size", "op"]
  | .store => ["offset", "access_size", "op"]
  | .memory => PageSpec.keys
  | .codePage => PageSpec.keys
  | .csrRead => ["csr_name", "direct_read"]
  | .csrWrite => ["csr_name", "value", "set_mask", "clear_mask", "direct_write"]
  | .assertException => ["cause"]
  | .readPte => ["level"]
  | .writePte => ["level"]
  | .modifyPte => ["level", "make_recursive"]
  | .system => ["instruction"]
  | .comment => ["text"]
  | _ => []

def pageSpec? : List (Option Json) → Option PageSpec :=
  PageSpec.ofFields? (Json.looseChoice? PageSize.choices)

def ofFields? : StepTag → List (Option Json) → Option StepKind
  | .arithmetic, [op] => do
    return .arithmetic (← Json.nullable Json.str? op)
  | .load, [offset, size, op] => do
    return .load (← Json.withDefault 0 Json.int64? offset) (← Json.nullable Json.uint8? size)
      (← Json.nullable Json.str? op)
  | .store, [offset, size, op] => do
    return .store (← Json.withDefault 0 Json.int64? offset) (← Json.nullable Json.uint8? size)
      (← Json.nullable Json.str? op)
  | .memory, fields => (pageSpec? fields).map .memory
  | .codePage, fields => (pageSpec? fields).map .codePage
  | .call, [] => some .call
  | .csrRead, [csr, direct] => do
    return .csrRead (← Json.required Json.str? csr) (← Json.withDefault false Json.bool? direct)
  | .csrWrite, [csr, value, setMask, clearMask, direct] => do
    return .csrWrite (← Json.required Json.str? csr) (← Json.nullable Json.int64? value)
      (← Json.nullable Json.int64? setMask) (← Json.nullable Json.int64? clearMask)
      (← Json.withDefault false Json.bool? direct)
  | .assertEqual, [] => some .assertEqual
  | .assertNotEqual, [] => some .assertNotEqual
  | .assertException, [cause] => do
    return .assertException (← Json.required (Json.looseChoice? ExceptionCause.choices) cause)
  | .readPte, [level] => do
    return .readPte (← Json.required Json.uint8? level)
  | .writePte, [level] => do
    return .writePte (← Json.required Json.uint8? level)
  | .readLeafPte, [] => some .readLeafPte
  | .writeLeafPte, [] => some .writeLeafPte
  | .modifyPte, [level, recursive] => do
    return .modifyPte (← Json.required Json.uint8? level)
      (← Json.withDefault false Json.bool? recursive)
  | .system, [instruction] => do
    return .system (← Json.required Json.str? instruction)
  | .comment, [text] => do
    return .comment (← Json.required Json.str? text)
  | _, _ => none

def ofObject? (fields : List (String × Json)) : Option StepKind := do
  if fields.any (fun field => !field.2.isReadable) then none
  let tag ← Json.required StepTag.ofJson? (← Json.field? fields "kind")
  ofFields? tag (← (keys tag).mapM (Json.field? fields))

def optional {α : Type} (toJson : α → Json) : Option α → Json
  | none => .null
  | some value => toJson value

def accessFields (offset : Int64) (size : Option UInt8) (op : Option String) :
    List (String × Json) :=
  [("offset", .int offset.toInt), ("access_size", optional (fun n => .int n.toNat) size),
    ("op", optional .str op)]

def toFields : StepKind → List (String × Json)
  | .arithmetic op => [("op", optional .str op)]
  | .load offset size op => accessFields offset size op
  | .store offset size op => accessFields offset size op
  | .memory spec => spec.toFields
  | .codePage spec => spec.toFields
  | .csrRead csr direct => [("csr_name", .str csr), ("direct_read", .bool direct)]
  | .csrWrite csr value setMask clearMask direct =>
    [("csr_name", .str csr), ("value", optional (fun v => .int v.toInt) value),
      ("set_mask", optional (fun v => .int v.toInt) setMask),
      ("clear_mask", optional (fun v => .int v.toInt) clearMask), ("direct_write", .bool direct)]
  | .assertException cause => [("cause", .str cause.key)]
  | .readPte level => [("level", .int level.toNat)]
  | .writePte level => [("level", .int level.toNat)]
  | .modifyPte level recursive => [("level", .int level.toNat), ("make_recursive", .bool recursive)]
  | .system instruction => [("instruction", .str instruction)]
  | .comment text => [("text", .str text)]
  | _ => []

end StepKind

namespace Step

mutual

def ofJson? : Json → Option Step
  | .obj fields => do
    let id ← Json.required Json.str? (← Json.field? fields "id")
    let inputs ← Json.field? fields "inputs"
    let inputs ← Json.withDefault [] (Json.list? StepInput.ofJson?) inputs
    let kind ← StepKind.ofObject? fields
    let _ ← Json.field? fields "code"
    let code ← codeOf? fields
    return { id, kind, inputs, code }
  | _ => none

def codeOf? : List (String × Json) → Option (List Step)
  | [] => some []
  | (key, value) :: rest => if key = "code" then listOfJson? value else codeOf? rest

def listOfJson? : Json → Option (List Step)
  | .arr items => ofItems? items
  | _ => none

def ofItems? : List Json → Option (List Step)
  | [] => some []
  | item :: rest => do
    let step ← ofJson? item
    let more ← ofItems? rest
    return step :: more

end

mutual

def toJson : Step → Json
  | { id, kind, inputs, code } =>
    .obj ([("id", .str id), ("kind", .str kind.tag.key)] ++ kind.toFields ++
      [("inputs", .arr (inputs.map StepInput.toJson)), ("code", .arr (toItems code))])

def toItems : List Step → List Json
  | [] => []
  | step :: rest => step.toJson :: toItems rest

end

end Step

namespace Scenario

def ofJson? (json : Json) : Option Scenario := do
  match ← json.record? ["name", "steps"] with
  | [name, steps] =>
    return { name := ← Json.required Json.str? name
             steps := ← Json.required Step.listOfJson? steps }
  | _ => none

def toJson (scenario : Scenario) : Json :=
  .obj [("name", .str scenario.name), ("steps", .arr (Step.toItems scenario.steps))]

/-- Reads a scenario from its text. -/
def read? (text : String) : Option Scenario := (Json.parse? text).bind ofJson?

def write (scenario : Scenario) : String := scenario.toJson.render

end Scenario
end PlanLowering
