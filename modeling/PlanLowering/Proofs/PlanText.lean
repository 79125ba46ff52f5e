import PlanLowering.Plan.Format
import PlanLowering.Proofs.FlagText
import PlanLowering.Proofs.JsonReading
import PlanLowering.Proofs.Records

/-!
# A scenario is read back from its text

Each part of a scenario has its own writer and reader. They are shown to undo each other part by
part: page flags, page reservations, the payload of each kind of step, inputs, steps with their
nested code, and the scenario as text at last.
-/

namespace PlanLowering

section Pages

namespace PageFlags

theorem names_legible : names.Legible where
  solid := by decide
  part := by decide
  bit := by
    simp only [names, List.forall_mem_cons]
    exact ⟨⟨0, rfl⟩, ⟨1, rfl⟩, ⟨2, rfl⟩, ⟨3, rfl⟩, by simp⟩

/-- Bits without a name come back as well. -/
theorem ofText?_text (flags : PageFlags) : ofText? flags.text = some flags := by
  rw [ofText?, text, Text.FlagNames.read?_write_bits names_legible flags.bits.toNat_lt,
    Option.map_some, UInt8.ofNat_toNat]

end PageFlags

theorem PageSize.lookup_name (size : PageSize) : choices.lookup size.name = some size := by
  cases size <;> decide

theorem PageSpec.ofFields?_toFields {size? : Json → Option PageSize}
    (hsize : ∀ size : PageSize, size? (.str size.name) = some size) (spec : PageSpec) :
    ofFields? size? (spec.toFields.map fun field => some field.2) = some spec := by
  simp [toFields, ofFields?, Json.withDefault_some, hsize, PageFlags.ofText?_text]

theorem PageSpec.plain_toFields (spec : PageSpec) : ∀ field ∈ spec.toFields, field.2.Plain := by
  have hsize : (Json.int spec.size.toNat).Plain := Json.plain_natCast spec.size.toNat_lt
  have hcount : (Json.int spec.pageCount.toNat).Plain :=
    Json.plain_natCast (by have := spec.pageCount.toNat_lt; omega)
  simp [toFields, hsize, hcount, Json.plain_bool, Json.Plain.str]

end Pages

theorem ExceptionCause.lookup_key (cause : ExceptionCause) :
    choices.lookup cause.key = some cause := by
  cases cause <;> decide

theorem StepTag.ofJson?_key (tag : StepTag) : ofJson? (.str tag.key) = some tag := by
  cases tag <;> decide

/-- A text stays the id of a step, also where it looks like a number. -/
theorem StepInput.ofJson?_toJson (input : StepInput) : ofJson? input.toJson = some input := by
  cases input with
  | imm v => simp [toJson, ofJson?]
  | ref id => rfl

theorem StepInput.plain_toJson (input : StepInput) : input.toJson.Plain := by
  cases input with
  | imm v => exact Json.plain_toInt v
  | ref id => exact .str id

namespace StepKind

theorem map_fst_toFields (kind : StepKind) : kind.toFields.map Prod.fst = keys kind.tag := by
  cases kind <;> rfl

theorem nullable_optional {α : Type} {read? : Json → Option α} {toJson : α → Json}
    (hread : ∀ v, read? (toJson v) = some v) (hnull : ∀ v, toJson v ≠ .null) (value : Option α) :
    Json.nullable read? (some (optional toJson value)) = some value := by
  cases value with
  | none => rfl
  | some v => exact Json.nullable_some (hnull v) (hread v)

theorem ofFields?_toFields (kind : StepKind) :
    ofFields? kind.tag (kind.toFields.map fun field => some field.2) = some kind := by
  have hnames : ∀ value : Option String,
      Json.nullable Json.str? (some (optional .str value)) = some value :=
    nullable_optional (fun _ => rfl) (by simp)
  have hsizes : ∀ value : Option UInt8, Json.nullable Json.uint8?
      (some (optional (fun n => .int n.toNat) value)) = some value :=
    nullable_optional Json.uint8?_toNat (by simp)
  have hwords : ∀ value : Option Int64, Json.nullable Json.int64?
      (some (optional (fun v => .int v.toInt) value)) = some value :=
    nullable_optional Json.int64?_toInt (by simp)
  have hspec : ∀ spec : PageSpec,
      pageSpec? (spec.toFields.map fun field => some field.2) = some spec :=
    PageSpec.ofFields?_toFields PageSize.lookup_name
  have hcause : ∀ cause : ExceptionCause,
      Json.looseChoice? ExceptionCause.choices (.str cause.key) = some cause :=
    ExceptionCause.lookup_key
  cases kind with
  | memory spec =>
    rw [tag, ofFields?, toFields, hspec]
    rfl
  | codePage spec =>
    rw [tag, ofFields?, toFields, hspec]
    rfl
  | _ =>
    simp [tag, toFields, accessFields, ofFields?, Json.withDefault_some, Json.required_some,
      hnames, hsizes, hwords, hcause]

theorem plain_optional {α : Type} {toJson : α → Json} (h : ∀ v, (toJson v).Plain)
    (value : Option α) : (optional toJson value).Plain := by
  cases value with
  | none => exact .word trivial
  | some v => exact h v

theorem plain_toFields (kind : StepKind) : ∀ field ∈ kind.toFields, field.2.Plain := by
  have hlevel : ∀ level : UInt8, (Json.int level.toNat).Plain := fun level =>
    Json.plain_natCast (by have := level.toNat_lt; omega)
  have hnames : ∀ value, (optional .str value).Plain := plain_optional .str
  have hsizes : ∀ value : Option UInt8, (optional (fun n => .int n.toNat) value).Plain :=
    plain_optional hlevel
  have hwords : ∀ value : Option Int64, (optional (fun v => .int v.toInt) value).Plain :=
    plain_optional Json.plain_toInt
  cases kind with
  | memory spec => exact spec.plain_toFields
  | codePage spec => exact spec.plain_toFields
  | _ =>
    simp [toFields, accessFields, Json.plain_bool, hlevel, hnames, hsizes, hwords,
      Json.plain_toInt, Json.Plain.str]

theorem ofObject?_of_fields {fields : List (String × Json)} {kind : StepKind}
    (hplain : ∀ field ∈ fields, field.2.Plain) (hkeys : (fields.map Prod.fst).Nodup)
    (hkind : ("kind", .str kind.tag.key) ∈ fields) (hpayload : kind.toFields ⊆ fields) :
    ofObject? fields = some kind := by
  have hreadable : fields.any (fun field => !field.2.isReadable) = false := by
    simpa using fun key value hfield => (hplain (key, value) hfield).isReadable
  have hlookup := Json.mapM_field? hkeys hpayload
  rw [map_fst_toFields] at hlookup
  simp [ofObject?, hreadable, Json.field?_of_mem hkeys hkind,
    Json.required_some (StepTag.ofJson?_key kind.tag), hlookup, ofFields?_toFields]

end StepKind

namespace Step

theorem names_nodup (tag : StepTag) :
    (["id", "kind"] ++ StepKind.keys tag ++ ["inputs", "code"]).Nodup := by
  cases tag <;> decide

theorem codeOf?_append {front : List (String × Json)} (h : ∀ field ∈ front, field.1 ≠ "code")
    (value : Json) : codeOf? (front ++ [("code", value)]) = listOfJson? value := by
  induction front with
  | nil => rw [List.nil_append, codeOf?, if_pos rfl]
  | cons field rest ih =>
    rw [List.cons_append, codeOf?, if_neg (h field List.mem_cons_self),
      ih fun f hf => h f (List.mem_cons_of_mem _ hf)]

section Fields

def fieldsWith (id : Id) (kind : StepKind) (inputs : List StepInput) (code : Json) :
    List (String × Json) :=
  [("id", .str id), ("kind", .str kind.tag.key)] ++ kind.toFields ++
    [("inputs", .arr (inputs.map StepInput.toJson))] ++ [("code", code)]

theorem toJson_eq (id : Id) (kind : StepKind) (inputs : List StepInput) (code : List Step) :
    toJson { id, kind, inputs, code } = .obj (fieldsWith id kind inputs (.arr (toItems code))) := by
  simp [toJson, fieldsWith]

variable (id : Id) (kind : StepKind) (inputs : List StepInput) (code : Json)

theorem fieldsWith_nodup : ((fieldsWith id kind inputs code).map Prod.fst).Nodup := by
  simpa [fieldsWith, StepKind.map_fst_toFields] using names_nodup kind.tag

variable {code} in
theorem plain_fieldsWith (hcode : code.Plain) :
    ∀ field ∈ fieldsWith id kind inputs code, field.2.Plain := by
  have hinputs : ∀ input ∈ inputs.map StepInput.toJson, input.Plain := by
    simpa using fun input _ => StepInput.plain_toJson input
  simp only [fieldsWith, List.forall_mem_append, List.forall_mem_cons]
  exact ⟨⟨⟨⟨.str _, .str _, by simp⟩, kind.plain_toFields⟩, .arr hinputs, by simp⟩, hcode, by simp⟩

theorem codeOf?_fieldsWith : codeOf? (fieldsWith id kind inputs code) = listOfJson? code := by
  have hnodup := fieldsWith_nodup id kind inputs code
  rw [fieldsWith, List.map_append, List.nodup_append] at hnodup
  refine codeOf?_append (fun field hfield => ?_) code
  exact hnodup.2.2 field.1 (List.mem_map_of_mem hfield) "code" (List.mem_singleton_self _)

variable {code} in
/-- All but the nested code is read back from its own field. -/
theorem ofJson?_fieldsWith (hcode : code.Plain) :
    ofJson? (.obj (fieldsWith id kind inputs code)) =
      (listOfJson? code).map fun code => { id, kind, inputs, code } := by
  have hnodup := fieldsWith_nodup id kind inputs code
  have hid : Json.field? (fieldsWith id kind inputs code) "id" = some (some (.str id)) :=
    Json.field?_of_mem hnodup (by simp [fieldsWith])
  have hinputs : Json.field? (fieldsWith id kind inputs code) "inputs" =
      some (some (.arr (inputs.map StepInput.toJson))) :=
    Json.field?_of_mem hnodup (by simp [fieldsWith])
  have hnested : Json.field? (fieldsWith id kind inputs code) "code" = some (some code) :=
    Json.field?_of_mem hnodup (by simp [fieldsWith])
  have hpayload : kind.toFields ⊆ fieldsWith id kind inputs code := fun field hfield => by
    simp [fieldsWith, hfield]
  have hkind : StepKind.ofObject? (fieldsWith id kind inputs code) = some kind :=
    StepKind.ofObject?_of_fields (plain_fieldsWith id kind inputs hcode) hnodup
      (by simp [fieldsWith]) hpayload
  have hlist := Json.list?_map StepInput.ofJson?_toJson inputs
  simp [ofJson?, hid, hinputs, hnested, hkind, Json.required_some (Json.str?_str id),
    Json.withDefault_some _ hlist, codeOf?_fieldsWith, Option.map_eq_bind]

end Fields

mutual

theorem plain_toJson : (step : Step) → step.toJson.Plain
  | { id, kind, inputs, code } => by
    rw [toJson_eq]
    exact .obj (plain_fieldsWith id kind inputs (.arr (plain_toItems code)))

theorem plain_toItems : (steps : List Step) → ∀ item ∈ toItems steps, item.Plain
  | [] => by simp [toItems]
  | step :: rest => by
    rw [toItems, List.forall_mem_cons]
    exact ⟨plain_toJson step, plain_toItems rest⟩

end

mutual

theorem ofJson?_toJson : (step : Step) → ofJson? step.toJson = some step
  | { id, kind, inputs, code } => by
    rw [toJson_eq, ofJson?_fieldsWith id kind inputs (.arr (plain_toItems code)), listOfJson?,
      ofItems?_toItems code, Option.map_some]

theorem ofItems?_toItems : (steps : List Step) → ofItems? (toItems steps) = some steps
  | [] => by rw [toItems, ofItems?]
  | step :: rest => by
    rw [toItems, ofItems?, ofJson?_toJson step, ofItems?_toItems rest]
    rfl

end

end Step

namespace Scenario

theorem plain_toJson (scenario : Scenario) : scenario.toJson.Plain := by
  refine .obj ?_
  simp only [List.forall_mem_cons]
  exact ⟨.str _, .arr (Step.plain_toItems _), by simp⟩

theorem ofJson?_toJson (scenario : Scenario) : ofJson? scenario.toJson = some scenario := by
  have hsteps : Step.listOfJson? (.arr (Step.toItems scenario.steps)) = some scenario.steps :=
    Step.ofItems?_toItems _
  have hfields : scenario.toJson.record? ["name", "steps"] =
      some [some (.str scenario.name), some (.arr (Step.toItems scenario.steps))] := by
    rfl
  rw [ofJson?, hfields]
  simp [Json.required_some (Json.str?_str scenario.name), Json.required_some hsteps]

/-- Reading the text of a scenario gives the scenario back, as long as its code is nested no deeper
than the reader goes. -/
theorem read?_write (scenario : Scenario) (hdepth : scenario.toJson.nesting ≤ Json.maxNesting) :
    read? scenario.write = some scenario := by
  rw [read?, write, Json.parse?_render scenario.plain_toJson hdepth, Option.bind_some,
    ofJson?_toJson]

/-- Nested code, flags without a name, the ends of the integer types, an id that looks like a
number and text that has to be escaped. -/
def annotated : Scenario where
  name := "say \"on\"\n\x01 ≤ ∞"
  steps :=
    [{ id := "page"
       kind := .memory
         { size := 0xFFFF_FFFF_FFFF_FFFF, pageSize := .gib512, flags := ⟨0xF5⟩,
           crossing := true } },
     { id := "7", kind := .csrWrite "mstatus" (some (-1)) none (some 0x10) true },
     { id := "trap", kind := .assertException .storePageFault
       code :=
         [{ id := "put", kind := .store (-8) (some 4) none
            inputs := [.ref "page", .ref "7", .imm (-0x8000_0000_0000_0000)] },
          { id := "body", kind := .codePage {}
            code := [{ id := "note", kind := .comment "back\\slash" }] }] }]

theorem read?_write_annotated : annotated.toJson.nesting ≤ Json.maxNesting ∧
    read? annotated.write = some annotated :=
  ⟨by decide, read?_write annotated (by decide)⟩

end Scenario
end PlanLowering
