import Mathlib.Data.List.Forall2
import Mathlib.Data.List.Induction
import Mathlib.Data.List.Nodup
import PlanLowering.Catalog.Template
import PlanLowering.Proofs.FlagText
import PlanLowering.Proofs.Outcome

/-!
# Operand lists and their templates

What the operand list of a declaration stands for, said without the reader: the parts between its
commas, each without the blank characters around it, name the fields of the template. A list can be
read exactly if its fields fit into one instruction, and the template has these fields in order.
-/

namespace PlanLowering

namespace Text

variable {separator : Char} {text core : List Char} {parts : List (List Char)}

/-- With one separator between each two of them, the parts make up the text. -/
structure Separated (separator : Char) (text : List Char) (parts : List (List Char)) : Prop where
  nonempty : parts ≠ []
  clean : ∀ p ∈ parts, separator ∉ p
  joined : [separator].intercalate parts = text

theorem separated_pieces (separator : Char) (text : List Char) :
    Separated separator text (pieces separator text) := by
  induction text with
  | nil => exact ⟨by simp [pieces], by simp [pieces], rfl⟩
  | cons c text ih =>
    obtain ⟨hne, hclean, hjoined⟩ := ih
    obtain ⟨piece, more, hpieces⟩ := List.exists_cons_of_ne_nil hne
    rw [hpieces] at hclean hjoined
    obtain ⟨hpiece, hmore⟩ := List.forall_mem_cons.1 hclean
    rw [pieces, hpieces]
    split
    next hc =>
      refine ⟨List.cons_ne_nil _ _, List.forall_mem_cons.2 ⟨by simp, hclean⟩, ?_⟩
      rw [List.intercalate_cons_cons, hjoined, hc]
      rfl
    next hc =>
      refine ⟨List.cons_ne_nil _ _, List.forall_mem_cons.2 ⟨?_, hmore⟩, ?_⟩
      · simpa using ⟨Ne.symm hc, hpiece⟩
      · rw [← hjoined]
        cases more <;> simp [List.intercalate_cons_cons]

theorem Separated.eq_pieces (h : Separated separator text parts) :
    parts = pieces separator text := by
  obtain ⟨hne, hclean, rfl⟩ := h
  induction parts with
  | nil => exact absurd rfl hne
  | cons p rest ih =>
    obtain ⟨hp, hrest⟩ := List.forall_mem_cons.1 hclean
    cases rest with
    | nil => simp [pieces_of_not_mem hp]
    | cons q rest =>
      rw [List.intercalate_cons_cons, List.append_assoc, List.singleton_append, pieces_append hp,
        ← ih (List.cons_ne_nil _ _) hrest]

/-- The core is what stands between the blank characters at both ends of the text. -/
structure Trimmed (text core : List Char) : Prop where
  around : ∃ front back, (∀ c ∈ front ++ back, isBlank c) ∧ text = front ++ core ++ back
  first : ∀ c ∈ core.head?, ¬ isBlank c
  last : ∀ c ∈ core.getLast?, ¬ isBlank c

theorem not_blank_head (text : List Char) :
    ∀ c ∈ (text.dropWhile isBlank).head?, ¬ isBlank c := by
  intro c hc
  have hfirst := List.head?_dropWhile_not isBlank text
  rw [Option.mem_def.1 hc] at hfirst
  simpa using hfirst

theorem trimmed_trim (text : List Char) : Trimmed text (trim text) := by
  have hback := not_blank_head (text.dropWhile isBlank).reverse
  have hsplit : text.dropWhile isBlank =
      trim text ++ ((text.dropWhile isBlank).reverse.takeWhile isBlank).reverse := by
    rw [trim, ← List.reverse_append, List.takeWhile_append_dropWhile, List.reverse_reverse]
  refine ⟨⟨text.takeWhile isBlank, ((text.dropWhile isBlank).reverse.takeWhile isBlank).reverse,
    ?_, ?_⟩, ?_, ?_⟩
  · intro c hc
    rcases List.mem_append.1 hc with hc | hc
    · exact List.mem_takeWhile_imp hc
    · exact List.mem_takeWhile_imp (List.mem_reverse.1 hc)
  · rw [List.append_assoc, ← hsplit, List.takeWhile_append_dropWhile]
  · intro c hc
    refine not_blank_head text c ?_
    rw [hsplit, List.head?_append, Option.mem_def.1 hc]
    rfl
  · intro c hc
    rw [trim, List.getLast?_reverse] at hc
    exact hback c hc

theorem trim_of_ends (hfirst : ∀ c ∈ core.head?, ¬ isBlank c)
    (hlast : ∀ c ∈ core.getLast?, ¬ isBlank c) : trim core = core := by
  have hkeep : ∀ {cs : List Char}, (∀ c ∈ cs.head?, ¬ isBlank c) → cs.dropWhile isBlank = cs := by
    intro cs hcs
    cases cs with
    | nil => rfl
    | cons c cs => simp [hcs c rfl]
  rw [trim, hkeep hfirst, hkeep (by simpa using hlast), List.reverse_reverse]

theorem Trimmed.eq_trim (h : Trimmed text core) : core = trim text := by
  obtain ⟨⟨front, back, hblank, rfl⟩, hfirst, hlast⟩ := h
  obtain ⟨hfront, hback⟩ := List.forall_mem_append.1 hblank
  have hdrop : ∀ cs, trim (front ++ cs) = trim cs := by
    intro cs
    clear hblank
    induction front with
    | nil => rfl
    | cons c front ih =>
      obtain ⟨hc, hfront⟩ := List.forall_mem_cons.1 hfront
      rw [List.cons_append, trim_cons_blank hc, ih hfront]
  have hcut : ∀ cs, trim (cs ++ back) = trim cs := by
    intro cs
    clear hblank
    induction back using List.reverseRecOn with
    | nil => rw [List.append_nil]
    | append_singleton back c ih =>
      rw [List.forall_mem_append, List.forall_mem_singleton] at hback
      rw [← List.append_assoc, trim_append_blank hback.2, ih hback.1]
  rw [List.append_assoc, hdrop, hcut, trim_of_ends hfirst hlast]

end Text

namespace TemplateField

variable {fields more : List TemplateField} {name : String} {field : TemplateField}

@[simp]
def target? : TemplateField → Option RegisterFile
  | .target file => some file
  | .source .. => none

@[simp]
def source? : TemplateField → Option (Slot × OperandType)
  | .target _ => none
  | .source slot type => some (slot, type)

def targets (fields : List TemplateField) : List RegisterFile := fields.filterMap target?

def sources (fields : List TemplateField) : List (Slot × OperandType) := fields.filterMap source?

@[simp] theorem targets_append : targets (fields ++ more) = targets fields ++ targets more :=
  List.filterMap_append

@[simp] theorem sources_append : sources (fields ++ more) = sources fields ++ sources more :=
  List.filterMap_append

@[simp] theorem targets_singleton : targets [field] = field.target?.toList := by
  cases field <;> rfl

@[simp] theorem sources_singleton : sources [field] = field.source?.toList := by
  cases field <;> rfl

/-- The fields fit into one instruction. -/
structure Compatible (fields : List TemplateField) : Prop where
  target : (targets fields).length ≤ 1
  slots : ((sources fields).map Prod.fst).Nodup

theorem ofName?_eq_some : ofName? name = some field ↔ (name, field) ∈ table := by
  constructor
  · intro h
    obtain ⟨before, after, hentry, _⟩ := List.lookup_eq_some_iff.1 h
    simp [hentry]
  · have hfound : ∀ entry ∈ table, ofName? entry.1 = some entry.2 := by decide
    exact hfound (name, field)

end TemplateField

open TemplateField (targets sources Compatible)

variable {spec : TemplateSpec} {fields : List TemplateField} {t t' : Template}

namespace TemplateSpec

/-- The operand list names the fields in order. Parts without a name count for nothing. -/
def Declares (spec : TemplateSpec) (fields : List TemplateField) : Prop :=
  ∃ parts cores, Text.Separated ',' spec.operands.toList parts ∧
    List.Forall₂ Text.Trimmed parts cores ∧
    List.Forall₂ (fun core field => (String.ofList core, field) ∈ TemplateField.table)
      (cores.filter (· ≠ [])) fields

def layout (spec : TemplateSpec) (fields : List TemplateField) : Instruction where
  name := spec.name
  category := spec.category
  extension := spec.extension
  destination := (targets fields).head?.map fun file =>
    { slot := .rd, type := .register file, value := .unset }
  sources := (sources fields).map fun source =>
    { slot := source.1, type := source.2, value := .unset }

/-- The operand list is one of the grammar. -/
def Grammatical (spec : TemplateSpec) : Prop := ∃ fields, spec.Declares fields ∧ Compatible fields

/-- The declaration stands for this open instruction. -/
def Lays (spec : TemplateSpec) (i : Instruction) : Prop :=
  ∃ fields, spec.Declares fields ∧ i = spec.layout fields

theorem declares_iff : spec.Declares fields ↔
    spec.fieldNames.map TemplateField.ofName? = fields.map some := by
  have hnames : spec.fieldNames =
      (((Text.pieces ',' spec.operands.toList).map Text.trim).filter (· ≠ [])).map
        String.ofList := rfl
  rw [hnames, ← List.forall₂_eq_eq_eq, List.forall₂_map_left_iff, List.forall₂_map_left_iff,
    List.forall₂_map_right_iff]
  simp only [TemplateField.ofName?_eq_some]
  constructor
  · rintro ⟨parts, cores, hparts, hcores, hfields⟩
    have hcores : parts.map Text.trim = cores := by
      rw [← List.forall₂_eq_eq_eq, List.forall₂_map_left_iff]
      exact hcores.imp fun _ _ h => h.eq_trim.symm
    rwa [← hparts.eq_pieces, hcores]
  · intro hfields
    refine ⟨_, _, Text.separated_pieces _ _, ?_, hfields⟩
    rw [List.forall₂_map_right_iff, List.forall₂_same]
    exact fun part _ => Text.trimmed_trim part

theorem Declares.unique (h : spec.Declares fields) (h' : spec.Declares more) : fields = more := by
  rw [declares_iff] at h h'
  exact List.map_injective_iff.2 (Option.some_injective _) (h.symm.trans h')

theorem Lays.unique {i i' : Instruction} (h : spec.Lays i) (h' : spec.Lays i') : i = i' := by
  obtain ⟨fields, hfields, rfl⟩ := h
  obtain ⟨more, hmore, rfl⟩ := h'
  rw [hfields.unique hmore]

end TemplateSpec

namespace Template

theorem toList_head? {α : Type} {list : List α} (h : list.length ≤ 1) :
    list.head?.toList = list := by
  match list with
  | [] | [_] => rfl
  | _ :: _ :: _ => simp at h

/-- The second template has the fields on top of what the first one has. -/
structure Extends (t : Template) (fields : List TemplateField) (t' : Template) : Prop where
  name : t'.name = t.name
  category : t'.category = t.category
  extension : t'.extension = t.extension
  destination : t'.destination.toList = t.destination.toList ++ targets fields
  sources : t'.sources = t.sources ++ TemplateField.sources fields

theorem Extends.refl (t : Template) : t.Extends [] t :=
  ⟨rfl, rfl, rfl, by simp [targets], by simp [TemplateField.sources]⟩

theorem Extends.trans {t'' : Template} (h : t.Extends fields t') (h' : t'.Extends more t'') :
    t.Extends (fields ++ more) t'' where
  name := h'.name.trans h.name
  category := h'.category.trans h.category
  extension := h'.extension.trans h.extension
  destination := by
    rw [h'.destination, h.destination, TemplateField.targets_append, List.append_assoc]
  sources := by rw [h'.sources, h.sources, TemplateField.sources_append, List.append_assoc]

theorem Extends.unique {t'' : Template} (h : t.Extends fields t') (h' : t.Extends fields t'') :
    t' = t'' := by
  have hdestination : t'.destination = t''.destination :=
    Option.ext fun file => by
      rw [← Option.mem_toList, ← Option.mem_toList, h.destination, h'.destination]
  have hsources := h.sources.trans h'.sources.symm
  have hname := h.name.trans h'.name.symm
  have hcategory := h.category.trans h'.category.symm
  have hextension := h.extension.trans h'.extension.symm
  cases t'
  cases t''
  simp_all

/-- A template that has the fields of two lists was made through one that has those of the first. -/
theorem Extends.split (h : t.Extends (fields ++ more) t') :
    ∃ mid, t.Extends fields mid ∧ mid.Extends more t' := by
  have hdestination := h.destination
  have hsources := h.sources
  rw [TemplateField.targets_append, ← List.append_assoc] at hdestination
  rw [TemplateField.sources_append, ← List.append_assoc] at hsources
  have hlength : (t.destination.toList ++ targets fields).length ≤ 1 := by
    have hle := Option.length_toList_le (o := t'.destination)
    rw [hdestination, List.length_append] at hle
    omega
  have hnodup : ((t.sources ++ TemplateField.sources fields).map Prod.fst).Nodup := by
    have hall := t'.nodup
    rw [hsources, List.map_append] at hall
    exact hall.of_append_left
  have hhead := toList_head? hlength
  refine ⟨{ t with
    destination := (t.destination.toList ++ targets fields).head?
    sources := t.sources ++ TemplateField.sources fields
    nodup := hnodup }, ⟨rfl, rfl, rfl, hhead, rfl⟩, h.name, h.category, h.extension, ?_, hsources⟩
  rw [hdestination, hhead]

theorem add_ok {name : String} : t.add name = .ok t' ↔
    ∃ field, TemplateField.ofName? name = some field ∧ t.Extends [field] t' := by
  unfold add
  cases hname : TemplateField.ofName? name with
  | none => simp
  | some field =>
    simp only [Option.some.injEq, exists_eq_left']
    cases field with
    | target file =>
      dsimp only
      by_cases hsome : t.destination.isSome
      · rw [if_pos hsome]
        refine iff_of_false (by simp) fun h => ?_
        have hlength := congrArg List.length h.destination
        have hle := Option.length_toList_le (o := t'.destination)
        obtain ⟨other, hother⟩ := Option.isSome_iff_exists.1 hsome
        simp [hother] at hlength
        omega
      · have hextends : t.Extends [.target file] { t with destination := some file } :=
          ⟨rfl, rfl, rfl, by simp [Option.not_isSome_iff_eq_none.1 hsome], by simp⟩
        rw [if_neg hsome, except_pure_ok]
        exact ⟨fun h => h ▸ hextends, hextends.unique⟩
    | source slot type =>
      dsimp only
      by_cases hslot : slot ∈ t.sources.map Prod.fst
      · rw [dif_pos hslot]
        refine iff_of_false (by simp) fun h => ?_
        have hnodup := t'.nodup
        rw [h.sources, List.map_append, List.nodup_append] at hnodup
        exact hnodup.2.2 slot hslot slot (by simp) rfl
      · rw [dif_neg hslot, except_pure_ok]
        have hextends : ∀ nodup, t.Extends [.source slot type]
            { t with sources := t.sources ++ [(slot, type)], nodup } :=
          fun _ => ⟨rfl, rfl, rfl, by simp, by simp⟩
        exact ⟨fun h => h ▸ hextends _, (hextends _).unique⟩

theorem foldlM_add_ok {names : List String} : names.foldlM add t = .ok t' ↔
    ∃ fields, names.map TemplateField.ofName? = fields.map some ∧ t.Extends fields t' := by
  induction names generalizing t with
  | nil =>
    rw [List.foldlM_nil, except_pure_ok]
    constructor
    · rintro rfl
      exact ⟨[], rfl, .refl t⟩
    · rintro ⟨fields, hfields, h⟩
      obtain rfl := List.map_eq_nil_iff.1 hfields.symm
      exact (Extends.refl t).unique h
  | cons name names ih =>
    rw [List.foldlM_cons, except_bind_ok]
    simp only [add_ok, ih]
    constructor
    · rintro ⟨mid, ⟨field, hfield, hmid⟩, fields, hfields, h⟩
      exact ⟨field :: fields, by simp [hfield, hfields], hmid.trans h⟩
    · rintro ⟨fields, hfields, h⟩
      cases fields with
      | nil => simp at hfields
      | cons field fields =>
        rw [List.map_cons, List.map_cons, List.cons_eq_cons] at hfields
        rw [← List.singleton_append] at h
        obtain ⟨mid, hmid, h⟩ := h.split
        exact ⟨mid, ⟨field, hfields.1, hmid⟩, fields, hfields.2, h⟩

theorem ofSpec_ok : ofSpec spec = .ok t ↔
    ∃ fields, spec.Declares fields ∧
      (bare spec.name spec.category spec.extension).Extends fields t := by
  rw [ofSpec, foldlM_add_ok]
  simp only [TemplateSpec.declares_iff]

theorem Extends.instruction (h : (bare spec.name spec.category spec.extension).Extends fields t) :
    t.instruction = spec.layout fields := by
  have hdestination : t.destination = (targets fields).head? := by
    have hlist : t.destination.toList = targets fields := h.destination
    rw [← hlist]
    cases t.destination <;> rfl
  have hsources : t.sources = TemplateField.sources fields := h.sources
  rw [Template.instruction, TemplateSpec.layout, h.name, h.category, h.extension, hdestination,
    hsources]
  rfl

theorem ofSpec_lays (h : ofSpec spec = .ok t) : spec.Lays t.instruction := by
  obtain ⟨fields, hfields, hextends⟩ := ofSpec_ok.1 h
  exact ⟨fields, hfields, hextends.instruction⟩

/-- A declaration can be read exactly if its operand list is one of the grammar. -/
theorem ofSpec_iff : (∃ t, ofSpec spec = .ok t) ↔ spec.Grammatical := by
  constructor
  · rintro ⟨t, h⟩
    obtain ⟨fields, hfields, hextends⟩ := ofSpec_ok.1 h
    have htargets : t.destination.toList = targets fields := hextends.destination
    have hsources : t.sources = TemplateField.sources fields := hextends.sources
    exact ⟨fields, hfields, htargets ▸ Option.length_toList_le, hsources ▸ t.nodup⟩
  · rintro ⟨fields, hfields, htarget, hslots⟩
    refine ⟨{
      name := spec.name
      category := spec.category
      extension := spec.extension
      destination := (targets fields).head?
      sources := TemplateField.sources fields
      nodup := hslots }, ofSpec_ok.2 ⟨fields, hfields, rfl, rfl, rfl, ?_, rfl⟩⟩
    exact toList_head? htarget

end Template

end PlanLowering
