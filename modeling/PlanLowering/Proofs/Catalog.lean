import Mathlib.Data.List.Forall2
import PlanLowering.Catalog.Basic
import PlanLowering.Proofs.Outcome

/-!
# Templates of declared catalogs

A declared template has operands of the type that their slot is for. Templates made by hand need
not, so the results below are about catalogs that were built from declarations.
-/

namespace PlanLowering

/-- Each element of the second list comes from one of the first. -/
theorem exists_of_forall₂ {α β : Type} {R : α → β → Prop} {xs : List α} {ys : List β}
    (h : List.Forall₂ R xs ys) {y : β} (hy : y ∈ ys) : ∃ x ∈ xs, R x y := by
  induction h with
  | nil => cases hy
  | cons hfirst _ ih =>
    rcases List.mem_cons.1 hy with rfl | hy
    · exact ⟨_, List.mem_cons_self, hfirst⟩
    · obtain ⟨x, hx, hxy⟩ := ih hy
      exact ⟨x, List.mem_cons_of_mem _ hx, hxy⟩

def Slot.admits : Slot → OperandType → Bool
  | .rs1, .register _ => true
  | .rs2, .register _ => true
  | .rs3, .register _ => true
  | .imm, .imm => true
  | .offset, .symbol => true
  | .csr, .csr => true
  | _, _ => false

theorem TemplateField.ofName?_admits {name : String} {slot : Slot} {type : OperandType}
    (h : ofName? name = some (.source slot type)) : slot.admits type := by
  have htable : ∀ entry ∈ table, ∀ slot type, entry.2 = .source slot type →
      slot.admits type := by
    simp [table, Slot.admits]
  obtain ⟨before, after, hentry, _⟩ := List.lookup_eq_some_iff.1 h
  exact htable (name, .source slot type) (by simp [hentry]) slot type rfl

namespace Template

variable {t t' : Template}

def Typed (t : Template) : Prop := ∀ source ∈ t.sources, source.1.admits source.2

theorem add_typed {field : String} (h : t.add field = .ok t') (ht : t.Typed) : t'.Typed := by
  unfold add at h
  cases hfield : TemplateField.ofName? field with
  | none => simp [hfield] at h
  | some parsed =>
    cases parsed with
    | target file =>
      simp only [hfield] at h
      split at h
      · simp at h
      · rw [except_pure_ok] at h
        exact h ▸ ht
    | source slot type =>
      simp only [hfield] at h
      split at h
      · simp at h
      · rw [except_pure_ok] at h
        subst h
        intro source hsource
        rcases List.mem_append.1 hsource with hsource | hsource
        · exact ht source hsource
        · rw [List.mem_singleton] at hsource
          exact hsource ▸ TemplateField.ofName?_admits hfield

theorem ofSpec_typed {spec : TemplateSpec} (h : ofSpec spec = .ok t) : t.Typed :=
  except_foldlM_ok h (by simp [Typed, bare]) fun _ _ _ _ ht hadd => add_typed hadd ht

end Template

namespace Catalog

variable {catalog catalog' : Catalog} {specs : List TemplateSpec} {xlen : Xlen} {t : Template}
variable {name : String}

theorem eq_iff : catalog = catalog' ↔ catalog.templates = catalog'.templates := by
  refine ⟨fun h => h ▸ rfl, fun h => ?_⟩
  obtain ⟨table, hindexed⟩ := catalog
  obtain ⟨table', hindexed'⟩ := catalog'
  obtain rfl := hindexed.eq hindexed' h
  rfl

/-- Templates of distinct names, each under its own. -/
def ofTemplates (templates : List Template) (h : (templates.map Template.name).Nodup) :
    Catalog where
  templates
  byName := ⟨(templates.map Template.name).zipIdx, by rwa [List.zipIdx_map_fst]⟩
  indexed := rfl

@[simp] theorem templates_ofTemplates {templates : List Template}
    (h : (templates.map Template.name).Nodup) : (ofTemplates templates h).templates = templates :=
  rfl

/-- Names tell templates apart, and the index leads from each to the template that has it. -/
theorem find?_eq_some : catalog.find? name = some t ↔ t ∈ catalog.templates ∧ t.name = name := by
  have hplaces : catalog.byName.entries = (catalog.templates.map Template.name).zipIdx :=
    catalog.indexed
  simp only [find?, Option.bind_eq_some_iff, ← IdMap.mem_entries, hplaces,
    List.mem_zipIdx_iff_getElem?, List.getElem?_map, Option.map_eq_some_iff]
  constructor
  · rintro ⟨k, ⟨u, hu, rfl⟩, ht⟩
    obtain rfl := Option.some.inj (hu.symm.trans ht)
    exact ⟨List.mem_of_getElem? ht, rfl⟩
  · rintro ⟨ht, rfl⟩
    obtain ⟨k, hk⟩ := List.mem_iff_getElem?.1 ht
    exact ⟨k, ⟨t, hk, rfl⟩, hk⟩

theorem mem_of_find? (h : catalog.find? name = some t) : t ∈ catalog.templates :=
  (find?_eq_some.1 h).1

theorem find?_eq_none : catalog.find? name = none ↔ name ∉ catalog.templates.map Template.name := by
  rw [Option.eq_none_iff_forall_ne_some, List.mem_map]
  simp only [ne_eq, find?_eq_some]
  exact ⟨fun h ⟨t, ht⟩ => h t ht, fun h t ht => h ⟨t, ht⟩⟩

/-- A lookup through the index finds what a search finds. -/
theorem find?_eq : catalog.find? name = catalog.templates.find? (·.name = name) := by
  cases hfind : catalog.templates.find? (·.name = name) with
  | some t =>
    exact find?_eq_some.2 ⟨List.mem_of_find?_eq_some hfind, by simpa using List.find?_some hfind⟩
  | none =>
    rw [find?_eq_none, List.mem_map]
    rintro ⟨t, ht, hname⟩
    exact absurd hname (by simpa using List.find?_eq_none.1 hfind t ht)

theorem ofSpecs_eq_ok : ofSpecs specs xlen = .ok catalog ↔
    specs.foldlM (TemplateTable.declare xlen) {} = .ok catalog.toTemplateTable := by
  unfold ofSpecs
  split
  · next table hrun =>
    constructor
    · rintro ⟨⟩
      exact hrun
    · intro h
      obtain rfl := Except.ok.inj (hrun.symm.trans h)
      rfl
  · next flaw hrun => exact iff_of_false nofun fun h => nomatch hrun.symm.trans h

theorem declare_ok {spec : TemplateSpec} (hkept : kept xlen spec) :
    catalog.declare xlen spec = .ok catalog'.toTemplateTable ↔
      ∃ t, Template.ofSpec spec = .ok t ∧ catalog'.templates = catalog.templates ++ [t] := by
  rw [TemplateTable.declare_ok]
  simp only [hkept, Bool.true_eq_false, false_and, false_or, true_and]
  constructor
  · rintro ⟨t, ht, _, h⟩
    exact ⟨t, ht, by rw [← h]⟩
  · rintro ⟨t, ht, h⟩
    have hnew : catalog.byName.contains spec.name = false := by
      have hnodup := catalog'.nodup
      rw [h, List.map_append, List.nodup_append] at hnodup
      rw [IdMap.contains, Option.isSome_eq_false_iff, Option.isNone_iff_eq_none,
        IdMap.get?_eq_none, catalog.indexed, List.zipIdx_map_fst]
      exact fun hmem => hnodup.2.2 _ hmem t.name (by simp) (Template.ofSpec_name ht).symm
    have hrun := TemplateTable.declare_ok.2 (.inr ⟨hkept, t, ht, hnew, rfl⟩)
    exact ⟨t, ht, hnew, (catalog.indexed.declare hrun).eq catalog'.indexed h.symm⟩

theorem declares_ok : specs.foldlM (TemplateTable.declare xlen) catalog.toTemplateTable =
      .ok catalog'.toTemplateTable ↔
    ∃ templates, List.Forall₂ (fun spec t => Template.ofSpec spec = .ok t)
      (specs.filter (kept xlen)) templates ∧
        catalog'.templates = catalog.templates ++ templates := by
  induction specs generalizing catalog with
  | nil =>
    have htables : catalog.toTemplateTable = catalog'.toTemplateTable ↔ catalog = catalog' :=
      ⟨fun h => eq_iff.2 (by rw [h]), fun h => by rw [h]⟩
    rw [List.foldlM_nil, except_pure_ok, htables, eq_iff, eq_comm]
    simp
  | cons spec specs ih =>
    rw [List.foldlM_cons, except_bind_ok]
    by_cases hkept : kept xlen spec
    · rw [List.filter_cons_of_pos hkept]
      constructor
      · rintro ⟨table, hstep, hmore⟩
        obtain ⟨next, rfl⟩ : ∃ next : Catalog, next.toTemplateTable = table :=
          ⟨⟨table, catalog.indexed.declare hstep⟩, rfl⟩
        obtain ⟨t, ht, hnext⟩ := (declare_ok hkept).1 hstep
        obtain ⟨templates, hall, h⟩ := ih.1 hmore
        exact ⟨t :: templates, .cons ht hall, by rw [h, hnext, List.append_assoc]; rfl⟩
      · rintro ⟨templates, hall, h⟩
        obtain ⟨t, more, ht, hmore, rfl⟩ := List.forall₂_cons_left_iff.1 hall
        have hsplit : catalog'.templates = (catalog.templates ++ [t]) ++ more := by
          rw [h, List.append_assoc]
          rfl
        have hnodup : ((catalog.templates ++ [t]).map Template.name).Nodup := by
          have hnodup := catalog'.nodup
          rw [hsplit, List.map_append] at hnodup
          exact (List.nodup_append.1 hnodup).1
        have hstep : catalog.declare xlen spec = .ok (ofTemplates _ hnodup).toTemplateTable :=
          (declare_ok hkept).2 ⟨t, ht, rfl⟩
        exact ⟨_, hstep, ih.2 ⟨more, hmore, hsplit⟩⟩
    · have hskip : catalog.declare xlen spec = .ok catalog.toTemplateTable :=
        TemplateTable.declare_ok.2 (.inl ⟨by simpa using hkept, rfl⟩)
      rw [List.filter_cons_of_neg hkept, ← ih]
      simp [hskip]

/-- A catalog has the templates that the declarations for the register width are read as. -/
theorem ofSpecs_reads : ofSpecs specs xlen = .ok catalog ↔
    List.Forall₂ (fun spec t => Template.ofSpec spec = .ok t) (specs.filter (kept xlen))
      catalog.templates := by
  rw [ofSpecs_eq_ok, show ({} : TemplateTable) = empty.toTemplateTable from rfl, declares_ok]
  simp [empty]

/-- What holds of every template that a list declares holds of the catalog. -/
theorem ofSpecs_forall {P : Template → Prop} (h : ofSpecs specs xlen = .ok catalog)
    (hspecs : ∀ spec ∈ specs, ∀ t, Template.ofSpec spec = .ok t → P t) :
    ∀ t ∈ catalog.templates, P t := by
  intro t ht
  obtain ⟨spec, hspec, hread⟩ := exists_of_forall₂ (ofSpecs_reads.1 h) ht
  exact hspecs spec (List.mem_filter.1 hspec).1 t hread

theorem ofSpecs_typed (h : ofSpecs specs xlen = .ok catalog) :
    ∀ t ∈ catalog.templates, t.Typed :=
  ofSpecs_forall h fun _ _ _ ht => Template.ofSpec_typed ht

end Catalog

/-- An instruction that was taken from a declared catalog and not wired yet. -/
structure Instruction.Blank (i : Instruction) : Prop where
  native : i.form = .native
  harmless : i.clobbers = []
  typed : ∀ op ∈ i.sources, op.slot.admits op.type
  unset : ∀ op ∈ i.destination.toList ++ i.sources, op.value = .unset

theorem Template.instruction_blank {t : Template} (ht : t.Typed) : t.instruction.Blank where
  native := rfl
  harmless := rfl
  typed := by
    intro op hop
    obtain ⟨source, hsource, rfl⟩ := List.mem_map.1 hop
    exact ht source hsource
  unset := by
    intro op hop
    simp only [instruction, List.mem_append, Option.mem_toList, Option.map_eq_some_iff,
      List.mem_map] at hop
    rcases hop with ⟨_, _, rfl⟩ | ⟨_, _, rfl⟩ <;> rfl

section Named

variable {catalog : Catalog} {name : String} {i : Instruction}

theorem Catalog.instruction_ok : catalog.instruction name = .ok i ↔
    ∃ t, catalog.find? name = some t ∧ t.instruction = i := by
  unfold Catalog.instruction
  cases catalog.find? name <;> simp

theorem Catalog.instruction_template (h : catalog.instruction name = .ok i) :
    ∃ t ∈ catalog.templates, t.name = name ∧ t.instruction = i := by
  obtain ⟨t, hfind, rfl⟩ := instruction_ok.1 h
  obtain ⟨ht, hname⟩ := find?_eq_some.1 hfind
  exact ⟨t, ht, hname, rfl⟩

theorem Catalog.instruction_form (h : catalog.instruction name = .ok i) : i.form = .native := by
  obtain ⟨_, _, _, rfl⟩ := instruction_template h
  rfl

end Named

section Declared

variable {catalog : Catalog} {specs : List TemplateSpec} {xlen : Xlen} {name : String}

theorem Catalog.find?_blank (hcatalog : ofSpecs specs xlen = .ok catalog) {t : Template}
    (h : catalog.find? name = some t) : t.instruction.Blank ∧ t.instruction.name = name := by
  obtain ⟨ht, hname⟩ := find?_eq_some.1 h
  exact ⟨Template.instruction_blank (ofSpecs_typed hcatalog t ht), hname⟩

theorem Catalog.instruction_blank (hcatalog : ofSpecs specs xlen = .ok catalog) {i : Instruction}
    (h : catalog.instruction name = .ok i) : i.Blank ∧ i.name = name := by
  obtain ⟨t, hfind, rfl⟩ := instruction_ok.1 h
  exact find?_blank hcatalog hfind

end Declared
end PlanLowering
