import PlanLowering.Proofs.LegalFiles
import PlanLowering.Proofs.OpenSources

/-!
# Typed sources

Each source reads the most recent definition of its id, and has to have the file of that definition.
Where it has another one it is given a new id, and a cast of the old id into the new one is put in
front of the instruction. A new id is defined by its cast alone.
-/

namespace PlanLowering

open FreshIds (Below)

namespace Instruction

/-- File in which the instruction defines the id. -/
def fileOf? (i : Instruction) (id : Id) : Option RegisterFile :=
  i.destination.bind fun op => if op.virtual? = some id then op.type.file? else none

end Instruction

/-- File of the most recent definition of the id. -/
def lastFile? (code : List Instruction) (id : Id) : Option RegisterFile :=
  code.reverse.findSome? (·.fileOf? id)

/-- The operand reads the id in one file, and the id was defined in the other. -/
def Operand.Misfits (files : Id → Option RegisterFile) (op : Operand) (id : Id)
    (source target : RegisterFile) : Prop :=
  op.virtual? = some id ∧ op.type.file? = some target ∧ files id = some source ∧ source ≠ target

/-- The operands after casting. The casts define the ids of consecutive numbers from `n` on. -/
inductive CastsSources (catalog : Catalog) (files : Id → Option RegisterFile) :
    Nat → List Operand → List Operand → List Instruction → Prop where
  | done {n} : CastsSources catalog files n [] [] []
  | kept {n op ops ops' casts} (hfits : ∀ id source target, ¬ op.Misfits files id source target)
      (hrest : CastsSources catalog files n ops ops' casts) :
      CastsSources catalog files n (op :: ops) (op :: ops') casts
  | cast {n op ops ops' casts id source target o} (hmisfits : op.Misfits files id source target)
      (hcast : o.Casts catalog source target id s!"r{n}")
      (hrest : CastsSources catalog files (n + 1) ops ops' casts) :
      CastsSources catalog files n (op :: ops) ({ op with value := .virtual s!"r{n}" } :: ops')
        (o :: casts)

inductive CastsCode (catalog : Catalog) :
    List Instruction → Nat → List Instruction → List Piece → Prop where
  | done {before n} : CastsCode catalog before n [] []
  | cons {before n i sources casts rest pieces}
      (hsources : CastsSources catalog (lastFile? before) n i.sources sources casts)
      (hrest : CastsCode catalog (before ++ [i]) (n + casts.length) rest pieces) :
      CastsCode catalog before n (i :: rest)
        ({ before := casts, instruction := { i with sources } } :: pieces)

variable {catalog : Catalog} {context : Context} {s : State} {xlen : Xlen} {n m k : Nat}
variable {before code after out casts held acc : List Instruction} {pieces : List Piece}
variable {i o : Instruction} {id fresh x consumer : Id} {source target f g : RegisterFile}
variable {op op' : Operand} {ops ops' : List Operand} {files : Id → Option RegisterFile}

section Files

namespace Instruction

theorem fileOf?_eq_some : i.fileOf? id = some f ↔ i.DefinesIn id f := by
  simp only [fileOf?, Option.bind_eq_some_iff, DefinesIn, Option.mem_def]
  refine exists_congr fun op => and_congr_right fun _ => ?_
  by_cases hid : op.virtual? = some id <;> simp [hid]

theorem fileOf?_eq_none : i.fileOf? id = none ↔ ¬ i.Defines id := by
  constructor
  · intro hnone hdefines
    obtain ⟨f, hf⟩ := hdefines.definesIn
    rw [fileOf?_eq_some.2 hf] at hnone
    cases hnone
  · intro hnot
    cases hfile : i.fileOf? id with
    | none => rfl
    | some f => exact absurd (fileOf?_eq_some.1 hfile).defines hnot

end Instruction

theorem lastFile?_append (front back : List Instruction) (id : Id) :
    lastFile? (front ++ back) id = (lastFile? back id).or (lastFile? front id) := by
  rw [lastFile?, List.reverse_append, List.findSome?_append]
  rfl

@[simp] theorem lastFile?_singleton (i : Instruction) (id : Id) :
    lastFile? [i] id = i.fileOf? id := by
  simp [lastFile?]

theorem lastFile?_eq_none (h : ∀ i ∈ code, ¬ i.Defines id) : lastFile? code id = none := by
  rw [lastFile?, List.findSome?_eq_none_iff]
  intro i hi
  exact Instruction.fileOf?_eq_none.2 (h i (List.mem_reverse.1 hi))

namespace Produced

variable {produced : Produced}

theorem get?_define_or (produced : Produced) (i : Instruction) (id : Id) :
    (produced.define i).get? id = (i.fileOf? id).or (produced.get? id) := by
  cases hfile : i.fileOf? id with
  | some f => exact get?_define_of_definesIn (Instruction.fileOf?_eq_some.1 hfile)
  | none => exact get?_define_of_not_defines (Instruction.fileOf?_eq_none.1 hfile)

theorem mismatch_iff :
    produced.mismatch? op = some (id, source, target) ↔
      op.Misfits produced.get? id source target := by
  constructor
  · intro h
    obtain ⟨hid, htarget, hsource⟩ := mismatch_eq_some h
    refine ⟨hid, htarget, hsource, ?_⟩
    rintro rfl
    simp [mismatch?, hid, htarget, hsource] at h
  · rintro ⟨hid, htarget, hsource, hne⟩
    simp [mismatch?, hid, htarget, hsource, hne]

end Produced

theorem Operand.Misfits.congr {files' : Id → Option RegisterFile}
    (h : ∀ id, op.virtual? = some id → files id = files' id) :
    op.Misfits files id source target ↔ op.Misfits files' id source target := by
  refine and_congr_right fun hid => ?_
  rw [h id hid]

end Files

section Runs

variable (hstock : context.catalog.Stocked xlen)
include hstock

/-- There is a cast between any two register files. It takes the next value id, and draws. -/
theorem Produced.cast_runs (hfiles : source ≠ target) :
    (cast source target id consumer).Succeeds context s fun result s' =>
      result.1 = s!"r{s.ids.values}" ∧ result.2.Casts context.catalog source target id result.1 ∧
        ∃ random, s' = { s with ids := s.ids.value.2, random } := by
  have hcandidates : context.catalog.filter (.cast (.register source) (.register target)) ≠ [] := by
    refine hstock.answers _ (List.mem_append_right _ ?_)
    cases source <;> cases target <;> simp_all [Catalog.castFilters]
  have hcategory : (TemplateFilter.cast (.register source) (.register target)).category =
      some .cast := rfl
  have hruns : (cast source target id consumer).Succeeds context s fun _ s' =>
      ∃ random, s' = { s with ids := s.ids.value.2, random } := by
    simp only [cast, Lower.succeeds_bind, Lower.succeeds_read, Lower.freshValue,
      Lower.succeeds_fresh]
    refine Lower.succeeds_chooseFrom hcandidates fun t ht random => ?_
    obtain ⟨hmem, hcategory⟩ := Catalog.mem_filter_category hcategory ht
    have hfits := hstock.fits t hmem
    simp only [Template.fits, hcategory, Bool.and_eq_true, decide_eq_true_eq] at hfits
    obtain ⟨⟨hdest, hrs1⟩, _⟩ := hfits
    refine Lower.succeeds_of_returns ((t.shaped_instruction.setSource hrs1).mono fun i hi => ?_)
    refine Lower.succeeds_of_returns ((hi.setDestination hdest).mono fun i _ => ?_)
    exact Lower.succeeds_pure.2 ⟨random, rfl⟩
  refine hruns.attach.mono ?_
  rintro ⟨fresh, i⟩ s' ⟨hrun, hstate⟩
  exact ⟨(cast_drawn hrun).2.1, cast_casts hrun, hstate⟩

theorem Produced.castSources_runs {produced : Produced} (hn : n ≤ s.ids.values)
    (hfiles : ∀ id, Below n id → produced.get? id = files id)
    (hops : ∀ op ∈ ops, ∀ id, op.virtual? = some id → Below n id) :
    (castSources consumer produced ops).Succeeds context s fun result s' =>
      CastsSources context.catalog files s.ids.values ops result.1 result.2.1 ∧
      s'.ids.values = s.ids.values + result.2.1.length ∧
      ∀ id, Below n id → result.2.2.get? id = files id := by
  induction ops generalizing produced s with
  | nil => exact Lower.succeeds_pure.2 ⟨.done, rfl, hfiles⟩
  | cons op rest ih =>
    obtain ⟨hop, hrest⟩ := List.forall_mem_cons.1 hops
    have hmisfits : ∀ id source target, op.Misfits produced.get? id source target ↔
        op.Misfits files id source target := fun _ _ _ =>
      Operand.Misfits.congr fun id hid => hfiles id (hop id hid)
    unfold castSources
    cases hmismatch : produced.mismatch? op with
    | none =>
      have hfits : ∀ id source target, ¬ op.Misfits files id source target := by
        intro id source target hmisfit
        rw [← hmisfits, ← mismatch_iff, hmismatch] at hmisfit
        cases hmisfit
      simp only [Lower.succeeds_bind, Lower.succeeds_pure]
      refine (ih hn hfiles hrest).mono ?_
      rintro ⟨more, casts, produced'⟩ s' ⟨hcasts, hvalues, hknown⟩
      exact ⟨.kept hfits hcasts, hvalues, hknown⟩
    | some clash =>
      obtain ⟨id, source, target⟩ := clash
      have hmisfit := mismatch_iff.1 hmismatch
      simp only [Lower.succeeds_bind, Lower.succeeds_pure]
      refine (cast_runs hstock hmisfit.2.2.2).mono ?_
      rintro ⟨fresh, o⟩ next ⟨rfl, ho, random, hstate⟩
      have hnext : next.ids.values = s.ids.values + 1 := hstate ▸ rfl
      have hold : ∀ x, Below n x →
          (IdMap.insert produced s!"r{s.ids.values}" target).get? x = files x := by
        intro x hx
        have hne : x ≠ s!"r{s.ids.values}" := by
          rintro rfl
          exact absurd (FreshIds.below_value.1 hx) (Nat.not_lt.2 hn)
        rw [IdMap.get?_insert, if_neg hne, hfiles x hx]
      refine (ih (by omega) hold hrest).mono ?_
      rintro ⟨more, casts, produced'⟩ s' ⟨hcasts, hvalues, hknown⟩
      rw [hnext] at hcasts
      refine ⟨.cast ((hmisfits _ _ _).1 hmisfit) ho hcasts, ?_, hknown⟩
      dsimp only at hvalues ⊢
      rw [hvalues, hnext, List.length_cons]
      omega

theorem Produced.castAll_runs {produced : Produced} (hn : n ≤ s.ids.values)
    (hfiles : ∀ id, Below n id → produced.get? id = lastFile? before id)
    (hcode : ∀ i ∈ code, ∀ id ∈ i.virtualSources, Below n id) :
    (castAll produced code).Succeeds context s fun pieces _ =>
      CastsCode context.catalog before s.ids.values code pieces := by
  induction code generalizing produced s before with
  | nil => exact Lower.succeeds_pure.2 .done
  | cons i rest ih =>
    obtain ⟨hi, hrest⟩ := List.forall_mem_cons.1 hcode
    have hops : ∀ op ∈ i.sources, ∀ id, op.virtual? = some id → Below n id := fun op hop id hid =>
      hi id (List.mem_filterMap.2 ⟨op, hop, hid⟩)
    simp only [castAll, Lower.succeeds_bind, Lower.succeeds_pure]
    refine (castSources_runs hstock hn hfiles hops).mono ?_
    rintro ⟨sources, casts, produced'⟩ next ⟨hcasts, hvalues, hknown⟩
    have hdefined : ∀ id, Below n id →
        (produced'.define i).get? id = lastFile? (before ++ [i]) id := by
      intro id hid
      rw [get?_define_or, hknown id hid, lastFile?_append, lastFile?_singleton]
    refine (ih (by omega) hdefined hrest).mono fun pieces _ hpieces => ?_
    rw [hvalues] at hpieces
    exact .cons hcasts hpieces

end Runs

section Casts

variable (hcomplete : catalog.Complete)

theorem Instruction.Casts.defines (h : o.Casts catalog source target id fresh) :
    o.Defines fresh := by
  obtain ⟨_, _, hwired⟩ := h
  exact hwired.defines

theorem Instruction.Casts.defines_iff (h : o.Casts catalog source target id fresh) :
    o.Defines x ↔ x = fresh := by
  constructor
  · intro hx
    exact Option.some.inj (hx.symm.trans h.defines)
  · rintro rfl
    exact h.defines

include hcomplete

theorem Instruction.Casts.file (h : o.Casts catalog source target id fresh) :
    o.fileOf? fresh = some target := by
  obtain ⟨t, ht, op, _, hop, _, rfl⟩ := h
  have hdest := (hcomplete.cast_fields ht).1
  rw [Template.instruction, hdest] at hop
  cases hop
  simp [fileOf?, Operand.virtual?, OperandType.file?]

theorem Instruction.Casts.reads (h : o.Casts catalog source target id fresh) (hop : op ∈ o.sources)
    (hx : op.virtual? = some x) : x = id ∧ op.type.file? = some source := by
  obtain ⟨t, ht, hwired⟩ := h
  have hid := hwired.reads x (List.mem_filterMap.2 ⟨op, hop, hx⟩)
  obtain ⟨_, sources, _, hsources, rfl⟩ := hwired
  obtain ⟨file, hfile⟩ := Operand.file_of_virtual hx
  obtain ⟨front, found, back, hsplit, _, _, rfl⟩ := setFirst_eq_some hsources
  have hfield : (op.slot, op.type) ∈ t.sources := by
    have hold : ∃ old ∈ t.instruction.sources, old.slot = op.slot ∧ old.type = op.type := by
      rw [hsplit]
      simp only [List.mem_append, List.mem_cons] at hop
      rcases hop with hop | rfl | hop
      · exact ⟨op, by simp [hop], rfl, rfl⟩
      · exact ⟨found, by simp, rfl, rfl⟩
      · exact ⟨op, by simp [hop], rfl, rfl⟩
    obtain ⟨old, hold, hslot, htype⟩ := hold
    obtain ⟨field, hfield, rfl⟩ := List.mem_map.1 hold
    dsimp only at hslot htype
    rwa [← hslot, ← htype]
  rw [OperandType.eq_register hfile] at hfield
  rw [(hcomplete.cast_fields ht).2 _ _ hfield] at hfile
  exact ⟨(OperandValue.virtual.inj hid).symm, hfile⟩

end Casts

namespace CastsSources

theorem numbered (h : CastsSources catalog files n ops ops' casts) :
    List.Forall₂ (fun k o => ∃ id source target, o.Casts catalog source target id s!"r{k}" ∧
      files id = some source ∧ id ∈ ops.filterMap Operand.virtual?)
      (List.range' n casts.length) casts := by
  have hlater : ∀ {op : Operand} {ops : List Operand} {id : Id},
      id ∈ ops.filterMap Operand.virtual? → id ∈ (op :: ops).filterMap Operand.virtual? :=
    fun hid => ((List.sublist_cons_self _ _).filterMap _).subset hid
  induction h with
  | done => exact .nil
  | @kept n op ops ops' casts _ _ ih =>
    refine ih.imp ?_
    rintro k o ⟨id, source, target, hcast, hsource, hid⟩
    exact ⟨id, source, target, hcast, hsource, hlater hid⟩
  | @cast n op ops ops' casts id source target o hmisfits hcast _ ih =>
    rw [List.length_cons, List.range'_succ]
    refine .cons ⟨id, source, target, hcast, hmisfits.2.2.1, ?_⟩ (ih.imp ?_)
    · exact List.mem_filterMap.2 ⟨op, List.mem_cons_self, hmisfits.1⟩
    · rintro k o ⟨id, source, target, hcast, hsource, hid⟩
      exact ⟨id, source, target, hcast, hsource, hlater hid⟩

theorem avoids (h : CastsSources catalog files n ops ops' casts) (hx : Below n x) :
    ∀ o ∈ casts, ¬ o.Defines x := by
  intro o ho hdefines
  obtain ⟨k, hk, _, _, _, hcast, _⟩ := exists_of_forall₂ h.numbered ho
  rw [hcast.defines_iff] at hdefines
  subst hdefines
  have hlow := (List.mem_range'_1.1 hk).1
  exact absurd (FreshIds.below_value.1 hx) (Nat.not_lt.2 hlow)

theorem fits (hcomplete : catalog.Complete) (h : CastsSources catalog files n ops ops' casts)
    (hop : op' ∈ ops') : (op' ∈ ops ∧ ∀ id source target, ¬ op'.Misfits files id source target) ∨
      ∃ k f, n ≤ k ∧ k < n + casts.length ∧ op'.virtual? = some s!"r{k}" ∧
        op'.type.file? = some f ∧ lastFile? casts s!"r{k}" = some f := by
  induction h with
  | done => cases hop
  | @kept n op ops ops' casts hfits _ ih =>
    rcases List.mem_cons.1 hop with rfl | hop
    · exact .inl ⟨List.mem_cons_self, hfits⟩
    · exact (ih hop).imp_left fun h => ⟨List.mem_cons_of_mem _ h.1, h.2⟩
  | @cast n op ops ops' casts id source target o hmisfits hcast hrest ih =>
    rw [List.length_cons]
    rcases List.mem_cons.1 hop with rfl | hop
    · obtain ⟨_, hfile, _⟩ := hmisfits
      have hlater : lastFile? casts s!"r{n}" = none :=
        lastFile?_eq_none (hrest.avoids (FreshIds.below_value.2 (Nat.lt_succ_self n)))
      refine .inr ⟨n, target, Nat.le_refl n, by omega, ?_, hfile, ?_⟩
      · simp [Operand.virtual?, OperandType.eq_register hfile]
      · rw [← List.singleton_append, lastFile?_append, hlater, lastFile?_singleton,
          hcast.file hcomplete]
        rfl
    · rcases ih hop with ⟨hold, hfits⟩ | ⟨k, f, hlow, hhigh, hid, hfile, hlast⟩
      · exact .inl ⟨List.mem_cons_of_mem _ hold, hfits⟩
      · refine .inr ⟨k, f, by omega, by omega, hid, hfile, ?_⟩
        rw [← List.singleton_append, lastFile?_append, hlast]
        rfl

end CastsSources

section Typed

/-- Each source of the instruction has the file of the definition that it reads. -/
def Instruction.TypedBehind (front : List Instruction) (o : Instruction) : Prop :=
  ∀ op ∈ o.sources, ∀ id f g, op.virtual? = some id → op.type.file? = some f →
    lastFile? front id = some g → g = f

/-- Casts that lead up to a pointer label, which defines the id in this file. -/
def LeadsTo (catalog : Catalog) (id : Id) (f : RegisterFile) (code : List Instruction) : Prop :=
  ∃ casts label rest, code = casts ++ label :: rest ∧
    (∀ o ∈ casts, ∃ fresh id, o.IsCast catalog fresh id) ∧ label.isPointerLabel ∧
      label.fileOf? id = some f

/-- Each source of the instruction has the file of the definition that it reads. The exception is a
cast in front of the pointer label that has just defined the id again: its source has the file of
that definition. -/
def Instruction.TypedBetween (catalog : Catalog) (front back : List Instruction)
    (o : Instruction) : Prop :=
  ∀ op ∈ o.sources, ∀ id f g, op.virtual? = some id → op.type.file? = some f →
    lastFile? front id = some g →
      g = f ∨ (∃ fresh, o.IsCast catalog fresh id) ∧ LeadsTo catalog id f back

/-- Every instruction of the list is typed, each between those in front of it and behind it. -/
def TypedAll (catalog : Catalog) (acc code behind : List Instruction) : Prop :=
  ∀ front o back, code = front ++ o :: back →
    o.TypedBetween catalog (acc ++ front) (back ++ behind)

variable {front back behind tail : List Instruction}

theorem LeadsTo.append (h : LeadsTo catalog id f back) : LeadsTo catalog id f (back ++ tail) := by
  obtain ⟨casts, label, rest, rfl, hcasts, hlabel, hfile⟩ := h
  exact ⟨casts, label, rest ++ tail, by simp, hcasts, hlabel, hfile⟩

namespace Instruction

theorem TypedBehind.between (h : o.TypedBehind front) : o.TypedBetween catalog front back :=
  fun op hop id f g hid hf hg => .inl (h op hop id f g hid hf hg)

theorem TypedBetween.congr {front' : List Instruction} (h : o.TypedBetween catalog front back)
    (hsame : ∀ id ∈ o.virtualSources, lastFile? front' id = lastFile? front id) :
    o.TypedBetween catalog front' (back ++ tail) := by
  intro op hop id f g hid hf hg
  rw [hsame id (List.mem_filterMap.2 ⟨op, hop, hid⟩)] at hg
  exact (h op hop id f g hid hf hg).imp_right (And.imp_right LeadsTo.append)

end Instruction

theorem typedAll_nil : TypedAll catalog acc [] behind := by
  simp [TypedAll]

theorem typedAll_cons : TypedAll catalog acc (o :: after) behind ↔
    o.TypedBetween catalog acc (after ++ behind) ∧ TypedAll catalog (acc ++ [o]) after behind := by
  constructor
  · intro h
    refine ⟨by simpa using h [] o after rfl, fun front i back hcode => ?_⟩
    simpa using h (o :: front) i back (by rw [hcode]; rfl)
  · rintro ⟨hfirst, hrest⟩ front i back hcode
    cases front with
    | nil =>
      obtain ⟨rfl, rfl⟩ := List.cons.inj hcode
      simpa using hfirst
    | cons first front =>
      obtain ⟨rfl, hafter⟩ := List.cons.inj hcode
      simpa using hrest front i back hafter

theorem typedAll_append : TypedAll catalog acc (front ++ back) behind ↔
    TypedAll catalog acc front (back ++ behind) ∧ TypedAll catalog (acc ++ front) back behind := by
  induction front generalizing acc with
  | nil => simp [typedAll_nil]
  | cons o front ih => simp [typedAll_cons, ih, and_assoc]

/-- The casts for an instruction are typed, or lead up to the label that waits for it and defines
what they read. -/
theorem CastsSources.typed (hcomplete : catalog.Complete)
    (h : CastsSources catalog files n ops ops' casts) (hheld : held.length ≤ 1)
    (hlabels : ∀ l ∈ held, l.isPointerLabel)
    (hbelow : ∀ id ∈ ops.filterMap Operand.virtual?, Below n id)
    (hfiles : ∀ id ∈ ops.filterMap Operand.virtual?, lastFile? (acc ++ held) id = files id) :
    TypedAll catalog acc casts (held ++ tail) := by
  rintro front o back rfl op hop x f g hx hf hg
  have ho : o ∈ front ++ o :: back := by simp
  obtain ⟨_, _, id, source, target, hcast, hsource, hid⟩ := exists_of_forall₂ h.numbered ho
  obtain ⟨rfl, hfile⟩ := hcast.reads hcomplete hop hx
  obtain rfl : source = f := Option.some.inj (hfile.symm.trans hf)
  have hnone : lastFile? front x = none :=
    lastFile?_eq_none fun j hj => h.avoids (hbelow x hid) j (List.mem_append_left _ hj)
  rw [lastFile?_append, hnone, Option.none_or] at hg
  have hlast := hfiles x hid
  rw [lastFile?_append, hg, hsource] at hlast
  cases held with
  | nil => exact .inl (Option.some.inj hlast)
  | cons label more =>
    obtain rfl : more = [] := by simpa using hheld
    rw [lastFile?_singleton] at hlast
    cases hlabel : label.fileOf? x with
    | none =>
      rw [hlabel, Option.none_or] at hlast
      exact .inl (Option.some.inj hlast)
    | some f' =>
      rw [hlabel, Option.some_or] at hlast
      refine .inr ⟨⟨_, _, _, hcast⟩, back, label, tail, rfl, fun c hc => ?_, hlabels label (by simp),
        hlabel.trans hlast⟩
      obtain ⟨_, _, _, _, _, hcast, _⟩ :=
        exists_of_forall₂ h.numbered (List.mem_append_right _ (List.mem_cons_of_mem _ hc))
      exact ⟨_, _, _, _, hcast⟩

theorem TypedAll.congr {acc' : List Instruction} (h : TypedAll catalog acc code behind)
    (hsame : ∀ o ∈ code, ∀ id ∈ o.virtualSources, lastFile? acc' id = lastFile? acc id) :
    TypedAll catalog acc' code (behind ++ tail) := by
  rintro front o back rfl
  rw [← List.append_assoc]
  refine (h front o back rfl).congr fun id hid => ?_
  rw [lastFile?_append, lastFile?_append, hsame o (by simp) id hid]

theorem CastsSources.typedBehind {sources : List Operand} (hcomplete : catalog.Complete)
    (h : CastsSources catalog (lastFile? before) n i.sources sources casts) (hn : m ≤ n)
    (hi : ∀ id ∈ i.virtualSources, Below m id) (hheld : ∀ l ∈ held, ∀ id, l.Defines id → Below m id)
    (hfiles : ∀ id, Below m id → lastFile? (acc ++ (casts ++ held)) id = lastFile? before id) :
    Instruction.TypedBehind (acc ++ (casts ++ held)) { i with sources } := by
  intro op hop id f g hid hf hg
  rcases h.fits hcomplete hop with ⟨hold, hfits⟩ | ⟨k, f', hlow, _, hk, hf', hlast⟩
  · have hbelow : Below m id := hi id (List.mem_filterMap.2 ⟨op, hold, hid⟩)
    rw [hfiles id hbelow] at hg
    by_contra hne
    exact hfits id g f ⟨hid, hf, hg, hne⟩
  · obtain rfl : id = s!"r{k}" := Option.some.inj (hid.symm.trans hk)
    have hnone : lastFile? held s!"r{k}" = none := by
      refine lastFile?_eq_none fun l hl hdefines => ?_
      exact absurd (FreshIds.below_value.1 (hheld l hl _ hdefines)) (by omega)
    rw [lastFile?_append, lastFile?_append, hnone, Option.none_or, hlast] at hg
    rw [hf'] at hf
    exact (Option.some.inj hg).symm.trans (Option.some.inj hf)

theorem CastsCode.typed (hcomplete : catalog.Complete) (h : CastsCode catalog before n code pieces)
    (hn : m ≤ n)
    (hcode : ∀ i ∈ code, ∀ id, i.Defines id ∨ id ∈ i.virtualSources → Below m id)
    (hfiles : ∀ id, Below m id → lastFile? (acc ++ held) id = lastFile? before id)
    (hheld : held.length ≤ 1) (hlabels : ∀ l ∈ held, l.isPointerLabel)
    (hdefined : ∀ l ∈ held, ∀ id, l.Defines id → Below m id)
    (hreads : ∀ l ∈ held, ∀ id ∈ l.virtualSources, Below n id)
    (htyped : TypedAll catalog acc held []) :
    TypedAll catalog acc (Piece.place held pieces) [] := by
  induction h generalizing acc held with
  | done => exact htyped
  | @cons before n i sources casts rest pieces hsources _ ih =>
    obtain ⟨hi, hrest⟩ := List.forall_mem_cons.1 hcode
    have hown : ∀ id ∈ i.virtualSources, Below m id := fun id hid => hi id (.inr hid)
    have hskip : ∀ id, Below n id → lastFile? casts id = none := fun id hid =>
      lastFile?_eq_none (hsources.avoids hid)
    have hknown : ∀ id, Below m id →
        lastFile? (acc ++ (casts ++ held)) id = lastFile? before id := by
      intro id hid
      rw [← hfiles id hid, lastFile?_append, lastFile?_append, lastFile?_append,
        hskip id (hid.mono hn), Option.or_none]
    have hrewired : Instruction.TypedBehind (acc ++ (casts ++ held)) { i with sources } :=
      hsources.typedBehind hcomplete hn hown hdefined hknown
    have hnext : ∀ id, Below m id →
        lastFile? (acc ++ (casts ++ held) ++ [{ i with sources }]) id =
          lastFile? (before ++ [i]) id := by
      intro id hid
      rw [lastFile?_append, lastFile?_append before, hknown id hid, lastFile?_singleton,
        lastFile?_singleton]
      rfl
    rw [Piece.place, List.append_assoc, typedAll_append, typedAll_append]
    refine ⟨?_, ?_, ?_⟩
    · rw [List.append_assoc]
      exact hsources.typed hcomplete hheld hlabels (fun id hid => (hown id hid).mono hn)
        fun id hid => hfiles id (hown id hid)
    · refine htyped.congr fun l hl id hid => ?_
      rw [lastFile?_append, hskip id (hreads l hl id hid), Option.none_or]
    · rw [List.append_assoc]
      split
      · next hpointer =>
        refine ih (by omega) hrest hnext (Nat.le_refl 1) ?_ ?_ ?_ ?_
        · exact List.forall_mem_singleton.2 hpointer.1
        · exact List.forall_mem_singleton.2 fun id hid => hi id (.inl hid)
        · rw [List.forall_mem_singleton]
          intro id hid
          obtain ⟨op, hop, hid⟩ := List.mem_filterMap.1 hid
          rcases hsources.fits hcomplete hop with ⟨hold, _⟩ | ⟨k, _, _, hhigh, hk, _⟩
          · have hbelow := hown id (List.mem_filterMap.2 ⟨op, hold, hid⟩)
            exact hbelow.mono (by omega)
          · obtain rfl : id = s!"r{k}" := Option.some.inj (hid.symm.trans hk)
            exact FreshIds.below_value.2 hhigh
        · exact typedAll_cons.2 ⟨hrewired.between, typedAll_nil⟩
      · refine typedAll_cons.2 ⟨hrewired.between, ?_⟩
        refine ih (by omega) hrest ?_ (Nat.zero_le 1) (by simp) (by simp) (by simp) typedAll_nil
        simpa using hnext

end Typed

section Placed

/-- A source stays where it fits. Where it does not, it reads a new id, which one cast defines and
nothing else. -/
inductive Operand.Rewired (catalog : Catalog) (before code casts out : List Instruction) :
    Operand → Operand → Prop where
  | kept {op : Operand}
      (hfits : ∀ id source target, ¬ op.Misfits (lastFile? before) id source target) :
      Rewired catalog before code casts out op op
  | cast {op : Operand} {o : Instruction} {id fresh : Id} {source target : RegisterFile}
      (hmisfits : op.Misfits (lastFile? before) id source target) (ho : o ∈ casts)
      (hcast : o.Casts catalog source target id fresh)
      (hfresh : ∀ i ∈ code, ¬ i.Defines fresh ∧ fresh ∉ i.virtualSources)
      (honly : out.filter (·.Defines fresh) = [o]) :
      Rewired catalog before code casts out op { op with value := .virtual fresh }

abbrev Numbered (catalog : Catalog) : List Nat → List Instruction → Prop :=
  List.Forall₂ fun k o => ∃ id source target, o.Casts catalog source target id s!"r{k}"

variable {numbers : List Nat} {front back new : List Instruction}

theorem Numbered.filter (h : Numbered catalog numbers new) (hnumbers : numbers.Nodup) (ho : o ∈ new)
    (hk : o.Defines s!"r{k}") : new.filter (·.Defines s!"r{k}") = [o] := by
  induction h with
  | nil => cases ho
  | @cons number first numbers rest hfirst hrest ih =>
    obtain ⟨hhead, htail⟩ := List.nodup_cons.1 hnumbers
    obtain ⟨id, source, target, hcast⟩ := hfirst
    have hdefines : first.Defines s!"r{k}" ↔ k = number := by
      rw [hcast.defines_iff]
      exact ⟨FreshIds.value_injective, fun hsame => hsame ▸ rfl⟩
    by_cases hsame : k = number
    · have hnone : ∀ j ∈ rest, ¬ j.Defines s!"r{k}" := by
        intro j hj hdef
        obtain ⟨other, hother, _, _, _, hcast⟩ := exists_of_forall₂ hrest hj
        rw [hcast.defines_iff] at hdef
        exact hhead (hsame ▸ FreshIds.value_injective hdef ▸ hother)
      have hfirst : o = first := (List.mem_cons.1 ho).resolve_right fun h => hnone o h hk
      rw [List.filter_cons_of_pos (by simpa using hdefines.2 hsame), hfirst,
        List.filter_eq_nil_iff.2 fun j hj => by simpa using hnone j hj]
    · rw [List.filter_cons_of_neg (by simpa using fun hdef => hsame (hdefines.1 hdef))]
      rcases List.mem_cons.1 ho with rfl | ho
      · exact absurd (hdefines.1 hk) hsame
      · exact ih htail ho

theorem CastsSources.recast (h : CastsSources catalog files n ops ops' casts) :
    List.Forall₂ Operand.Recast ops ops' := by
  induction h with
  | done => exact .nil
  | kept _ _ ih => exact .cons (.inl rfl) ih
  | cast hmisfits _ _ ih => exact .cons (.inr ⟨_, _, hmisfits.1, rfl⟩) ih

theorem CastsSources.rewired (h : CastsSources catalog (lastFile? before) n ops ops' casts)
    {all : List Instruction} (hall : casts ⊆ all)
    (hnew : ∀ o ∈ casts, ∀ k, n ≤ k → o.Defines s!"r{k}" →
      (∀ i ∈ code, ¬ i.Defines s!"r{k}" ∧ s!"r{k}" ∉ i.virtualSources) ∧
        out.filter (·.Defines s!"r{k}") = [o]) :
    List.Forall₂ (Operand.Rewired catalog before code all out) ops ops' := by
  induction h with
  | done => exact .nil
  | kept hfits _ ih => exact .cons (.kept hfits) (ih hall hnew)
  | @cast n op ops ops' casts id source target o hmisfits hcast _ ih =>
    obtain ⟨ho, hall⟩ := List.cons_subset.1 hall
    obtain ⟨hfirst, hrest⟩ := List.forall_mem_cons.1 hnew
    obtain ⟨hfresh, honly⟩ := hfirst n (Nat.le_refl n) hcast.defines
    refine .cons (.cast hmisfits ho hcast hfresh honly) (ih hall fun o ho k hk => ?_)
    exact hrest o ho k (by omega)

namespace CastsCode

theorem keeps (h : CastsCode catalog before n code pieces) :
    List.Forall₂ (fun i p => i.Recast p.instruction) code pieces ∧ ∀ p ∈ pieces, p.after = [] := by
  induction h with
  | done => exact ⟨.nil, by simp⟩
  | cons hsources _ ih =>
    exact ⟨.cons ⟨_, hsources.recast, rfl⟩ ih.1, List.forall_mem_cons.2 ⟨rfl, ih.2⟩⟩

theorem numbered (h : CastsCode catalog before n code pieces) :
    Numbered catalog (List.range' n (pieces.flatMap Piece.inserted).length)
      (pieces.flatMap Piece.inserted) := by
  induction h with
  | done => exact .nil
  | @cons before n i sources casts rest pieces hsources _ ih =>
    rw [List.flatMap_cons, Piece.inserted, List.append_nil, List.length_append,
      ← List.range'_append_1]
    refine List.rel_append (hsources.numbered.imp ?_) ih
    rintro k o ⟨id, source, target, hcast, _⟩
    exact ⟨id, source, target, hcast⟩

theorem split (h : CastsCode catalog before n (front ++ i :: after) pieces) :
    ∃ ps sources casts qs k, n ≤ k ∧
      pieces = ps ++ { before := casts, instruction := { i with sources } } :: qs ∧
      CastsSources catalog (lastFile? (before ++ front)) k i.sources sources casts ∧
      CastsCode catalog before n front ps ∧
      CastsCode catalog (before ++ front ++ [i]) (k + casts.length) after qs := by
  induction front generalizing before n pieces with
  | nil =>
    cases h with
    | cons hsources hrest =>
      rw [List.append_nil]
      exact ⟨[], _, _, _, n, Nat.le_refl n, rfl, hsources, .done, hrest⟩
  | cons first front ih =>
    cases h with
    | cons hsources hrest =>
      obtain ⟨ps, sources, casts, qs, k, hk, rfl, hcasts, hfront, hafter⟩ := ih hrest
      simp only [List.append_assoc, List.singleton_append] at hcasts hafter ⊢
      exact ⟨_ :: ps, sources, casts, qs, k, by omega, rfl, hcasts, .cons hsources hfront, hafter⟩

end CastsCode

/-- The code with a cast for each source that does not fit. -/
structure CastsMisfits (catalog : Catalog) (code out : List Instruction) : Prop where
  typed : ∀ front o back, out = front ++ o :: back → o.TypedBetween catalog front back
  /-- Nothing else is put in, and nothing else changes. -/
  inserted : ∃ casts, (∀ o ∈ casts, ∃ fresh id, o.IsCast catalog fresh id) ∧
    Inserts Instruction.Recast code casts out
  /-- The casts of an instruction are in front of it or of the pointer label that waits for it. If it
  is a pointer label itself, the casts of the next one come between. -/
  placed : ∀ before i after, code = before ++ i :: after →
    ∃ lead casts label gap back sources new new',
    out = lead ++ casts ++ label ++ gap ++ { i with sources } :: back ∧
    List.Forall₂ (Operand.Rewired catalog before code casts out) i.sources sources ∧
    (∀ o ∈ casts ++ gap, ∃ fresh id, o.IsCast catalog fresh id) ∧
    label.length ≤ 1 ∧ (∀ l ∈ label, l.isPointerLabel) ∧ (i.isPointerLabel = false → gap = []) ∧
    Inserts Instruction.Recast before new (lead ++ label) ∧
    Inserts Instruction.Recast after new' (gap ++ back)

theorem Inserts.mem {keeps : Instruction → Instruction → Prop} (h : Inserts keeps code new out)
    (ho : o ∈ out) : o ∈ new ∨ ∃ i ∈ code, keeps i o := by
  induction h with
  | nil => cases ho
  | kept hkeeps _ ih =>
    rcases List.mem_cons.1 ho with rfl | ho
    · exact .inr ⟨_, List.mem_cons_self, hkeeps⟩
    · exact (ih ho).imp_right fun ⟨i, hi, hkeeps⟩ => ⟨i, List.mem_cons_of_mem _ hi, hkeeps⟩
  | new _ ih =>
    rcases List.mem_cons.1 ho with rfl | ho
    · exact .inl List.mem_cons_self
    · exact (ih ho).imp_left (List.mem_cons_of_mem _)

theorem CastsMisfits.typedBehind (h : CastsMisfits catalog code out)
    (hlabels : ∀ i ∈ code, i.isPointerLabel → i.virtualDestination? = none) :
    out = front ++ o :: back → o.TypedBehind front := by
  intro hout op hop id f g hid hf hg
  rcases h.typed front o back hout op hop id f g hid hf hg with hsame | ⟨_, hleads⟩
  · exact hsame
  obtain ⟨casts, label, rest, rfl, _, hpointer, hfile⟩ := hleads
  obtain ⟨new, hnew, hinserts⟩ := h.inserted
  rcases hinserts.mem (o := label) (by simp [hout]) with hmem | ⟨i, hi, sources, _, rfl⟩
  · obtain ⟨_, _, _, _, _, _, _, _, _, _, rfl⟩ := hnew label hmem
    cases hpointer
  · have hnot : ¬ i.Defines id := by simp [Instruction.Defines, hlabels i hi hpointer]
    rw [← Instruction.fileOf?_eq_none] at hnot
    exact absurd (hnot.symm.trans hfile) (by simp)

theorem CastsCode.castsMisfits (hcomplete : catalog.Complete)
    (h : CastsCode catalog [] n code pieces)
    (hcode : ∀ i ∈ code, ∀ id, i.Defines id ∨ id ∈ i.virtualSources → Below n id) :
    CastsMisfits catalog code (Piece.layout pieces) := by
  constructor
  · intro front o back hout
    have htyped : TypedAll catalog [] (Piece.layout pieces) [] :=
      h.typed hcomplete (Nat.le_refl n) hcode (fun _ _ => rfl) (Nat.zero_le 1) (by simp) (by simp)
        (by simp) typedAll_nil
    simpa using htyped front o back hout
  · refine ⟨_, fun o ho => ?_, Piece.layout_inserts h.keeps.1⟩
    obtain ⟨_, _, id, source, target, hcast⟩ := exists_of_forall₂ h.numbered ho
    exact ⟨_, id, source, target, hcast⟩
  · have hnumbered := h.numbered
    have hinserts := Piece.layout_inserts h.keeps.1
    have hnew : ∀ k, n ≤ k →
        ∀ i ∈ code, ¬ i.Defines s!"r{k}" ∧ s!"r{k}" ∉ i.virtualSources := by
      intro k hk i hi
      have hnot : ¬ Below n s!"r{k}" := by
        rw [FreshIds.below_value]
        omega
      exact ⟨fun hdef => hnot (hcode i hi _ (.inl hdef)), fun hid => hnot (hcode i hi _ (.inr hid))⟩
    have honly : ∀ k, n ≤ k → ∀ o ∈ pieces.flatMap Piece.inserted, o.Defines s!"r{k}" →
        (Piece.layout pieces).filter (·.Defines s!"r{k}") = [o] := by
      intro k hk o ho hdef
      rw [hinserts.filter_new fun i hi o hkeeps => ?_]
      · exact hnumbered.filter List.nodup_range' ho hdef
      · obtain ⟨_, _, rfl⟩ := hkeeps
        exact decide_eq_false (hnew k hk i hi).1
    rintro before i after rfl
    obtain ⟨ps, sources, casts, qs, m, hm, hpieces, hsources, hbefore, hafter⟩ := h.split
    rw [List.nil_append] at hsources hafter
    obtain ⟨hkeeps, hps⟩ := hbefore.keeps
    obtain ⟨lead, back, gap, hgap, hlead, hback, hout⟩ :=
      @Piece.layout_split ps qs { before := casts, instruction := { i with sources } } hps rfl
    obtain ⟨hlength, hlabels⟩ := Piece.waiting_labels (ps.map Piece.instruction)
    rw [hpieces] at honly ⊢
    refine ⟨lead, casts, _, gap, back, sources, _, _, hout, ?_, ?_, hlength, hlabels, ?_,
      hlead ▸ Piece.layout_inserts hkeeps, hback ▸ Piece.layout_inserts hafter.keeps.1⟩
    · refine hsources.rewired (List.Subset.refl _) fun o ho k hk hdef => ⟨hnew k (by omega), ?_⟩
      refine honly k (by omega) o ?_ hdef
      simp [Piece.inserted, ho]
    · intro o ho
      rcases List.mem_append.1 ho with ho | ho
      · obtain ⟨k, _, id, source, target, hcast, _⟩ := exists_of_forall₂ hsources.numbered ho
        exact ⟨_, id, source, target, hcast⟩
      · have hmem : o ∈ qs.flatMap Piece.inserted := by
          rw [hgap] at ho
          split at ho
          · cases hafter with
            | done => cases ho
            | cons => simpa [Piece.inserted] using Or.inl ho
          · cases ho
        obtain ⟨k, _, id, source, target, hcast⟩ := exists_of_forall₂ hafter.numbered hmem
        exact ⟨_, id, source, target, hcast⟩
    · intro hplain
      rw [hgap]
      exact if_neg (Bool.not_eq_true _ ▸ hplain)

end Placed

/-- Code whose ids are none of the next value ids gets the casts that it needs. -/
theorem insertCasts_types (hcatalog : Catalog.builtin xlen = .ok context.catalog)
    (hcode : ∀ i ∈ code, ∀ id, i.Defines id ∨ id ∈ i.virtualSources → Below s.ids.values id) :
    ∃ out s', insertCasts code context s = .ok out s' ∧ CastsMisfits context.catalog code out := by
  have hstock := Catalog.builtin_stocked hcatalog
  have hruns : (Produced.castAll {} code).Succeeds context s fun pieces _ =>
      CastsCode context.catalog [] s.ids.values code pieces :=
    Produced.castAll_runs hstock (Nat.le_refl _) (fun _ _ => rfl) fun i hi id hid =>
      hcode i hi id (.inr hid)
  obtain ⟨pieces, s', hrun, hcasts⟩ := hruns
  have hcomplete := Catalog.builtin_complete hcatalog
  refine ⟨Piece.layout pieces, s', ?_, hcasts.castsMisfits hcomplete hcode⟩
  simp only [insertCasts, Lower.bind_ok, Lower.pure_ok]
  exact ⟨pieces, s', hrun, rfl, rfl⟩

def Operand.naming (slot : Slot) (type : OperandType) (id : Id) : Operand :=
  { slot, type, value := .virtual id }

/-- A value that is loaded, converted under its own id, and multiplied behind a pointer label, and a
sum that needs it twice in the other file. -/
def convertedProduct : List Instruction :=
  let op (slot : Slot) (file : RegisterFile) (id : Id) := Operand.naming slot (.register file) id
  [{ id := "x", name := "li", category := .pseudo, destination := some (op .rd .gpr "x"),
     sources := [{ slot := .imm, type := .imm, value := .imm 3 }] },
   { id := "c", name := "fcvt.s.w", category := .cast, destination := some (op .rd .fpr "x"),
     sources := [op .rs1 .gpr "x"] },
   .label "fault" "fault_label_0" true,
   { id := "y", name := "fmul.s", category := .arithmetic, destination := some (op .rd .fpr "y"),
     sources := [op .rs1 .fpr "x", op .rs2 .fpr "x"] },
   { id := "z", name := "add", category := .arithmetic, destination := some (op .rd .gpr "z"),
     sources := [op .rs1 .gpr "x", op .rs2 .gpr "x"] }]

theorem below_zeroState (code : List Instruction)
    (h : ∀ i ∈ code, ∀ id ∈ i.virtualDestination?.toList ++ i.virtualSources,
      id.toList.head? ≠ some 'r') :
    ∀ i ∈ code, ∀ id, i.Defines id ∨ id ∈ i.virtualSources → Below zeroState.ids.values id := by
  intro i hi id hid
  refine FreshIds.below_of_initial (h i hi id ?_)
  rwa [List.mem_append, Option.mem_toList]

theorem convertedProduct_types : Catalog.builtin .rv64 = .ok .rv64 ∧
    (∀ i ∈ convertedProduct, ∀ id, i.Defines id ∨ id ∈ i.virtualSources →
      Below zeroState.ids.values id) ∧
    ∃ out s', insertCasts convertedProduct (standardContext .rv64) zeroState = .ok out s' ∧
      CastsMisfits .rv64 convertedProduct out ∧
      ∀ front o back, out = front ++ o :: back → o.TypedBehind front := by
  have hcatalog : Catalog.builtin .rv64 = .ok (standardContext .rv64).catalog :=
    Catalog.builtin_rv64
  have hcode := below_zeroState convertedProduct (by decide)
  obtain ⟨out, s', hrun, hcasts⟩ := insertCasts_types hcatalog hcode
  exact ⟨Catalog.builtin_rv64, hcode, out, s', hrun, hcasts, fun _ _ _ =>
    hcasts.typedBehind (by decide)⟩

/-- A pointer label that defines an id again in the other file. -/
def labelOfX : Instruction :=
  { Instruction.label "fault" "fault_label_0" true with
    destination := some (.naming .rd (.register .fpr) "x") }

def copyOf (id : Id) : Instruction :=
  { id := "y", name := "mv", category := .pseudo,
    destination := some (.naming .rd (.register .gpr) "y"),
    sources := [.naming .rs1 (.register .gpr) id] }

def loadOfX : Instruction :=
  { id := "x", name := "li", category := .pseudo,
    destination := some (.naming .rd (.register .gpr) "x"),
    sources := [{ slot := .imm, type := .imm, value := .imm 1 }] }

def sumOfId (id : Id) : Instruction :=
  { id := "y", name := "addi", category := .arithmetic,
    destination := some (.naming .rd (.register .gpr) "y"),
    sources := [.naming .rs1 (.register .gpr) id, .naming .imm .imm id] }

/-- A cast in front of a label does not read what the label defines, and operands that are no
registers are not cast. -/
theorem insertCasts_leaves_misfits :
    (¬ ∀ (context : Context) (s : State) (code : List Instruction),
      Catalog.builtin .rv64 = .ok context.catalog →
      (∀ i ∈ code, ∀ id, i.Defines id ∨ id ∈ i.virtualSources → Below s.ids.values id) →
      ∃ out s', insertCasts code context s = .ok out s' ∧
        ∀ front o back, out = front ++ o :: back → o.TypedBehind front) ∧
    ¬ ∀ (context : Context) (s s' : State) (before after out : List Instruction) (i : Instruction)
      (op : Operand) (id : Id) (f : RegisterFile),
      Catalog.builtin .rv64 = .ok context.catalog →
      (∀ j ∈ before ++ i :: after, ∀ id, j.Defines id ∨ id ∈ j.virtualSources →
        Below s.ids.values id) →
      op ∈ i.sources → op.value = .virtual id → lastFile? before id = some f →
      op.type ≠ .register f → insertCasts (before ++ i :: after) context s = .ok out s' →
      out ≠ before ++ i :: after := by
  have hcatalog : Catalog.builtin .rv64 = .ok (standardContext .rv64).catalog :=
    Catalog.builtin_rv64
  constructor
  · intro hall
    obtain ⟨out, s', hrun, htyped⟩ := hall (standardContext .rv64) zeroState
      [loadOfX, labelOfX, copyOf "x"] hcatalog (below_zeroState _ (by decide))
    let cast : Instruction :=
      { id := "r0", name := "fmv.x.w", category := .cast, extension := .single,
        destination := some (.naming .rd (.register .gpr) "r0"),
        sources := [.naming .rs1 (.register .fpr) "x"] }
    have hresult : (insertCasts [loadOfX, labelOfX, copyOf "x"]).result?
        (standardContext .rv64) zeroState = some [loadOfX, cast, labelOfX, copyOf "r0"] := by
      decide +kernel
    obtain rfl := Option.some.inj ((Lower.result?_eq_some.2 ⟨s', hrun⟩).symm.trans hresult)
    have hsame := htyped [loadOfX] cast [labelOfX, copyOf "r0"] rfl _ List.mem_cons_self "x"
      .fpr .gpr rfl rfl rfl
    cases hsame
  · intro hall
    have hresult : (insertCasts [loadOfX, sumOfId "x"]).result? (standardContext .rv64) zeroState =
        some [loadOfX, sumOfId "x"] := by decide +kernel
    obtain ⟨s', hrun⟩ := Lower.result?_eq_some.1 hresult
    exact hall (standardContext .rv64) zeroState s' [loadOfX] [] _ (sumOfId "x")
      (.naming .imm .imm "x") "x" .gpr hcatalog (below_zeroState _ (by decide)) (by decide) rfl rfl
      (by decide) hrun rfl

end PlanLowering
