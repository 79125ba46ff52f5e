import PlanLowering.Proofs.SingleFiled

/-!
# Files of ids in legal code

Casts read an id from the file that it was defined in and give it a new name in the other one. Code
that defines each id in one file has one file for each id afterwards, and reads it there.
-/

namespace PlanLowering

open FreshIds (Below)

/-- Every source is defined further up, or known at the start. -/
def DefinedFrom (known : Id → Prop) : List Instruction → Prop
  | [] => True
  | i :: rest => (∀ id ∈ i.virtualSources, known id) ∧
      DefinedFrom (fun id => i.Defines id ∨ known id) rest

def Operand.Agrees (files : Produced) (op : Operand) : Prop :=
  ∀ id f, op.virtual? = some id → op.type.file? = some f → files.get? id = some f

def Instruction.Agrees (files : Produced) (i : Instruction) : Prop :=
  ∀ op ∈ i.operands, op.Agrees files

variable {context : Context} {state state' : State} {code out a b : List Instruction}
variable {pieces : List Piece} {i o : Instruction} {op : Operand} {id fresh consumer : Id}
variable {catalog : Catalog} {f source target : RegisterFile} {n : Nat}

namespace Instruction

theorem agrees_of_no_operand {files : Produced} (h : i.operands = []) : i.Agrees files := by
  simp [Agrees, h]

theorem Agrees.get? {files : Produced} (h : i.Agrees files) (hdef : i.DefinesIn id f) :
    files.get? id = some f := by
  obtain ⟨op, hop, hid, hf⟩ := hdef
  exact h op (List.mem_append_left _ (Option.mem_toList.2 hop)) id f hid hf

theorem Recast.no_operand (h : i.Recast o) (hi : i.operands = []) : o.operands = [] := by
  obtain ⟨sources, hsources, rfl⟩ := h
  simp only [operands, List.append_eq_nil_iff] at hi ⊢
  rw [hi.2, List.forall₂_nil_left_iff] at hsources
  exact ⟨hi.1, hsources⟩

theorem Recast.keepsFiles (h : i.Recast o) (hi : i.KeepsFiles) : o.KeepsFiles := by
  intro op hop f r hf hr
  rcases List.mem_append.1 hop with hop | hop
  · obtain ⟨sources, _, rfl⟩ := h
    exact hi op (List.mem_append_left _ hop) f r hf hr
  · obtain ⟨op', hop', hrecast⟩ := h.source hop
    rcases hrecast with rfl | ⟨_, fresh, _, rfl⟩
    · exact hi op (List.mem_append_right _ hop') f r hf hr
    · cases hr

end Instruction

namespace DefinedFrom

variable {known known' : Id → Prop}

theorem mono (h : DefinedFrom known code) (hsub : ∀ id, known id → known' id) :
    DefinedFrom known' code := by
  induction code generalizing known known' with
  | nil => trivial
  | cons i rest ih =>
    obtain ⟨hreads, hrest⟩ := h
    exact ⟨fun id hid => hsub id (hreads id hid), ih hrest fun id => Or.imp_right (hsub id)⟩

theorem of_append (h : DefinedFrom known (a ++ b)) :
    DefinedFrom (fun id => (∃ i ∈ a, i.Defines id) ∨ known id) b := by
  induction a generalizing known with
  | nil => exact h.mono fun _ => .inr
  | cons i rest ih =>
    refine (ih h.2).mono fun id hid => ?_
    rcases hid with ⟨j, hj, hdef⟩ | hdef | hid
    · exact .inl ⟨j, List.mem_cons_of_mem _ hj, hdef⟩
    · exact .inl ⟨i, List.mem_cons_self, hdef⟩
    · exact .inr hid

end DefinedFrom

namespace Produced

def Grows (files files' : Produced) : Prop :=
  ∀ id f, files.get? id = some f → files'.get? id = some f

/-- Files of ids up to number `m`. An id below `n` is defined in its file by the code. -/
structure Tracks (code : List Instruction) (n m : Nat) (produced : Produced) : Prop where
  below : ∀ id f, produced.get? id = some f → Below m id
  defined : ∀ id f, produced.get? id = some f → Below n id → ∃ i ∈ code, i.DefinesIn id f

variable {produced produced' files files' : Produced} {ops ops' : List Operand}
variable {before held : List Instruction}

theorem Grows.refl (files : Produced) : files.Grows files := fun _ _ h => h

theorem Grows.trans {files'' : Produced} (h : files.Grows files') (h' : files'.Grows files'') :
    files.Grows files'' :=
  fun id f hf => h' id f (h id f hf)

theorem Grows.operand (h : files.Grows files') (hop : op.Agrees files) : op.Agrees files' :=
  fun id f hid hf => h id f (hop id f hid hf)

theorem Grows.agrees (h : files.Grows files') (hi : i.Agrees files) : i.Agrees files' :=
  fun op hop => h.operand (hi op hop)

namespace Tracks

variable {m : Nat} (h : produced.Tracks code n m)
include h

theorem grows_insert (f : RegisterFile) : produced.Grows (produced.insert s!"r{m}" f) := by
  intro id g hg
  have hne : id ≠ s!"r{m}" := by
    rintro rfl
    exact absurd (FreshIds.below_value.1 (h.below _ _ hg)) (Nat.lt_irrefl m)
  rw [IdMap.get?_insert, if_neg hne, hg]

theorem insert (hle : n ≤ m) (f : RegisterFile) :
    Tracks code n (m + 1) (produced.insert s!"r{m}" f) := by
  have hcases : ∀ id g, (IdMap.insert produced s!"r{m}" f).get? id = some g →
      id = s!"r{m}" ∨ produced.get? id = some g := by
    intro id g hg
    rw [IdMap.get?_insert] at hg
    split at hg
    · next hid => exact .inl hid
    · exact .inr hg
  constructor
  · intro id g hg
    rcases hcases id g hg with rfl | hg
    · exact FreshIds.below_value.2 (Nat.lt_succ_self m)
    · exact (h.below id g hg).mono (Nat.le_succ m)
  · intro id g hg hbelow
    rcases hcases id g hg with rfl | hg
    · exact absurd (FreshIds.below_value.1 hbelow) (Nat.not_lt.2 hle)
    · exact h.defined id g hg hbelow

end Tracks

/-- A source that is not cast is of the file its id was defined in. -/
theorem mismatch_eq_none (h : produced.mismatch? op = none) (hid : op.virtual? = some id)
    (hf : op.type.file? = some f) (hg : produced.get? id = some g) : g = f := by
  simpa [mismatch?, hid, hf, hg] using h

theorem get?_define_of_definesIn (h : i.DefinesIn id f) :
    (produced.define i).get? id = some f := by
  obtain ⟨op, hop, hid, hf⟩ := h
  rw [Option.mem_def] at hop
  simp [define, hop, hid, hf]

theorem get?_define_of_not_defines (h : ¬ i.Defines id) :
    (produced.define i).get? id = produced.get? id := by
  unfold define
  split
  · rfl
  · next op hop =>
    split
    · next key file hkey _ =>
      have hne : id ≠ key := by
        rintro rfl
        exact h (by simp [Instruction.Defines, Instruction.virtualDestination?, hop, hkey])
      rw [IdMap.get?_insert, if_neg hne]
    · rfl

theorem get?_define (h : (produced.define i).get? id = some f) :
    i.DefinesIn id f ∨ produced.get? id = some f := by
  by_cases hdef : i.Defines id
  · obtain ⟨g, hg⟩ := hdef.definesIn
    rw [get?_define_of_definesIn hg] at h
    exact .inl (Option.some.inj h ▸ hg)
  · rw [get?_define_of_not_defines hdef] at h
    exact .inr h

section Define

variable {m : Nat} (h : produced.Tracks code n m) (hi : i ∈ code) (hplain : i.Plain n)
include h hi hplain

/-- Code that defines each id in one file changes no file that is known. -/
theorem Tracks.grows_define (hsingle : SingleFiled code) : produced.Grows (produced.define i) := by
  intro id g hg
  by_cases hdef : i.Defines id
  · obtain ⟨f, hf⟩ := hdef.definesIn
    obtain ⟨j, hj, hjdef⟩ := h.defined id g hg (hplain.below_of_defines hdef)
    rw [get?_define_of_definesIn hf, hsingle i hi j hj id f g hf hjdef]
  · rw [get?_define_of_not_defines hdef, hg]

theorem Tracks.define (hle : n ≤ m) : (produced.define i).Tracks code n m where
  below id f hf := by
    rcases get?_define hf with hdef | hold
    · exact (hplain.below_of_defines hdef.defines).mono hle
    · exact h.below id f hold
  defined id f hf hbelow := by
    rcases get?_define hf with hdef | hold
    · exact ⟨i, hi, hdef⟩
    · exact h.defined id f hold hbelow

end Define

end Produced

section Casts

theorem Catalog.Complete.cast_fields {t : Template} (hcomplete : catalog.Complete)
    (ht : t ∈ catalog.filter (.cast (.register source) (.register target))) :
    t.destination = some target ∧
      ∀ slot file, (slot, .register file) ∈ t.sources → file = source := by
  have hasked : (TemplateFilter.cast (.register source) (.register target)).category =
      some .cast := rfl
  obtain ⟨hmem, hcategory⟩ := mem_filter_category hasked ht
  have haccepts := (List.mem_filter.1 ht).2
  simp only [TemplateFilter.accepts, TemplateFilter.cast, Bool.and_eq_true, Option.all_some,
    decide_eq_true_eq] at haccepts
  obtain ⟨⟨_, hsource⟩, hdest⟩ := haccepts
  have hslots := hcomplete.drawn t hmem (by simp [hcategory, Category.drawn])
  have hrs1 : ∀ slot file, (slot, .register file) ∈ t.sources → slot = .rs1 := by
    intro slot file hfield
    have hslot : slot ∈ [.rd, .rs1] := by
      have hwired := hslots (List.mem_map_of_mem (List.mem_append_right _ hfield))
      rwa [hcategory] at hwired
    have hadmits := hcomplete.typed t hmem _ hfield
    rcases List.mem_pair.1 hslot with rfl | rfl
    · simp [Slot.admits] at hadmits
    · rfl
  constructor
  · cases hfile : t.destination <;> simp_all [Template.instruction]
  · intro slot file hfield
    obtain ⟨op, hfind, htype⟩ := Option.map_eq_some_iff.1 hsource
    obtain ⟨field, hmemField, rfl⟩ := List.mem_map.1 (List.mem_of_find?_eq_some hfind)
    have hfirst : (field.1, .register source) ∈ t.sources := htype ▸ hmemField
    have hsame := List.inj_on_of_nodup_map t.nodup hfield hfirst
      ((hrs1 _ _ hfield).trans (hrs1 _ _ hfirst).symm)
    exact OperandType.register.inj (congrArg Prod.snd hsame)

namespace Produced

variable (hcomplete : context.catalog.Complete)
include hcomplete

theorem cast_agrees
    (h : cast source target id consumer context state = .ok (fresh, i) state')
    (hsource : produced.get? id = some source) (htarget : produced.get? fresh = some target) :
    i.Agrees produced := by
  obtain ⟨⟨t, ht, hdrawn⟩, _⟩ := cast_drawn h
  obtain ⟨hdest, hfields⟩ := hcomplete.cast_fields ht
  have hshaped := hdrawn.shaped_of_mem (List.mem_filter.1 ht).1 rfl
  intro op hop x f hx hf
  have hvalue := Operand.value_of_virtual hx
  rcases List.mem_append.1 hop with hop | hop
  · rw [Option.mem_toList] at hop
    rw [hdrawn.target op hop] at hvalue
    have hfield := hshaped.destination
    rw [Option.mem_def.1 hop, hdest, Option.map_some, Option.map_some, Option.some.injEq,
      Prod.mk.injEq] at hfield
    rw [hfield.2] at hf
    rw [← OperandValue.virtual.inj hvalue, htarget]
    exact hf
  · have hsupplied := hdrawn.sources op hop
    rw [hvalue] at hsupplied
    rcases hsupplied with hunset | hid
    · cases hunset
    · rw [OperandValue.virtual.inj hid, hsource]
      have hfield : (op.slot, .register f) ∈ t.sources := by
        rw [← hshaped.sources, ← OperandType.eq_register hf]
        exact List.mem_map_of_mem hop
      rw [hfields _ _ hfield]

structure Casts (code : List Instruction) (n m : Nat) (produced produced' : Produced)
    (before : List Instruction) (sources : List Operand) : Prop where
  tracks : produced'.Tracks code n m
  grows : produced.Grows produced'
  kept : ∀ id, Below n id → produced'.get? id = produced.get? id
  casts : ∀ o ∈ before, o.Agrees produced'
  sources : ∀ op ∈ sources, (∀ id, op.virtual? = some id → ∃ f, produced'.get? id = some f) →
    op.Agrees produced'

theorem castSources_casts (hcount : n ≤ state.ids.values)
    (htracks : produced.Tracks code n state.ids.values)
    (hops : ∀ op ∈ ops, ∀ id, op.virtual? = some id → Below n id)
    (h : castSources consumer produced ops context state = .ok (ops', before, produced') state') :
    Casts code n state'.ids.values produced produced' before ops' := by
  replace h := castSources_ok h
  induction h with
  | done => exact ⟨htracks, .refl _, fun _ _ => rfl, by simp, by simp⟩
  | @kept produced _ _ _ _ _ _ _ hmatch _ ih =>
    obtain ⟨hop, hrest⟩ := List.forall_mem_cons.1 hops
    have hmore := ih hcount htracks hrest
    refine { hmore with sources := List.forall_mem_cons.2 ⟨fun hknown => ?_, hmore.sources⟩ }
    intro id f hid hf
    obtain ⟨g, hg⟩ := hknown id hid
    have hold : produced.get? id = some g := hmore.kept id (hop id hid) ▸ hg
    rw [hg, mismatch_eq_none hmatch hid hf hold]
  | @cast _ _ _ s _ _ target _ _ _ _ _ final _ hmismatch hcast _ ih =>
    obtain ⟨_, hrest⟩ := List.forall_mem_cons.1 hops
    obtain ⟨_, hfile, hsource⟩ := mismatch_eq_some hmismatch
    obtain ⟨_, rfl, hvalues⟩ := cast_drawn hcast
    have hfresh := htracks.insert hcount target
    rw [← hvalues] at hfresh
    have hmore := ih (by omega) hfresh hrest
    have hnew : final.get? s!"r{s.ids.values}" = some target := hmore.grows _ _ (by simp)
    have hgrows := (htracks.grows_insert target).trans hmore.grows
    refine ⟨hmore.tracks, hgrows, fun key hkey => ?_, ?_, ?_⟩
    · have hne : key ≠ s!"r{s.ids.values}" := by
        rintro rfl
        exact absurd (FreshIds.below_value.1 hkey) (Nat.not_lt.2 hcount)
      rw [hmore.kept key hkey, IdMap.get?_insert, if_neg hne]
    · exact List.forall_mem_cons.2
        ⟨cast_agrees hcomplete hcast (hgrows _ _ hsource) hnew, hmore.casts⟩
    · refine List.forall_mem_cons.2 ⟨fun _ key f hkey hf => ?_, hmore.sources⟩
      obtain rfl := OperandValue.virtual.inj (Operand.value_of_virtual hkey)
      rw [hnew]
      exact hfile.symm.trans hf

namespace Casts

variable {m : Nat} {sources : List Operand}
omit hcomplete
variable (h : Casts code n m produced produced' before sources)
include h

theorem known (hheld : ∀ o ∈ held, o.operands = [])
    (hid : (∃ o ∈ before ++ held, o.Defines id) ∨ ∃ f, produced.get? id = some f) :
    ∃ f, produced'.get? id = some f := by
  obtain ⟨o, ho, hdef⟩ | ⟨f, hf⟩ := hid
  · obtain ⟨f, hf⟩ := hdef.definesIn
    refine ⟨f, Instruction.Agrees.get? ?_ hf⟩
    rcases List.mem_append.1 ho with ho | ho
    · exact h.casts o ho
    · exact Instruction.agrees_of_no_operand (hheld o ho)
  · exact ⟨f, h.grows id f hf⟩

theorem front (hheld : ∀ o ∈ held, o.operands = []) (hfiles : produced'.Grows files) :
    ∀ o ∈ before ++ held, o.Agrees files := by
  intro o ho
  rcases List.mem_append.1 ho with ho | ho
  · exact hfiles.agrees (h.casts o ho)
  · exact Instruction.agrees_of_no_operand (hheld o ho)

theorem own (hgrows : produced'.Grows files) (hfiles : (produced'.define i).Grows files)
    (hreads : ∀ id ∈ Instruction.virtualSources { i with sources },
      ∃ f, produced'.get? id = some f) : Instruction.Agrees files { i with sources } := by
  intro op hop
  rcases List.mem_append.1 hop with hop | hop
  · exact fun id f hid hf => hfiles id f <|
      get?_define_of_definesIn ⟨op, Option.mem_toList.1 hop, hid, hf⟩
  · exact hgrows.operand <| h.sources op hop fun id hid =>
      hreads id (List.mem_filterMap.2 ⟨op, hop, hid⟩)

end Casts

theorem castAll_agrees {all : List Instruction} (hplain : ∀ i ∈ all, i.Plain n)
    (hsingle : SingleFiled all) (hcode : code ⊆ all) (hcount : n ≤ state.ids.values)
    (htracks : produced.Tracks all n state.ids.values) (hheld : ∀ o ∈ held, o.operands = [])
    (h : castAll produced code context state = .ok pieces state')
    (hdefined : DefinedFrom (fun id => ∃ f, produced.get? id = some f) (Piece.place held pieces)) :
    ∃ files : Produced, produced.Grows files ∧ ∀ o ∈ Piece.place held pieces, o.Agrees files := by
  replace h := castAll_ok h
  induction h generalizing held with
  | @done produced _ =>
    rw [Piece.place]
    exact ⟨produced, .refl _, fun o ho => Instruction.agrees_of_no_operand (hheld o ho)⟩
  | @next _ i rest _ sources before cast mid more _ hsources _ ih =>
    obtain ⟨hi, hrest⟩ := List.cons_subset.1 hcode
    have hcasts := castSources_casts hcomplete hcount htracks
      (fun op hop => (hplain i hi).below op (List.mem_append_right _ hop)) hsources
    have hle : n ≤ mid.ids.values := Nat.le_trans hcount <|
      Lower.castSources_moves (R := Lower.CountsOn) _ _ _ _ _ _ _ hsources
    have hnext := hcasts.tracks.define hi (hplain i hi) hle
    have hgrows := hcasts.tracks.grows_define hi (hplain i hi) hsingle
    rw [Piece.place] at hdefined ⊢
    have hbehind := hdefined.of_append.mono fun id => hcasts.known hheld
    split at hbehind
    -- A label that stands for a pointer goes behind the casts of the next instruction.
    · next hpointer =>
      have hempty : Instruction.operands { i with sources } = [] :=
        Instruction.Recast.no_operand ⟨sources, (castSources_recast hsources).1, rfl⟩
          ((hplain i hi).pointer hpointer.1)
      obtain ⟨files, hfiles, hall⟩ := ih hrest hle hnext (List.forall_mem_singleton.2 hempty)
        (hbehind.mono fun id hid => hid.imp fun f hf => hgrows id f hf)
      refine ⟨files, hcasts.grows.trans (hgrows.trans hfiles), ?_⟩
      rw [if_pos hpointer]
      exact List.forall_mem_append.2 ⟨hcasts.front hheld (hgrows.trans hfiles), hall⟩
    · next hpointer =>
      obtain ⟨hreads, hbehind⟩ := hbehind
      have hdefined : DefinedFrom (fun id => ∃ f, (cast.define i).get? id = some f)
          (Piece.place [] more) := hbehind.mono fun id hid => by
        rcases hid with hdef | ⟨f, hf⟩
        · obtain ⟨f, hf⟩ := hdef.definesIn
          exact ⟨f, get?_define_of_definesIn hf⟩
        · exact ⟨f, hgrows id f hf⟩
      obtain ⟨files, hfiles, hall⟩ := ih hrest hle hnext (by simp) hdefined
      refine ⟨files, hcasts.grows.trans (hgrows.trans hfiles), ?_⟩
      rw [if_neg hpointer, List.forall_mem_append]
      exact ⟨hcasts.front hheld (hgrows.trans hfiles),
        List.forall_mem_cons.2 ⟨hcasts.own (hgrows.trans hfiles) hfiles hreads, hall⟩⟩

end Produced
end Casts

/-- In legal code each id has one file, and registers are where they belong. -/
theorem legalize_agrees (hcomplete : context.catalog.Complete) (hfiled : context.catalog.Filed)
    (hcode : ∀ i ∈ code, i.Owned n) (hcount : n ≤ state.ids.values)
    (h : legalize code context state = .ok out state')
    (hdefined : DefinedFrom (fun _ => False) out) :
    ∃ files : Produced, ∀ o ∈ out, o.Agrees files ∧ o.KeepsFiles := by
  have hfiles : ∀ o ∈ out, o.KeepsFiles := by
    intro o ho
    rcases mem_legalize hcomplete.typed h ho with ⟨i, hi, hrecast⟩ | hauxiliary
    · exact hrecast.keepsFiles (hcode i hi).files
    · exact hauxiliary.keepsFiles
  obtain ⟨resolved, mid, pieces, hresolved, hpieces, rfl⟩ := legalize_ok h
  have hmoves : state.ids.values ≤ mid.ids.values :=
    Lower.resolve_moves (R := Lower.CountsOn) _ _ _ _ _ _ hresolved
  obtain ⟨hplain, hsingle⟩ :=
    Seen.resolve_singleFiled hcomplete.typed hfiled hcode (List.Subset.refl _) hresolved
  obtain ⟨files, _, hagrees⟩ := Produced.castAll_agrees hcomplete (fun o ho => (hplain o ho).1)
    hsingle (List.Subset.refl _) (Nat.le_trans hcount hmoves)
    ⟨by simp, by simp⟩ (by simp) hpieces (hdefined.mono fun _ => False.elim)
  exact ⟨files, fun o ho => ⟨hagrees o ho, hfiles o ho⟩⟩

end PlanLowering
