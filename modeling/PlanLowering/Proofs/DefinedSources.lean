import PlanLowering.Proofs.FunctionCode
import PlanLowering.Proofs.Insertion
import PlanLowering.Proofs.Interval
import PlanLowering.Proofs.LegalFiles
import PlanLowering.Proofs.Rv64Catalog

/-!
# Sources of legal code

Legalization loads a random value into each id that is read and counts as undefined. The name of an
instruction counts as a definition there, and nowhere else. So all sources of legal code are defined
unless the code reads a name that nothing defines, and then they are not.
-/

namespace PlanLowering

open FreshIds (Below)

variable {context : Context} {state state' : State} {code out a b before : List Instruction}
variable {pieces : List Piece} {i o : Instruction} {id fresh consumer : Id}
variable {known known' named : Id → Prop} {catalog : Catalog}

/-- The id is the destination of one of the instructions. -/
def DefinedBy (code : List Instruction) (id : Id) : Prop := ∃ i ∈ code, i.Defines id

/-- Pointer labels name no value. -/
def BareLabels (code : List Instruction) : Prop :=
  ∀ i ∈ code, i.isPointerLabel → i.virtualSources = [] ∧ i.virtualDestination? = none

/-- An id that is read without having been defined or read before is no instruction's name. -/
def ReadsNoName (known named : Id → Prop) : List Instruction → Prop
  | [] => True
  | i :: rest => (∀ id ∈ i.virtualSources, named id → known id) ∧
      ReadsNoName (fun id => i.Defines id ∨ id ∈ i.virtualSources ∨ known id)
        (fun id => id = i.id ∨ named id) rest

namespace DefinedFrom

theorem congr (h : ∀ id, known id ↔ known' id) : DefinedFrom known code ↔ DefinedFrom known' code :=
  ⟨fun hcode => hcode.mono fun id => (h id).1, fun hcode => hcode.mono fun id => (h id).2⟩

theorem append : DefinedFrom known (a ++ b) ↔
    DefinedFrom known a ∧ DefinedFrom (fun id => DefinedBy a id ∨ known id) b := by
  induction a generalizing known with
  | nil => simp [DefinedFrom, DefinedBy]
  | cons i rest ih =>
    rw [List.cons_append, DefinedFrom, DefinedFrom, ih, and_assoc]
    refine and_congr_right fun _ => and_congr_right fun _ => congr fun id => ?_
    rw [DefinedBy, DefinedBy, List.exists_mem_cons_iff, or_assoc, or_left_comm]

theorem of_idle (h : ∀ i ∈ code, i.virtualSources = []) : DefinedFrom known code := by
  induction code generalizing known with
  | nil => trivial
  | cons i rest ih =>
    obtain ⟨hi, hrest⟩ := List.forall_mem_cons.1 h
    exact ⟨by simp [hi], ih hrest⟩

end DefinedFrom

section Layout

def Piece.whole (p : Piece) : List Instruction := p.before ++ p.instruction :: p.after

/-- Labels that are held back name no value, so nothing is read too early for them. -/
theorem Piece.place_definedFrom (hlabels : BareLabels (pieces.map instruction))
    {held : List Instruction}
    (hheld : ∀ i ∈ held, i.virtualSources = [] ∧ i.virtualDestination? = none) :
    DefinedFrom known (place held pieces) ↔ DefinedFrom known (pieces.flatMap whole) := by
  induction pieces generalizing held known with
  | nil =>
    have hidle : DefinedFrom known held := .of_idle fun i hi => (hheld i hi).1
    simpa [place, DefinedFrom] using hidle
  | cons p rest ih =>
    have ih := fun {known held} => @ih known (fun i hi => hlabels i (List.mem_cons_of_mem _ hi)) held
    have hskip (known : Id → Prop) (code : List Instruction) :
        DefinedFrom known (held ++ code) ↔ DefinedFrom known code := by
      have hdefines : ∀ id, ¬ DefinedBy held id := by
        rintro id ⟨i, hi, hdef⟩
        rw [Instruction.Defines, (hheld i hi).2] at hdef
        cases hdef
      rw [DefinedFrom.append, and_iff_right (.of_idle fun i hi => (hheld i hi).1)]
      simp [hdefines]
    rw [place, List.flatMap_cons, Piece.whole, List.append_assoc, List.append_assoc,
      DefinedFrom.append, DefinedFrom.append (b := _ ++ _), hskip]
    refine and_congr_right fun _ => ?_
    split
    · next hlabel =>
      obtain ⟨hsources, hdest⟩ := hlabels p.instruction List.mem_cons_self hlabel.1
      have hdefines : ∀ id, ¬ p.instruction.Defines id := by simp [Instruction.Defines, hdest]
      rw [ih (by simp [hsources, hdest]), hlabel.2]
      simp [DefinedFrom, hsources, hdefines]
    · rw [DefinedFrom.append, DefinedFrom.append, ih (by simp)]

theorem Piece.layout_definedFrom (hlabels : BareLabels (pieces.map instruction)) :
    DefinedFrom known (layout pieces) ↔ DefinedFrom known (pieces.flatMap whole) :=
  place_definedFrom hlabels (by simp)

end Layout

section Wired

variable {t : Template} {source : Operand → Bool} {value : OperandValue}

theorem Instruction.WiredFrom.defines (h : o.WiredFrom t source value id) : o.Defines id := by
  obtain ⟨op, sources, hop, _, rfl⟩ := h
  obtain ⟨file, _, rfl⟩ := Option.map_eq_some_iff.1 hop
  rfl

theorem Instruction.WiredFrom.reads (h : o.WiredFrom t source value id) :
    ∀ key ∈ o.virtualSources, value = .virtual key := by
  obtain ⟨op, sources, _, hsources, rfl⟩ := h
  obtain ⟨front, found, back, hsplit, _, _, rfl⟩ := setFirst_eq_some hsources
  have hunset : ∀ op ∈ front ++ found :: back, op.value = .unset := by
    intro op hop
    rw [← hsplit] at hop
    obtain ⟨_, _, rfl⟩ := List.mem_map.1 hop
    rfl
  intro key hkey
  obtain ⟨op, hop, hid⟩ := List.mem_filterMap.1 hkey
  have hvalue := Operand.value_of_virtual hid
  simp only [List.mem_append, List.mem_cons] at hop hunset
  rcases hop with hop | rfl | hop
  · rw [hunset op (.inl hop)] at hvalue
    cases hvalue
  · exact hvalue
  · rw [hunset op (.inr (.inr hop))] at hvalue
    cases hvalue

end Wired

section Resolve

theorem Seen.materialize_defines {seen seen' : Seen} {ids : List Id}
    (h : seen.materialize ids context state = .ok (before, seen') state') :
    (∀ o ∈ before, o.virtualSources = []) ∧
      (∀ id, DefinedBy before id ↔ id ∈ ids ∧ id ∉ seen.defined) ∧
      ∀ id, id ∈ seen'.defined ↔ id ∈ ids ∨ id ∈ seen.defined := by
  replace h := materialize_ok h
  induction h with
  | done => simp [DefinedBy]
  | known hdefined _ ih =>
    obtain ⟨hidle, hdefines, hseen⟩ := ih
    refine ⟨hidle, fun key => ?_, fun key => ?_⟩
    · rw [hdefines]
      grind
    · rw [hseen]
      grind
  | @load _ id _ _ li _ _ _ _ hnew hli _ ih =>
    obtain ⟨hidle, hdefines, hseen⟩ := ih
    obtain ⟨t, value, _, hwired⟩ := Lower.randomValue_isLi hli
    have hreads : li.virtualSources = [] := by
      rw [List.eq_nil_iff_forall_not_mem]
      intro key hkey
      cases hwired.reads key hkey
    have hdef : ∀ key, li.Defines key ↔ key = id := by
      intro key
      rw [Instruction.Defines, show li.virtualDestination? = some id from hwired.defines]
      grind
    refine ⟨List.forall_mem_cons.2 ⟨hreads, hidle⟩, fun key => ?_, fun key => ?_⟩
    · rw [DefinedBy, List.exists_mem_cons_iff, hdef, ← DefinedBy, hdefines]
      grind
    · rw [hseen]
      grind

theorem Instruction.mem_define {seen : Seen} {key : Id} : key ∈ (seen.define i).defined ↔
    i.Defines key ∨ key = i.id ∨ key ∈ seen.defined := by
  simp [Seen.define, Defines]

theorem Seen.resolve_definedFrom {seen : Seen}
    (hseen : ∀ id, id ∈ seen.defined ↔ known id ∨ named id)
    (h : seen.resolve code context state = .ok pieces state') :
    DefinedFrom known (pieces.flatMap Piece.whole) ↔ ReadsNoName known named code := by
  replace h := resolve_ok h
  induction h generalizing known named with
  | done => exact Iff.rfl
  | @next _ i _ _ _ before _ _ _ _ hclaim hbefore _ ih =>
    have hclaimed := (claim_ok hclaim).1
    obtain ⟨hidle, hdefines, hmet⟩ := materialize_defines hbefore
    have hfirst : (∀ id ∈ i.virtualSources, DefinedBy before id ∨ known id) ↔
        ∀ id ∈ i.virtualSources, named id → known id := by
      refine forall₂_congr fun id hid => ?_
      rw [hdefines, hclaimed, hseen]
      grind
    rw [List.flatMap_cons, Piece.whole, List.append_assoc, DefinedFrom.append,
      and_iff_right (DefinedFrom.of_idle hidle)]
    rw [List.cons_append, List.nil_append, DefinedFrom, ReadsNoName, hfirst]
    refine and_congr_right fun hreads => ?_
    refine Iff.trans ?_ (ih fun id => ?_)
    · refine DefinedFrom.congr fun id => ?_
      rw [hdefines, hclaimed, hseen]
      grind
    · rw [Instruction.mem_define, hmet, hclaimed, hseen]
      grind

end Resolve

section Casts

theorem Produced.cast_defines {source target : RegisterFile}
    (h : cast source target id consumer context state = .ok (fresh, o) state') :
    fresh = s!"r{state.ids.values}" ∧ state.ids.values ≤ state'.ids.values ∧
      (∀ key, o.Defines key ↔ key = fresh) ∧ ∀ key ∈ o.virtualSources, key = id := by
  obtain ⟨_, hfresh, hcount⟩ := cast_drawn h
  obtain ⟨_, _, t, _, hwired⟩ := cast_isCast h
  refine ⟨hfresh, by omega, fun key => ?_, fun key hkey => ?_⟩
  · rw [Instruction.Defines, show o.virtualDestination? = some fresh from hwired.defines]
    grind
  · exact (OperandValue.virtual.inj (hwired.reads key hkey)).symm

variable {produced produced' : Produced} {ops ops' : List Operand} {handed : Id → Prop}

/-- Which ids are defined and read once the casts for an instruction are there. -/
structure Produced.Rewires (produced produced' : Produced) (ops ops' : List Operand)
    (before : List Instruction) : Prop where
  recorded : ∀ id, produced'.contains id ↔ DefinedBy before id ∨ produced.contains id
  reads : ∀ id ∈ ops'.filterMap Operand.virtual?,
    id ∈ ops.filterMap Operand.virtual? ∨ DefinedBy before id
  kept : ∀ id ∈ ops.filterMap Operand.virtual?,
    id ∈ ops'.filterMap Operand.virtual? ∨ produced'.contains id
  defined : ∀ known : Id → Prop, (∀ id, produced.contains id → known id) →
    DefinedFrom known before

theorem Produced.castSources_rewires
    (h : castSources consumer produced ops context state = .ok (ops', before, produced') state') :
    Rewires produced produced' ops ops' before := by
  replace h := castSources_ok h
  induction h with
  | done => constructor <;> simp [DefinedBy, DefinedFrom]
  | @kept _ op _ _ _ _ _ _ _ _ hrest =>
    refine ⟨hrest.recorded, fun id hid => ?_, fun id hid => ?_, hrest.defined⟩
    · have hreads := hrest.reads id
      cases hop : op.virtual? <;> grind
    · have hkept := hrest.kept id
      cases hop : op.virtual? <;> grind
  | @cast produced op _ _ id _ target fresh o _ _ casts _ _ hmismatch hcast _ hrest =>
    obtain ⟨hid, _, hsource⟩ := mismatch_eq_some hmismatch
    obtain ⟨_, _, hdefines, hreads⟩ := cast_defines hcast
    have hinserted : ∀ key, (IdMap.insert produced fresh target).contains key ↔
        key = fresh ∨ produced.contains key := by
      intro key
      rw [IdMap.contains, IdMap.contains, IdMap.get?_insert]
      split <;> simp_all
    have hfirst : ∀ key, DefinedBy (o :: casts) key ↔ key = fresh ∨ DefinedBy casts key := by
      intro key
      rw [DefinedBy, List.exists_mem_cons_iff, hdefines, ← DefinedBy]
    have hcontains : produced.contains id := by simp [IdMap.contains, hsource]
    have hnew : Operand.virtual? { op with value := .virtual fresh } = some fresh := by
      unfold Operand.virtual? at hid ⊢
      split at hid
      · next htype _ => simp [htype]
      · cases hid
    refine ⟨fun key => ?_, fun key hkey => ?_, fun key hkey => ?_, fun known hknown => ?_⟩
    · rw [hrest.recorded, hfirst, hinserted]
      grind
    · rw [hfirst]
      have hreads := hrest.reads key
      grind
    · have hkept := hrest.kept key
      have hrecorded := hrest.recorded id
      grind
    · refine ⟨fun key hkey => hreads key hkey ▸ hknown id hcontains, hrest.defined _ ?_⟩
      intro key hkey
      rcases (hinserted key).1 hkey with rfl | hkey
      · exact .inl ((hdefines key).2 rfl)
      · exact .inr (hknown key hkey)

theorem Produced.castSources_fresh
    (h : castSources consumer produced ops context state = .ok (ops', before, produced') state') :
    state.ids.values ≤ state'.ids.values ∧
      ∀ id, DefinedBy before id → ¬ Below state.ids.values id := by
  replace h := castSources_ok h
  induction h with
  | done => simp [DefinedBy]
  | kept _ _ ih => exact ih
  | cast _ hcast _ ih =>
    obtain ⟨rfl, hcount, hdefines, _⟩ := cast_defines hcast
    obtain ⟨hcount', hcasts⟩ := ih
    refine ⟨hcount.trans hcount', fun id hid hbelow => ?_⟩
    obtain ⟨o, ho, hdef⟩ := hid
    rcases List.mem_cons.1 ho with rfl | ho
    · rw [hdefines] at hdef
      exact absurd (FreshIds.below_value.1 (hdef ▸ hbelow)) (Nat.lt_irrefl _)
    · exact hcasts id ⟨o, ho, hdef⟩ (hbelow.mono hcount)

theorem Produced.contains_define (h : (produced.define i).contains id) :
    i.Defines id ∨ produced.contains id := by
  obtain ⟨f, hf⟩ := Option.isSome_iff_exists.1 h
  rcases get?_define hf with hdef | hold
  · exact .inl hdef.defines
  · exact .inr (by simp [IdMap.contains, hold])

theorem Produced.castAll_definedFrom (hproduced : ∀ id, produced.contains id → known id)
    (h : castAll produced code context state = .ok pieces state')
    (hcode : DefinedFrom known code) : DefinedFrom known (pieces.flatMap Piece.whole) := by
  replace h := castAll_ok h
  induction h generalizing known with
  | done => exact hcode
  | next hsources _ ih =>
    obtain ⟨hreads, hrest⟩ := hcode
    have hrewires := castSources_rewires hsources
    rw [List.flatMap_cons, Piece.whole, List.append_assoc, DefinedFrom.append]
    refine ⟨hrewires.defined known hproduced, fun id hid => ?_, ?_⟩
    · exact (hrewires.reads id hid).symm.imp_right (hreads id)
    · refine ih (fun id hid => ?_) (hrest.mono fun id => Or.imp_right .inr)
      refine (contains_define hid).imp_right fun hold => ?_
      exact ((hrewires.recorded id).1 hold).imp_right (hproduced id)

/-- Casts define no id of the code, so they give nothing to a source that nothing defines. -/
theorem Produced.castAll_reads {n : Nat} (hcount : n ≤ state.ids.values)
    (hproduced : ∀ id, produced.contains id → Below n id → known id)
    (hbelow : ∀ i ∈ code, ∀ id ∈ i.virtualSources, Below n id)
    (h : castAll produced code context state = .ok pieces state')
    (hpieces : DefinedFrom (fun id => Below n id → known id) (pieces.flatMap Piece.whole)) :
    DefinedFrom known code := by
  replace h := castAll_ok h
  induction h generalizing known with
  | done => trivial
  | @next _ _ _ _ _ casts _ _ _ _ hsources _ ih =>
    obtain ⟨hi, hrest⟩ := List.forall_mem_cons.1 hbelow
    have hrewires := castSources_rewires hsources
    obtain ⟨hcount', hfresh⟩ := castSources_fresh hsources
    have hcasts : ∀ id, DefinedBy casts id → ¬ Below n id :=
      fun id hid hn => hfresh id hid (hn.mono hcount)
    rw [List.flatMap_cons, Piece.whole, List.append_assoc, DefinedFrom.append] at hpieces
    obtain ⟨_, hreads, hpieces⟩ := hpieces
    constructor
    · intro id hid
      have hn := hi id hid
      rcases hrewires.kept id hid with hkept | hrecorded
      · rcases hreads id hkept with hdef | hknown
        · exact absurd hn (hcasts id hdef)
        · exact hknown hn
      · rcases (hrewires.recorded id).1 hrecorded with hdef | hold
        · exact absurd hn (hcasts id hdef)
        · exact hproduced id hold hn
    · refine ih (hcount.trans hcount') (fun id hid hn => ?_) hrest
        (hpieces.mono fun id hid hn => ?_)
      · rcases contains_define hid with hdef | hrecorded
        · exact .inl hdef
        · rcases (hrewires.recorded id).1 hrecorded with hdef | hold
          · exact absurd hn (hcasts id hdef)
          · exact .inr (hproduced id hold hn)
      · rcases hid with hdef | hdef | hknown
        · exact .inl hdef
        · exact absurd hn (hcasts id hdef)
        · exact .inr (hknown hn)

end Casts

section Legal

theorem BareLabels.layout_resolved (hlabels : BareLabels code)
    (h : List.Forall₂ (Piece.Precedes Eq (Instruction.IsLi catalog)) code pieces) :
    BareLabels (Piece.layout pieces) := by
  intro o ho hlabel
  obtain ⟨p, hp, ho⟩ := Piece.mem_layout.1 ho
  obtain ⟨i, hi, hprecedes⟩ := exists_of_forall₂ h hp
  rcases ho with ho | rfl | ho
  · obtain ⟨_, _, t, value, _, op, sources, _, _, rfl⟩ := hprecedes.before o ho
    simp [Instruction.isPointerLabel, Template.instruction] at hlabel
  · obtain rfl := hprecedes.keeps
    exact hlabels _ hi hlabel
  · rw [hprecedes.after] at ho
    cases ho

theorem BareLabels.recast {makes : Id → Instruction → Prop} (hlabels : BareLabels code)
    (h : List.Forall₂ (Piece.Precedes Instruction.Recast makes) code pieces) :
    BareLabels (pieces.map Piece.instruction) := by
  intro o ho hlabel
  obtain ⟨p, hp, rfl⟩ := List.mem_map.1 ho
  obtain ⟨i, hi, hprecedes⟩ := exists_of_forall₂ h hp
  obtain ⟨sources, hsources, hrecast⟩ := hprecedes.keeps
  rw [hrecast] at hlabel ⊢
  obtain ⟨hreads, hdest⟩ := hlabels i hi hlabel
  refine ⟨?_, hdest⟩
  rw [Instruction.virtualSources, List.filterMap_eq_nil_iff] at hreads ⊢
  intro op' hop'
  obtain ⟨op, hop, hsame | ⟨id, _, hid, _⟩⟩ := exists_of_forall₂ hsources hop'
  · exact hsame ▸ hreads op hop
  · rw [hreads op hop] at hid
    cases hid

theorem Piece.layout_resolved_reads
    (h : List.Forall₂ (Precedes Eq (Instruction.IsLi catalog)) code pieces) (ho : o ∈ layout pieces)
    (hid : id ∈ o.virtualSources) : ∃ i ∈ code, id ∈ i.virtualSources := by
  obtain ⟨p, hp, ho⟩ := mem_layout.1 ho
  obtain ⟨i, hi, hprecedes⟩ := exists_of_forall₂ h hp
  rcases ho with ho | rfl | ho
  · obtain ⟨_, _, t, value, _, hwired⟩ := hprecedes.before o ho
    cases hwired.reads id hid
  · exact ⟨i, hi, hprecedes.keeps ▸ hid⟩
  · rw [hprecedes.after] at ho
    cases ho

/-- The sources of legal code are defined further up unless the code reads a mere name. -/
theorem legalize_definedFrom (hlabels : BareLabels code)
    (h : legalize code context state = .ok out state') :
    (ReadsNoName (fun _ => False) (fun _ => False) code → DefinedFrom (fun _ => False) out) ∧
      ((∀ i ∈ code, ∀ id ∈ i.virtualSources, Below state.ids.values id) →
        DefinedFrom (fun _ => False) out →
        ReadsNoName (fun _ => False) (fun _ => False) code) := by
  obtain ⟨resolved, mid, pieces, hresolved, hpieces, rfl⟩ := legalize_ok h
  have hprecedes := Seen.resolve_precedes hresolved
  have hown : resolved.map Piece.instruction = code := by
    have hsame := hprecedes.imp fun i p hp => hp.keeps
    rwa [← List.forall₂_map_right_iff, List.forall₂_eq_eq_eq, eq_comm] at hsame
  have hmid : BareLabels (Piece.layout resolved) := hlabels.layout_resolved hprecedes
  have hresolve : DefinedFrom (fun _ => False) (Piece.layout resolved) ↔
      ReadsNoName (fun _ => False) (fun _ => False) code := by
    rw [Piece.layout_definedFrom (hown ▸ hlabels)]
    exact Seen.resolve_definedFrom (by simp) hresolved
  rw [Piece.layout_definedFrom (hmid.recast (Produced.castAll_precedes hpieces)), ← hresolve]
  constructor
  · exact Produced.castAll_definedFrom (by simp [IdMap.contains]) hpieces
  · intro hbelow hout
    have hcount : state.ids.values ≤ mid.ids.values :=
      Lower.resolve_moves (R := Lower.CountsOn) _ _ _ _ _ _ hresolved
    refine Produced.castAll_reads hcount (by simp [IdMap.contains]) ?_ hpieces
      (hout.mono fun _ h => h.elim)
    intro o ho id hid
    obtain ⟨i, hi, hid⟩ := Piece.layout_resolved_reads hprecedes ho hid
    exact hbelow i hi id hid

end Legal

section Intervals

open LiveInterval

variable {recorded : IdMap (List Register)} {live live' : List LiveInterval} {index : Nat}

theorem LiveInterval.read_known (index : Nat) (h : id ∈ live.map LiveInterval.id) :
    ∃ live', LiveInterval.read index live id = .ok live' ∧
      live'.map LiveInterval.id = live.map LiveInterval.id := by
  cases hextend : extend? id index live with
  | none => exact absurd h (extend?_eq_none.1 hextend)
  | some live' =>
    obtain ⟨front, j, back, rfl, _, rfl⟩ := extend?_eq_some hextend
    exact ⟨_, by rw [LiveInterval.read, hextend]; rfl, by simp⟩

theorem LiveInterval.reads_known {ids : List Id} (index : Nat)
    (h : ∀ id ∈ ids, id ∈ live.map LiveInterval.id) :
    ∃ live', ids.foldlM (LiveInterval.read index) live = .ok live' ∧
      live'.map LiveInterval.id = live.map LiveInterval.id := by
  induction ids generalizing live with
  | nil => exact ⟨live, rfl, rfl⟩
  | cons id rest ih =>
    obtain ⟨hid, hrest⟩ := List.forall_mem_cons.1 h
    obtain ⟨next, hnext, hsame⟩ := read_known index hid
    obtain ⟨live', hlive', hids⟩ := ih (hsame ▸ hrest)
    exact ⟨live', by rw [List.foldlM_cons, hnext]; exact hlive', hids.trans hsame⟩

theorem LiveInterval.mem_write (index : Nat) (h : i.Defines id ∨ id ∈ live.map LiveInterval.id) :
    id ∈ (i.destination.toList.foldl (write index) live).map LiveInterval.id := by
  cases hdest : i.destination with
  | none => simpa [Instruction.Defines, Instruction.virtualDestination?, hdest] using h
  | some op =>
    rw [Instruction.Defines, Instruction.virtualDestination?, hdest] at h
    simp only [Option.bind_some, Option.toList_some, List.foldl_cons, List.foldl_nil] at h ⊢
    cases hvirtual : op.virtual? with
    | none => simpa [write, hvirtual] using h
    | some key =>
      obtain ⟨file, hfile⟩ := Operand.file_of_virtual hvirtual
      rw [hvirtual, Option.some.injEq] at h
      cases hextend : extend? key index live with
      | none => simpa [write, hvirtual, hfile, hextend, or_comm, eq_comm] using h
      | some live' =>
        obtain ⟨front, j, back, rfl, rfl, rfl⟩ := extend?_eq_some hextend
        have hids : id ∈ (front ++ j :: back).map LiveInterval.id := by
          rcases h with rfl | h
          · simp
          · exact h
        simpa [write, hvirtual, hfile, hextend] using hids

theorem LiveInterval.clobbers_error {e : LoweringError} (h : clobbers recorded i = .error e) :
    ∃ target, i.form = .call target ∧ recorded.get? target = none ∧
      e = .unknownFunction target := by
  unfold clobbers at h
  split at h
  · next target htarget =>
    split at h
    · cases h
    · next hnone =>
      cases h
      exact ⟨target, htarget, hnone, rfl⟩
  · cases h

theorem LiveInterval.trace_error {e : LoweringError}
    (hcode : DefinedFrom (· ∈ live.map LiveInterval.id) code)
    (h : trace recorded index live code = .error e) :
    ∃ i ∈ code, ∃ target, i.form = .call target ∧ recorded.get? target = none ∧
      e = .unknownFunction target := by
  induction code generalizing live index with
  | nil => cases h
  | cons i rest ih =>
    obtain ⟨hreads, hrest⟩ := hcode
    obtain ⟨next, hnext, hids⟩ := reads_known index hreads
    have hrest := hrest.mono fun id hid => mem_write index (hids ▸ hid)
    simp only [trace, hnext, except_bind_error, reduceCtorEq, false_or, Except.ok.injEq,
      exists_eq_left', except_pure_error, and_false, exists_false, or_false] at h
    rcases h with hclobbers | ⟨_, _, htrace⟩
    · obtain ⟨target, hcall⟩ := clobbers_error hclobbers
      exact ⟨i, List.mem_cons_self, target, hcall⟩
    · obtain ⟨j, hj, hcall⟩ := ih hrest htrace
      exact ⟨j, List.mem_cons_of_mem _ hj, hcall⟩

/-- Once its sources are defined, code has intervals unless it calls what was not recorded. -/
theorem LiveInterval.ofCode_error {e : LoweringError} (hcode : DefinedFrom (fun _ => False) code)
    (h : ofCode recorded code = .error e) :
    ∃ i ∈ code, ∃ target, i.form = .call target ∧ recorded.get? target = none ∧
      e = .unknownFunction target := by
  simp only [ofCode, except_bind_error, except_pure_error, and_false, exists_false,
    or_false] at h
  exact trace_error (by simpa using hcode) h

end Intervals

/-- Every source of legal code is defined further up, and so its intervals are too, if the code
reads no mere name. Code whose ids are not handed out later on has them defined only then. -/
theorem legalize_defines_before_use (hlabels : BareLabels code)
    (h : legalize code context state = .ok out state') :
    (ReadsNoName (fun _ => False) (fun _ => False) code →
      DefinedFrom (fun _ => False) out ∧ ∀ recorded id index,
        LiveInterval.ofCode recorded out ≠ .error (.useBeforeDef id index)) ∧
    ((∀ i ∈ code, ∀ id ∈ i.virtualSources, Below state.ids.values id) →
      DefinedFrom (fun _ => False) out →
      ReadsNoName (fun _ => False) (fun _ => False) code) := by
  obtain ⟨hdefined, hnames⟩ := legalize_definedFrom hlabels h
  refine ⟨fun hcode => ⟨hdefined hcode, fun recorded id index hintervals => ?_⟩, hnames⟩
  obtain ⟨_, _, _, _, _, hcall⟩ := LiveInterval.ofCode_error (hdefined hcode) hintervals
  cases hcall

theorem mixedCode_defines_before_use : ∃ out state',
    legalize mixedCode insertionContext zeroState = .ok out state' ∧
    DefinedFrom (fun _ => False) out ∧ ∀ recorded id index,
      LiveInterval.ofCode recorded out ≠ .error (.useBeforeDef id index) := by
  have hok : ((legalize mixedCode).result? insertionContext zeroState).isSome := by decide +kernel
  obtain ⟨out, hout⟩ := Option.isSome_iff_exists.1 hok
  obtain ⟨state', h⟩ := Lower.result?_eq_some.1 hout
  have hlabels : BareLabels mixedCode := by unfold BareLabels; decide
  have hnames : ReadsNoName (fun _ => False) (fun _ => False) mixedCode := by
    simp [mixedCode, ReadsNoName, Instruction.virtualSources, Operand.virtual?,
      Instruction.Defines, Instruction.virtualDestination?]
  exact ⟨out, state', h, (legalize_defines_before_use hlabels h).1 hnames⟩

/-- A sum of a value that has the name of an instruction without a result. -/
def namedCode : List Instruction :=
  [{ id := "s", name := "nop", category := .pseudo },
   { id := "a", name := "add", category := .arithmetic,
     destination := some { slot := .rd, type := .register .gpr, value := .virtual "a" },
     sources := [{ slot := .rs1, type := .register .gpr, value := .virtual "s" },
       { slot := .rs2, type := .register .gpr, value := .virtual "s" }] }]

theorem namedCode_reads_undefined :
    Catalog.builtin .rv64 = .ok .rv64 ∧
    ∃ out state', legalize namedCode (standardContext .rv64) zeroState = .ok out state' ∧
      ¬ DefinedFrom (fun _ => False) out ∧
      LiveInterval.ofCode {} out = .error (.useBeforeDef "s" 1) := by
  refine ⟨Catalog.builtin_rv64, namedCode, zeroState, rfl, ?_, rfl⟩
  simp [namedCode, DefinedFrom, Instruction.virtualSources, Operand.virtual?, Instruction.Defines,
    Instruction.virtualDestination?]

end PlanLowering
