import PlanLowering.Proofs.AllocatedCode
import PlanLowering.Proofs.LegalSteps
import PlanLowering.Proofs.Selected

/-!
# Placeholders in legal code

Legalization puts loads and casts in front of instructions and rewires sources that already had an
id. An operand that nothing was wired to before is not wired here either.
-/

namespace PlanLowering

variable {context : Context} {state state' : State} {id consumer fresh : Id} {i : Instruction}
variable {code out before : List Instruction} {pieces : List Piece}

/-- Inserted code that has nothing open leaves open what the code itself leaves open. -/
theorem Piece.layout_settled (h : ∀ p ∈ pieces, ∀ o ∈ p.before ++ p.after, o.isSettled) :
    (∀ o ∈ layout pieces, o.isSettled) ↔ ∀ p ∈ pieces, p.instruction.isSettled := by
  constructor
  · intro hall p hp
    exact hall _ (mem_layout.2 ⟨p, hp, .inr (.inl rfl)⟩)
  · intro hown o ho
    obtain ⟨p, hp, ho⟩ := mem_layout.1 ho
    rcases ho with ho | rfl | ho
    · exact h p hp o (List.mem_append_left _ ho)
    · exact hown p hp
    · exact h p hp o (List.mem_append_right _ ho)

section Resolve

variable (hcomplete : context.catalog.Complete)
include hcomplete

theorem Lower.randomValue_settled
    (h : Lower.randomValue id context state = .ok i state') : i.isSettled := by
  simp only [randomValue, bind_ok, ofExcept_ok, pure_ok] at h
  obtain ⟨i₀, _, hi, value, _, _, i₁, _, ⟨himm, _⟩, i₂, _, ⟨hrd, _⟩, rfl, _⟩ := h
  obtain ⟨t, ht, hslots, hwired⟩ :=
    settles_named hcomplete (show ("li", [.rd, .imm]) ∈ _ by simp [Catalog.namedOpcodes]) hi
  have hwired := hwired.setImmediate ht himm fun _ => rfl
  have hwired := hwired.setDestination ht hrd fun _ htype =>
    Operand.isSettled_of_register htype (by simp)
  exact Instruction.isSettled_iff.2 (hwired.good_iff.2 hslots)

theorem Seen.materialize_settled {seen seen' : Seen} {ids : List Id}
    (h : seen.materialize ids context state = .ok (before, seen') state') :
    ∀ o ∈ before, o.isSettled := by
  replace h := materialize_ok h
  induction h with
  | done => simp
  | known _ _ ih => exact ih
  | load _ hli _ ih => exact List.forall_mem_cons.2 ⟨Lower.randomValue_settled hcomplete hli, ih⟩

theorem Seen.resolve_settled {seen : Seen}
    (h : seen.resolve code context state = .ok pieces state') :
    pieces.map Piece.instruction = code ∧
      ∀ p ∈ pieces, ∀ o ∈ p.before ++ p.after, o.isSettled := by
  replace h := resolve_ok h
  induction h with
  | done => simp
  | next _ hbefore _ ih =>
    obtain ⟨hown, haround⟩ := ih
    refine ⟨by rw [List.map_cons, hown], ?_⟩
    rw [List.forall_mem_cons, List.append_nil]
    exact ⟨materialize_settled hcomplete hbefore, haround⟩

end Resolve

namespace Produced

variable {produced produced' : Produced} {ops ops' : List Operand} {source target : RegisterFile}

theorem mismatch_settled {op : Operand} (h : produced.mismatch? op = some (id, source, target)) :
    op.isSettled ∧ ∀ fresh, Operand.isSettled { op with value := .virtual fresh } := by
  unfold mismatch? at h
  cases hvirtual : op.virtual? with
  | none => simp [hvirtual] at h
  | some found =>
    obtain ⟨file, hfile⟩ := Operand.file_of_virtual hvirtual
    refine ⟨by simp [Operand.isSettled, hvirtual], fun fresh => ?_⟩
    exact Operand.isSettled_of_register (by simp [OperandType.isRegister, hfile]) (by simp)

section Casts

variable (hcomplete : context.catalog.Complete)
include hcomplete

theorem cast_settled
    (h : cast source target id consumer context state = .ok (fresh, i) state') :
    i.isSettled := by
  simp only [cast, Lower.bind_ok, Lower.read_ok] at h
  obtain ⟨_, _, ⟨rfl, rfl⟩, h⟩ := h
  have hfilter : (TemplateFilter.cast (.register source) (.register target)).category =
      some .cast := rfl
  cases hcandidates : context.catalog.filter (.cast (.register source) (.register target)) with
  | nil => simp [hcandidates] at h
  | cons first rest =>
    simp only [hcandidates, Lower.bind_ok, Lower.ofExcept_ok, Lower.pure_ok, Prod.mk.injEq] at h
    obtain ⟨_, _, _, i₀, _, hi, i₁, _, ⟨hrs1, _⟩, i₂, _, ⟨hrd, _⟩, ⟨_, rfl⟩, _⟩ := h
    rw [← hcandidates] at hi
    obtain ⟨t, ht, rfl⟩ := Lower.chooseFrom_ok hi
    obtain ⟨hmem, hcategory⟩ := Catalog.mem_filter_category hfilter ht
    have htyped := hcomplete.typed t hmem
    have hslots := hcomplete.drawn t hmem (by simp [hcategory, Category.drawn])
    rw [hcategory] at hslots
    have hwired := settles_instruction.setSource htyped hrs1 fun _ hadmits =>
      Operand.isSettled_of_register
        (Slot.isRegister_of_admits (by simp [Slot.registers]) hadmits) (by simp)
    have hwired := hwired.setDestination htyped hrd fun _ htype =>
      Operand.isSettled_of_register htype (by simp)
    exact Instruction.isSettled_iff.2 (hwired.good_iff.2 hslots)

theorem castSources_settled
    (h : castSources consumer produced ops context state = .ok (ops', before, produced') state') :
    ((∀ op ∈ ops', op.isSettled) ↔ ∀ op ∈ ops, op.isSettled) ∧ ∀ o ∈ before, o.isSettled := by
  replace h := castSources_ok h
  induction h with
  | done => simp
  | kept _ _ ih =>
    obtain ⟨hsources, hcasts⟩ := ih
    rw [List.forall_mem_cons, List.forall_mem_cons, hsources]
    exact ⟨Iff.rfl, hcasts⟩
  | cast hmismatch hcast _ ih =>
    obtain ⟨hsources, hcasts⟩ := ih
    obtain ⟨hold, hnew⟩ := mismatch_settled hmismatch
    simp only [List.forall_mem_cons, hsources, hold, hnew, true_and]
    exact ⟨cast_settled hcomplete hcast, hcasts⟩

theorem castAll_settled (h : castAll produced code context state = .ok pieces state') :
    ((∀ p ∈ pieces, p.instruction.isSettled) ↔ ∀ i ∈ code, i.isSettled) ∧
      ∀ p ∈ pieces, ∀ o ∈ p.before ++ p.after, o.isSettled := by
  replace h := castAll_ok h
  induction h with
  | done => simp
  | @next _ i _ _ sources _ _ _ _ _ hsources _ ih =>
    obtain ⟨hsame, hcasts⟩ := castSources_settled hcomplete hsources
    obtain ⟨hown, haround⟩ := ih
    have hinstruction : Instruction.isSettled { i with sources } ↔ i.isSettled := by
      simp only [Instruction.isSettled_iff, Instruction.operands, List.forall_mem_append, hsame]
    rw [List.forall_mem_cons, List.forall_mem_cons, List.forall_mem_cons, List.append_nil,
      hinstruction, hown]
    exact ⟨Iff.rfl, hcasts, haround⟩

end Casts
end Produced

theorem legalize_settled (hcomplete : context.catalog.Complete)
    (h : legalize code context state = .ok out state') :
    (∀ o ∈ out, o.isSettled) ↔ ∀ i ∈ code, i.isSettled := by
  obtain ⟨resolved, _, pieces, hresolved, hpieces, rfl⟩ := legalize_ok h
  obtain ⟨rfl, hloads⟩ := Seen.resolve_settled hcomplete hresolved
  obtain ⟨hown, hcasts⟩ := Produced.castAll_settled hcomplete hpieces
  rw [Piece.layout_settled hcasts, hown, Piece.layout_settled hloads, List.forall_mem_map]

end PlanLowering
