import PlanLowering.Proofs.LegalCode
import PlanLowering.Proofs.OwnValues

/-!
# Code that defines each id in one file

A value that is loaded for an id is an integer. The only instruction that may define the id again
after the load is the one that has it for its own and reads it; where that makes no float, no id is
in both files.
-/

namespace PlanLowering

open FreshIds (Below)

def SingleFiled (code : List Instruction) : Prop :=
  ∀ i ∈ code, ∀ j ∈ code, ∀ id f g, i.DefinesIn id f → j.DefinesIn id g → f = g

abbrev Instruction.Loads (catalog : Catalog) (id : Id) (i : Instruction) : Prop :=
  i.Drawn catalog "li" (.virtual id) fun _ value => value = .unset ∨ ∃ v, value = .imm v

variable {context : Context} {state state' : State} {code a b : List Instruction}
variable {pieces : List Piece} {i o : Instruction} {id x : Id} {catalog : Catalog}
variable {f g : RegisterFile} {n : Nat}

theorem OperandType.eq_register {type : OperandType} (h : type.file? = some f) :
    type = .register f := by
  cases type <;> simp_all [file?]

namespace Instruction

theorem Plain.below_of_defines (h : i.Plain n) (hdef : i.Defines id) : Below n id := by
  obtain ⟨op, hop, hid⟩ := Option.bind_eq_some_iff.1 hdef
  exact h.below op (List.mem_append_left _ (Option.mem_toList.2 hop)) id hid

theorem Auxiliary.keepsFiles (h : i.Auxiliary catalog) : i.KeepsFiles := by
  obtain ⟨opcode, id, hdrawn⟩ := h
  intro op hop f r _ hr
  rcases List.mem_append.1 hop with hop | hop
  · rw [hdrawn.target op (Option.mem_toList.1 hop)] at hr
    cases hr
  · exact absurd hr ((hdrawn.sources op hop).1 r)

end Instruction

theorem SingleFiled.append (ha : SingleFiled a) (hb : SingleFiled b)
    (hab : ∀ i ∈ a, ∀ j ∈ b, ∀ id f g, i.DefinesIn id f → j.DefinesIn id g → f = g) :
    SingleFiled (a ++ b) := by
  intro i hi j hj id f g hf hg
  rcases List.mem_append.1 hi with hi | hi <;> rcases List.mem_append.1 hj with hj | hj
  · exact ha i hi j hj id f g hf hg
  · exact hab i hi j hj id f g hf hg
  · exact (hab j hj i hi id g f hg hf).symm
  · exact hb i hi j hj id f g hf hg

theorem SingleFiled.mono (h : SingleFiled b) (hsub : a ⊆ b) : SingleFiled a :=
  fun i hi j hj => h i (hsub hi) j (hsub hj)

theorem singleFiled_singleton (i : Instruction) : SingleFiled [i] := by
  intro j hj k hk id f g hf hg
  rw [List.mem_singleton] at hj hk
  subst hj hk
  exact hf.unique hg

namespace Instruction.Loads

variable (hfiled : catalog.Filed)
include hfiled

theorem definesIn (h : i.Loads catalog id) (hdef : i.DefinesIn x f) : x = id ∧ f = .gpr := by
  obtain ⟨op, hop, hx, hf⟩ := hdef
  have hvalue := h.target op hop
  rw [Operand.value_of_virtual hx] at hvalue
  refine ⟨OperandValue.virtual.inj hvalue, ?_⟩
  rw [h.file hfiled (by decide) (List.mem_append_left _ (Option.mem_toList.2 hop))
    (OperandType.eq_register hf)]
  exact Catalog.file_eq_gpr (by decide) _

omit hfiled in
theorem plain (h : i.Loads catalog id) (hbelow : Below n id) : i.Plain n where
  below := by
    intro op hop x hx
    have hvalue := Operand.value_of_virtual hx
    rcases List.mem_append.1 hop with hop | hop
    · rw [h.target op (Option.mem_toList.1 hop)] at hvalue
      exact OperandValue.virtual.inj hvalue ▸ hbelow
    · have hsource := h.sources op hop
      rw [hvalue] at hsource
      simp at hsource
  files := by
    refine Auxiliary.keepsFiles ⟨_, _, h.mono ?_⟩
    rintro _ _ (rfl | ⟨v, rfl⟩) <;> simp [OperandValue.Unbound]
  pointer := by simp [isPointerLabel, h.native]

end Instruction.Loads

namespace Seen

variable (htyped : ∀ t ∈ context.catalog.templates, t.Typed)
include htyped

theorem materialize_loads {seen met : Seen} {ids : List Id} {before : List Instruction}
    (h : seen.materialize ids context state = .ok (before, met) state') :
    ∃ loaded : List Id, met.ids = loaded ++ seen.ids ∧ met.defined = loaded ++ seen.defined ∧
      ∀ o ∈ before, ∃ id ∈ loaded, id ∈ ids ∧ id ∉ seen.defined ∧ o.Loads context.catalog id := by
  replace h := materialize_ok h
  induction h with
  | done => exact ⟨[], rfl, rfl, by simp⟩
  | known _ _ ih =>
    obtain ⟨loaded, hids, hall, hbefore⟩ := ih
    refine ⟨loaded, hids, hall, fun o ho => ?_⟩
    obtain ⟨key, hkey, hrest, hnew, hloads⟩ := hbefore o ho
    exact ⟨key, hkey, List.mem_cons_of_mem _ hrest, hnew, hloads⟩
  | @load _ id _ _ _ _ _ _ _ hundefined hli _ ih =>
    obtain ⟨loaded, hids, hall, hbefore⟩ := ih
    refine ⟨loaded ++ [id], by simp [hids], by simp [hall], ?_⟩
    rw [List.forall_mem_cons]
    refine ⟨⟨id, by simp, by simp, hundefined, Lower.randomValue_drawn htyped hli⟩, fun o ho => ?_⟩
    obtain ⟨key, hkey, hrest, hnew, hloads⟩ := hbefore o ho
    exact ⟨key, List.mem_append_left _ hkey, List.mem_cons_of_mem _ hrest,
      fun hold => hnew (List.mem_cons_of_mem _ hold), hloads⟩

end Seen

theorem Piece.layout_cons_subset {p : Piece} (hafter : p.after = []) :
    layout (p :: pieces) ⊆ p.before ++ ([p.instruction] ++ layout pieces) := by
  intro o ho
  simp only [mem_layout, List.exists_mem_cons_iff, hafter, List.not_mem_nil, or_false] at ho
  simp only [List.mem_append, List.mem_singleton, mem_layout]
  rcases ho with (ho | ho) | ⟨q, hq, ho⟩
  · exact .inl ho
  · exact .inr (.inl ho)
  · exact .inr (.inr ⟨q, hq, by tauto⟩)

/-- Loads make integers for sources of the instruction, which makes its own value. None of these ids
is defined again behind it. -/
theorem SingleFiled.withLoads {before more : List Instruction} {met : List Id} (hi : i.Owned n)
    (hloaded : ∀ o ∈ before, ∀ id f, o.DefinesIn id f →
      f = .gpr ∧ id ∈ i.virtualSources ∧ id ∈ met)
    (hown : ∀ id f, i.DefinesIn id f → id ∈ met)
    (hlater : ∀ o ∈ more, ∀ id f, o.DefinesIn id f → id ∉ met) (hmore : SingleFiled more) :
    SingleFiled (before ++ ([i] ++ more)) := by
  refine .append ?loads (.append (singleFiled_singleton i) hmore ?behind) ?front
  case loads =>
    intro o ho o' ho' id f g hf hg
    rw [(hloaded o ho id f hf).1, (hloaded o' ho' id g hg).1]
  case behind =>
    intro j hj o ho id f g hf hg
    rw [List.mem_singleton] at hj
    subst hj
    exact absurd (hown id f hf) (hlater o ho id g hg)
  case front =>
    intro o ho j hj id f g hf hg
    obtain ⟨rfl, hsource, hmet⟩ := hloaded o ho id f hf
    rcases List.mem_append.1 hj with hj | hj
    · rw [List.mem_singleton] at hj
      subst hj
      -- The instruction reads the id that it makes itself, so it makes an integer too.
      obtain ⟨rfl, _⟩ := hi.own id hg.defines
      obtain ⟨op, hop, _, hg⟩ := hg
      cases g with
      | gpr => rfl
      | fpr => exact absurd (OperandType.eq_register hg) (hi.integer hsource op hop)
    · exact absurd hmet (hlater j hj id g hg)

section Resolve

variable (htyped : ∀ t ∈ context.catalog.templates, t.Typed) (hfiled : context.catalog.Filed)
include htyped hfiled

/-- An id that was met is defined no more. Only the instruction that has the id for its own could
define it again after a load, and that makes no float then. -/
theorem Seen.resolve_singleFiled {seen : Seen} (hcode : ∀ i ∈ code, i.Owned n)
    (hseen : seen.ids ⊆ seen.defined) (h : seen.resolve code context state = .ok pieces state') :
    (∀ o ∈ Piece.layout pieces, o.Plain n ∧ ∀ id f, o.DefinesIn id f → id ∉ seen.ids) ∧
      SingleFiled (Piece.layout pieces) := by
  replace h := resolve_ok h
  induction h with
  | done => simp [Piece.layout, Piece.place, SingleFiled]
  | @next seen i rest _ claimed before met _ more _ hclaim hbefore _ ih =>
    obtain ⟨hi, hrest⟩ := List.forall_mem_cons.1 hcode
    obtain ⟨loaded, hids, hall, hloads⟩ := materialize_loads htyped hbefore
    obtain ⟨hdefined, hkept, honly, hown⟩ := claim_ok hclaim
    have hreach : claimed.ids ⊆ met.ids := hids ▸ List.subset_append_right _ _
    have hmet : (met.define i).ids ⊆ (met.define i).defined := by
      intro id hid
      have hid : id ∈ loaded ++ claimed.ids := hids ▸ hid
      simp only [define, List.mem_append, List.mem_cons, hall, hdefined]
      rcases List.mem_append.1 hid with hid | hid
      · exact .inr (.inr (.inl hid))
      · rcases List.mem_cons.1 (honly hid) with rfl | hid
        · exact .inr (.inl rfl)
        · exact .inr (.inr (.inr (hseen hid)))
    obtain ⟨hlater, hsingle⟩ := ih hrest hmet
    have hloaded : ∀ o ∈ before, ∀ id f, o.DefinesIn id f →
        (f = .gpr ∧ id ∈ i.virtualSources ∧ id ∈ met.ids) ∧ id ∉ seen.ids := by
      intro o ho id f hdef
      obtain ⟨key, hkey, hsource, hnew, hload⟩ := hloads o ho
      obtain ⟨rfl, rfl⟩ := hload.definesIn hfiled hdef
      refine ⟨⟨rfl, hsource, hids ▸ List.mem_append_left _ hkey⟩, fun hold => hnew ?_⟩
      exact hdefined ▸ hseen hold
    have hnamed : ∀ id f, i.DefinesIn id f → id ∈ met.ids ∧ id ∉ seen.ids := by
      intro id f hdef
      obtain ⟨rfl, hne⟩ := hi.own id hdef.defines
      exact ⟨hreach (hown hne).2, (hown hne).1⟩
    have hsub : Piece.layout ({ before, instruction := i } :: more) ⊆
        before ++ ([i] ++ Piece.layout more) := Piece.layout_cons_subset rfl
    constructor
    · intro o ho
      rcases List.mem_append.1 (hsub ho) with ho | ho
      · obtain ⟨key, _, hsource, _, hload⟩ := hloads o ho
        obtain ⟨op, hop, hkey⟩ := List.mem_filterMap.1 hsource
        have hbelow : Below n key := hi.below op (List.mem_append_right _ hop) key hkey
        exact ⟨hload.plain hbelow, fun id f hdef => (hloaded o ho id f hdef).2⟩
      · rcases List.mem_append.1 ho with ho | ho
        · rw [List.mem_singleton] at ho
          subst ho
          exact ⟨hi.toPlain, fun id f hdef => (hnamed id f hdef).2⟩
        · obtain ⟨hplain, hnew⟩ := hlater o ho
          exact ⟨hplain, fun id f hdef hold => hnew id f hdef (hreach (hkept hold))⟩
    · exact (SingleFiled.withLoads hi (fun o ho id f hdef => (hloaded o ho id f hdef).1)
        (fun id f hdef => (hnamed id f hdef).1) (fun o ho => (hlater o ho).2) hsingle).mono hsub

end Resolve

end PlanLowering
