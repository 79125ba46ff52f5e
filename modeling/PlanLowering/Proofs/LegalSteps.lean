import PlanLowering.Code.Legal
import PlanLowering.Proofs.Outcome

/-!
# Steps of legalization

How legalization ran where it succeeded: which sources got a load, which got a cast and which were
left as they are. Results about legal code are inductions on these runs.
-/

namespace PlanLowering

section Runs

variable (context : Context) (consumer : Id)

/-- The loads for a list of sources, one for each that was not defined. -/
inductive Seen.Materializes :
    Seen → List Id → State → List Instruction → Seen → State → Prop where
  | done {seen s} : Materializes seen [] s [] seen s
  | known {seen id rest s before seen' t} (hdefined : id ∈ seen.defined)
      (h : Materializes seen rest s before seen' t) :
      Materializes seen (id :: rest) s before seen' t
  | load {seen id rest s li u more seen' t} (hnew : id ∉ seen.defined)
      (hli : Lower.randomValue id context s = .ok li u)
      (h : Materializes { ids := id :: seen.ids, defined := id :: seen.defined } rest u more seen'
        t) : Materializes seen (id :: rest) s (li :: more) seen' t

/-- The pieces of a list of instructions, each with the loads in front of it. -/
inductive Seen.ResolvesTo : Seen → List Instruction → State → List Piece → State → Prop where
  | done {seen s} : ResolvesTo seen [] s [] s
  | next {seen i rest s claimed before met u more t} (hclaim : seen.claim i = .ok claimed)
      (hbefore : claimed.materialize i.virtualSources context s = .ok (before, met) u)
      (h : ResolvesTo (met.define i) rest u more t) :
      ResolvesTo seen (i :: rest) s ({ before, instruction := i } :: more) t

/-- The casts for a list of operands, one for each that was defined in the other file. -/
inductive Produced.Recasts :
    Produced → List Operand → State → List Operand → List Instruction → Produced → State → Prop where
  | done {produced s} : Recasts produced [] s [] [] produced s
  | kept {produced op rest s more casts produced' t} (hmatch : produced.mismatch? op = none)
      (h : Recasts produced rest s more casts produced' t) :
      Recasts produced (op :: rest) s (op :: more) casts produced' t
  | cast {produced op rest s id source target fresh i u more casts produced' t}
      (hmismatch : produced.mismatch? op = some (id, source, target))
      (hcast : cast source target id consumer context s = .ok (fresh, i) u)
      (h : Recasts (produced.insert fresh target) rest u more casts produced' t) :
      Recasts produced (op :: rest) s ({ op with value := .virtual fresh } :: more) (i :: casts)
        produced' t

/-- The pieces of a list of instructions, each with the casts in front of it. -/
inductive Produced.RecastsAll :
    Produced → List Instruction → State → List Piece → State → Prop where
  | done {produced s} : RecastsAll produced [] s [] s
  | next {produced i rest s sources before produced' u more t}
      (hsources : castSources i.id produced i.sources context s = .ok (sources, before, produced') u)
      (h : RecastsAll (produced'.define i) rest u more t) :
      RecastsAll produced (i :: rest) s ({ before, instruction := { i with sources } } :: more) t

end Runs

variable {context : Context} {consumer : Id} {s t : State} {code out before : List Instruction}
variable {pieces : List Piece}

theorem Seen.claim_ok {seen claimed : Seen} {i : Instruction}
    (h : seen.claim i = .ok claimed) :
    claimed.defined = seen.defined ∧ seen.ids ⊆ claimed.ids ∧ claimed.ids ⊆ i.id :: seen.ids ∧
      (i.id ≠ "" → i.id ∉ seen.ids ∧ i.id ∈ claimed.ids) := by
  unfold claim at h
  split at h
  · next hid =>
    rw [except_pure_ok] at h
    subst h
    exact ⟨rfl, List.Subset.refl _, List.subset_cons_self _ _, fun hne => absurd hid hne⟩
  · split at h
    · simp at h
    · next hnew =>
      rw [except_pure_ok] at h
      subst h
      exact ⟨rfl, List.subset_cons_self _ _, List.Subset.refl _,
        fun _ => ⟨hnew, List.mem_cons_self⟩⟩

theorem Seen.materialize_ok {seen seen' : Seen} {ids : List Id}
    (h : seen.materialize ids context s = .ok (before, seen') t) :
    Materializes context seen ids s before seen' t := by
  induction ids generalizing seen s before with
  | nil =>
    obtain ⟨⟨⟩, rfl⟩ := Lower.pure_ok.1 h
    exact .done
  | cons id rest ih =>
    rw [materialize] at h
    by_cases hdefined : id ∈ seen.defined
    · rw [if_pos hdefined] at h
      exact .known hdefined (ih h)
    · rw [if_neg hdefined] at h
      simp only [Lower.bind_ok, Lower.pure_ok, Prod.exists, Prod.mk.injEq] at h
      obtain ⟨li, _, hli, more, _, _, hmore, ⟨rfl, rfl⟩, rfl⟩ := h
      exact .load hdefined hli (ih hmore)

theorem Seen.resolve_ok {seen : Seen} (h : seen.resolve code context s = .ok pieces t) :
    ResolvesTo context seen code s pieces t := by
  induction code generalizing seen s pieces with
  | nil =>
    obtain ⟨rfl, rfl⟩ := Lower.pure_ok.1 h
    exact .done
  | cons i rest ih =>
    simp only [resolve, Lower.bind_ok, Lower.pure_ok, Lower.ofExcept_ok, Prod.exists] at h
    obtain ⟨claimed, _, ⟨hclaim, rfl⟩, before, met, _, hbefore, more, _, hmore, rfl, rfl⟩ := h
    exact .next hclaim hbefore (ih hmore)

theorem Produced.castSources_ok {produced produced' : Produced} {ops ops' : List Operand}
    (h : castSources consumer produced ops context s = .ok (ops', before, produced') t) :
    Recasts context consumer produced ops s ops' before produced' t := by
  induction ops generalizing produced s ops' before with
  | nil =>
    obtain ⟨⟨⟩, rfl⟩ := Lower.pure_ok.1 h
    exact .done
  | cons op rest ih =>
    rw [castSources] at h
    cases hmismatch : produced.mismatch? op with
    | none =>
      simp only [hmismatch, Lower.bind_ok, Lower.pure_ok, Prod.exists, Prod.mk.injEq] at h
      obtain ⟨more, casts, _, _, hmore, ⟨rfl, rfl, rfl⟩, rfl⟩ := h
      exact .kept hmismatch (ih hmore)
    | some found =>
      obtain ⟨id, source, target⟩ := found
      simp only [hmismatch, Lower.bind_ok, Lower.pure_ok, Prod.exists, Prod.mk.injEq] at h
      obtain ⟨fresh, i, _, hi, more, casts, _, _, hmore, ⟨rfl, rfl, rfl⟩, rfl⟩ := h
      exact .cast hmismatch hi (ih hmore)

theorem Produced.castAll_ok {produced : Produced}
    (h : castAll produced code context s = .ok pieces t) :
    RecastsAll context produced code s pieces t := by
  induction code generalizing produced s pieces with
  | nil =>
    obtain ⟨rfl, rfl⟩ := Lower.pure_ok.1 h
    exact .done
  | cons i rest ih =>
    simp only [castAll, Lower.bind_ok, Lower.pure_ok, Prod.exists] at h
    obtain ⟨sources, casts, _, _, hsources, more, _, hmore, rfl, rfl⟩ := h
    exact .next hsources (ih hmore)

theorem legalize_ok (h : legalize code context s = .ok out t) :
    ∃ resolved mid pieces, Seen.resolve {} code context s = .ok resolved mid ∧
      Produced.castAll {} (Piece.layout resolved) context mid = .ok pieces t ∧
      out = Piece.layout pieces := by
  simp only [legalize, resolveImmediates, insertCasts, Lower.bind_ok, Lower.pure_ok] at h
  obtain ⟨_, _, ⟨resolved, mid, hresolved, rfl, rfl⟩, pieces, _, hpieces, rfl, rfl⟩ := h
  exact ⟨resolved, mid, pieces, hresolved, hpieces, rfl⟩

end PlanLowering
