import PlanLowering.Proofs.ExactIntervals
import PlanLowering.Proofs.Insertion
import PlanLowering.Proofs.Stock

/-!
# Open sources

A source is open where nothing further up has its id, be it for its own or for that of its result.
With a built-in catalog each id that is read so gets one load, in front of the first instruction
that reads it. What can go wrong is that an instruction has an id that was met before.
-/

namespace PlanLowering

namespace Instruction

def Names (i : Instruction) (id : Id) : Prop := i.id = id ∨ i.Defines id

def Meets (i : Instruction) (id : Id) : Prop := i.Names id ∨ id ∈ i.virtualSources

instance (i : Instruction) (id : Id) : Decidable (i.Defines id) :=
  inferInstanceAs (Decidable (i.virtualDestination? = some id))

instance (i : Instruction) (id : Id) : Decidable (i.Names id) :=
  inferInstanceAs (Decidable (i.id = id ∨ i.Defines id))

instance (i : Instruction) (id : Id) : Decidable (i.Meets id) :=
  inferInstanceAs (Decidable (i.Names id ∨ id ∈ i.virtualSources))

end Instruction

/-- Some instruction reads the id before any other one names it. -/
def OpenIn (code : List Instruction) (id : Id) : Prop :=
  ∃ before i after, code = before ++ i :: after ∧ id ∈ i.virtualSources ∧ ∀ j ∈ before, ¬ j.Names id

/-- The sources that an instruction is the first to meet. -/
def opened (before : List Instruction) (i : Instruction) : List Id :=
  (i.virtualSources.filter fun id => ∀ j ∈ before, ¬ j.Meets id).eraseDups

/-- The instruction has an id of its own that names an earlier one or stands for an open source. -/
def ClashesWith (before : List Instruction) (i : Instruction) : Prop :=
  i.id ≠ "" ∧ ((∃ j ∈ before, j.id = i.id) ∨ OpenIn before i.id)

/-- What resolution comes to. An open source is loaded in front of the first to meet it. -/
inductive Resolves (catalog : Catalog) :
    List Instruction → List Instruction → List Piece → Prop where
  | done {before} : Resolves catalog before [] []
  | cons {before i loads rest pieces} (hfree : ¬ ClashesWith before i)
      (hloads : List.Forall₂ (Instruction.IsLoad catalog) (opened before i) loads)
      (hrest : Resolves catalog (before ++ [i]) rest pieces) :
      Resolves catalog before (i :: rest) ({ before := loads, instruction := i } :: pieces)

variable {context : Context} {s state state' : State} {catalog : Catalog} {xlen : Xlen}
variable {before code after out : List Instruction} {pieces : List Piece} {i o : Instruction}
variable {id : Id}
variable {seen : Seen}

section Open

theorem openIn_append {front back : List Instruction} : OpenIn (front ++ back) id ↔
    OpenIn front id ∨ OpenIn back id ∧ ∀ j ∈ front, ¬ j.Names id := by
  constructor
  · rintro ⟨before, i, after, hcode, hid, hnames⟩
    rcases List.append_eq_append_iff.1 hcode with ⟨mid, rfl, hback⟩ | ⟨mid, rfl, hmid⟩
    · rw [List.forall_mem_append] at hnames
      exact .inr ⟨⟨mid, i, after, hback, hid, hnames.2⟩, hnames.1⟩
    · cases mid with
      | nil =>
        rw [List.nil_append] at hmid
        rw [List.append_nil]
        exact .inr ⟨⟨[], i, after, hmid.symm, hid, by simp⟩, hnames⟩
      | cons j mid =>
        rw [List.cons_append, List.cons.injEq] at hmid
        obtain ⟨rfl, _⟩ := hmid
        exact .inl ⟨before, i, mid, rfl, hid, hnames⟩
  · rintro (⟨before, i, after, rfl, hid, hnames⟩ | ⟨⟨before, i, after, rfl, hid, hnames⟩, hfront⟩)
    · exact ⟨before, i, after ++ back, by simp, hid, hnames⟩
    · exact ⟨front ++ before, i, after, by simp, hid, List.forall_mem_append.2 ⟨hfront, hnames⟩⟩

theorem openIn_singleton : OpenIn [i] id ↔ id ∈ i.virtualSources := by
  constructor
  · rintro ⟨before, j, after, hcode, hid, _⟩
    have hj : j ∈ [i] := hcode ▸ by simp
    rwa [← List.mem_singleton.1 hj]
  · exact fun hid => ⟨[], i, [], rfl, hid, by simp⟩

theorem openIn_cons : OpenIn (i :: after) id ↔
    id ∈ i.virtualSources ∨ OpenIn after id ∧ ¬ i.Names id := by
  rw [← List.singleton_append, openIn_append, openIn_singleton]
  simp

theorem exists_mem_concat {P : Instruction → Prop} :
    (∃ j ∈ before ++ [i], P j) ↔ (∃ j ∈ before, P j) ∨ P i := by
  simp [or_and_right, exists_or]

theorem exists_meets :
    (∃ j ∈ before, j.Meets id) ↔ (∃ j ∈ before, j.Names id) ∨ OpenIn before id := by
  induction before using List.reverseRecOn with
  | nil => simp [OpenIn]
  | append_singleton before i ih =>
    rw [exists_mem_concat, exists_mem_concat, ih, openIn_append, openIn_singleton,
      Instruction.Meets]
    by_cases hnames : ∃ j ∈ before, j.Names id
    · simp [hnames]
    · have hnone : ∀ j ∈ before, ¬ j.Names id := fun j hj hname => hnames ⟨j, hj, hname⟩
      rw [and_iff_left hnone]
      tauto

theorem mem_opened : id ∈ opened before i ↔
    id ∈ i.virtualSources ∧ ∀ j ∈ before, ¬ j.Meets id := by
  simp [opened, List.mem_eraseDups]

end Open

section Loads

variable (hstock : context.catalog.Stocked xlen)

include hstock

/-- A random value can always be made. It takes draws and nothing else of the state. -/
theorem Lower.randomValue_loads :
    (randomValue id).Succeeds context s fun o s' =>
      o.IsLoad context.catalog id ∧ ∃ random, s' = { s with random } := by
  obtain ⟨i, hi, hoffers⟩ : Returns (context.catalog.instruction "li") (·.Offers [.rd, .imm]) :=
    hstock.instruction (by simp [Catalog.namedOpcodes]) (.inr (by decide))
  have hruns : (randomValue id).Succeeds context s fun _ s' =>
      ∃ random, s' = { s with random } := by
    simp only [randomValue, succeeds_bind, succeeds_instruction]
    refine ⟨i, hi, succeeds_draw (Draw.width_total (by decide) (by decide)) fun v random _ => ?_⟩
    refine succeeds_of_returns (hoffers.setImmediate (by simp) fun i hi => ?_)
    refine succeeds_of_returns (hi.setDestination (by simp) fun i _ => ?_)
    exact succeeds_pure.2 ⟨random, rfl⟩
  exact hruns.attach.mono fun o _ h => ⟨randomValue_isLoad h.1, h.2⟩

/-- One load is made for each source that is not defined, in the order of the sources. -/
theorem Seen.materialize_opens (seen : Seen) (ids : List Id) (s : State) :
    (seen.materialize ids).Succeeds context s fun result _ =>
      List.Forall₂ (Instruction.IsLoad context.catalog)
        (ids.filter (· ∉ seen.defined)).eraseDups result.1 ∧
      (∀ id, id ∈ result.2.ids ↔ id ∈ ids ∧ id ∉ seen.defined ∨ id ∈ seen.ids) ∧
      ∀ id, id ∈ result.2.defined ↔ id ∈ ids ∨ id ∈ seen.defined := by
  induction ids generalizing seen s with
  | nil => simp [materialize]
  | cons key rest ih =>
    rw [materialize]
    by_cases hdefined : key ∈ seen.defined
    · rw [if_pos hdefined]
      refine (ih seen s).mono fun result _ h => ?_
      obtain ⟨hloads, hids, hall⟩ := h
      refine ⟨by simpa [hdefined] using hloads, fun id => ?_, fun id => ?_⟩
      · rw [hids, List.mem_cons]
        by_cases hid : id = key <;> simp [hid, hdefined]
      · rw [hall, List.mem_cons]
        by_cases hid : id = key <;> simp [hid, hdefined]
    · rw [if_neg hdefined]
      simp only [Lower.succeeds_bind, Lower.succeeds_pure]
      refine (Lower.randomValue_loads hstock).mono ?_
      rintro o next ⟨ho, _⟩
      refine (ih _ next).mono fun result _ h => ?_
      obtain ⟨hloads, hids, hall⟩ := h
      have hrest : (rest.filter (· ∉ key :: seen.defined)).eraseDups =
          ((rest.filter (· ∉ seen.defined)).filter fun id => !(id == key)).eraseDups := by
        rw [List.filter_filter]
        congr 2
        funext id
        by_cases hid : id = key <;> simp [hid]
      refine ⟨?_, fun id => ?_, fun id => ?_⟩
      · rw [List.filter_cons_of_pos (by simpa using hdefined), List.eraseDups_cons, ← hrest]
        exact .cons ho hloads
      · rw [hids, List.mem_cons, List.mem_cons, List.mem_cons]
        by_cases hid : id = key <;> simp [hid, hdefined]
      · rw [hall, List.mem_cons, List.mem_cons]
        tauto

end Loads

section Resolve

structure Seen.Knows (seen : Seen) (before : List Instruction) : Prop where
  ids : ∀ id, id ≠ "" → (id ∈ seen.ids ↔ (∃ j ∈ before, j.id = id) ∨ OpenIn before id)
  defined : ∀ id, id ∈ seen.defined ↔ ∃ j ∈ before, j.Meets id

theorem Seen.Knows.start : Seen.Knows {} [] := by
  constructor <;> simp [OpenIn]

theorem Seen.Knows.claim (h : seen.Knows before) (i : Instruction) :
    (ClashesWith before i ∧ seen.claim i = .error (.duplicateId i.id .instructions)) ∨
      ¬ ClashesWith before i ∧ ∃ claimed, seen.claim i = .ok claimed ∧
        claimed.defined = seen.defined ∧
        ∀ id, id ≠ "" → (id ∈ claimed.ids ↔ id = i.id ∨ id ∈ seen.ids) := by
  unfold Seen.claim
  by_cases hempty : i.id = ""
  · refine .inr ⟨fun hclash => hclash.1 hempty, seen, by rw [if_pos hempty]; rfl, rfl, ?_⟩
    intro id hid
    rw [hempty, or_iff_right hid]
  · rw [if_neg hempty]
    have hids := h.ids i.id hempty
    by_cases hseen : i.id ∈ seen.ids
    · exact .inl ⟨⟨hempty, hids.1 hseen⟩, by rw [if_pos hseen]; rfl⟩
    · refine .inr ⟨fun hclash => hseen (hids.2 hclash.2), { seen with ids := i.id :: seen.ids },
        by rw [if_neg hseen]; rfl, rfl, ?_⟩
      exact fun _ _ => List.mem_cons

theorem Seen.Knows.step {claimed met : Seen} (h : seen.Knows before)
    (hdefined : claimed.defined = seen.defined)
    (hclaimed : ∀ id, id ≠ "" → (id ∈ claimed.ids ↔ id = i.id ∨ id ∈ seen.ids))
    (hids : ∀ id, id ∈ met.ids ↔ id ∈ i.virtualSources ∧ id ∉ claimed.defined ∨ id ∈ claimed.ids)
    (hall : ∀ id, id ∈ met.defined ↔ id ∈ i.virtualSources ∨ id ∈ claimed.defined) :
    (met.define i).Knows (before ++ [i]) := by
  constructor
  · intro id hid
    have hnames : (∀ j ∈ before, ¬ j.Names id) ↔ ¬ ∃ j ∈ before, j.Names id := by simp
    show id ∈ met.ids ↔ _
    rw [hids, hclaimed id hid, h.ids id hid, hdefined, h.defined, exists_meets, exists_mem_concat,
      openIn_append, openIn_singleton, hnames]
    by_cases hopen : OpenIn before id
    · simp [hopen]
    · by_cases hread : id ∈ i.virtualSources <;> grind
  · intro id
    rw [Instruction.mem_define, hall, hdefined, h.defined, exists_mem_concat, Instruction.Meets,
      Instruction.Names, eq_comm (a := i.id)]
    grind

/-- Resolution comes to loads of all open sources, or to an instruction that clashes. -/
theorem Seen.Knows.resolve (hstock : context.catalog.Stocked xlen) (h : seen.Knows before)
    (code : List Instruction) (s : State) :
    (∃ pieces s', seen.resolve code context s = .ok pieces s' ∧
      Resolves context.catalog before code pieces) ∨
    ∃ front i after s', code = front ++ i :: after ∧ ClashesWith (before ++ front) i ∧
      seen.resolve code context s = .error (.duplicateId i.id .instructions) s' := by
  induction code generalizing seen before s with
  | nil => exact .inl ⟨[], s, rfl, .done⟩
  | cons i rest ih =>
    rcases h.claim i with ⟨hclash, hclaim⟩ | ⟨hfree, claimed, hclaim, hdefined, hclaimed⟩
    · refine .inr ⟨[], i, rest, s, rfl, by rwa [List.append_nil], ?_⟩
      rw [Seen.resolve, hclaim]
      rfl
    · obtain ⟨⟨loads, met⟩, next, hmet, hloads, hids, hall⟩ :=
        materialize_opens hstock claimed i.virtualSources s
      have hopened :
          (i.virtualSources.filter (· ∉ claimed.defined)).eraseDups = opened before i := by
        rw [opened]
        congr 1
        apply List.filter_congr
        intro id _
        simp [hdefined, h.defined]
      rw [hopened] at hloads
      rcases ih (h.step hdefined hclaimed hids hall) next with
        ⟨pieces, s', hok, hresolves⟩ | ⟨front, j, after, s', rfl, hclash, herror⟩
      · refine .inl ⟨_, s', ?_, .cons hfree hloads hresolves⟩
        simp only [Seen.resolve, Lower.bind_ok, Lower.pure_ok, Lower.ofExcept_ok, Prod.exists]
        exact ⟨claimed, s, ⟨hclaim, rfl⟩, loads, met, next, hmet, pieces, s', hok, rfl, rfl⟩
      · rw [List.append_assoc] at hclash
        refine .inr ⟨i :: front, j, after, s', rfl, hclash, ?_⟩
        refine Lower.bind_error.2 (.inr ⟨claimed, s, Lower.ofExcept_ok.2 ⟨hclaim, rfl⟩, ?_⟩)
        refine Lower.bind_error.2 (.inr ⟨(loads, met), next, hmet, ?_⟩)
        exact Lower.bind_error.2 (.inl herror)

end Resolve

namespace Resolves

theorem split {front : List Instruction}
    (h : Resolves catalog before (front ++ i :: after) pieces) :
    ∃ ps loads qs, pieces = ps ++ { before := loads, instruction := i } :: qs ∧
      ¬ ClashesWith (before ++ front) i ∧
      List.Forall₂ (Instruction.IsLoad catalog) (opened (before ++ front) i) loads ∧
      Resolves catalog before front ps ∧
      Resolves catalog (before ++ front ++ [i]) after qs := by
  induction front generalizing before pieces with
  | nil =>
    cases h with
    | cons hfree hloads hrest =>
      rw [List.append_nil]
      exact ⟨[], _, _, rfl, hfree, hloads, .done, hrest⟩
  | cons first front ih =>
    cases h with
    | cons hfree hloads hrest =>
      obtain ⟨ps, loads, qs, rfl, hfree', hloads', hfront, hafter⟩ := ih hrest
      simp only [List.append_assoc, List.singleton_append] at hfree' hloads' hafter ⊢
      exact ⟨_ :: ps, loads, qs, rfl, hfree', hloads', .cons hfree hloads hfront, hafter⟩

theorem keeps (h : Resolves catalog before code pieces) :
    List.Forall₂ (fun i p => i = p.instruction) code pieces ∧ ∀ p ∈ pieces, p.after = [] := by
  induction h with
  | done => exact ⟨.nil, by simp⟩
  | cons _ _ _ ih => exact ⟨.cons rfl ih.1, List.forall_mem_cons.2 ⟨rfl, ih.2⟩⟩

theorem loads (h : Resolves catalog before code pieces) :
    ∃ ids, List.Forall₂ (Instruction.IsLoad catalog) ids (pieces.flatMap Piece.inserted) ∧
      ids.Nodup ∧
      ∀ id, id ∈ ids ↔ OpenIn (before ++ code) id ∧ ¬ ∃ j ∈ before, j.Meets id := by
  induction h with
  | done =>
    refine ⟨[], .nil, List.nodup_nil, fun id => ?_⟩
    simp only [List.not_mem_nil, List.append_nil, exists_meets, false_iff, not_and, not_not]
    exact .inr
  | @cons before i loads rest pieces _ hloads _ ih =>
    obtain ⟨ids, hids, hnodup, hmem⟩ := ih
    have hopened : ∀ id, id ∈ opened before i ↔
        id ∈ i.virtualSources ∧ ¬ ∃ j ∈ before, j.Meets id := fun id => by simp [mem_opened]
    refine ⟨opened before i ++ ids, ?_, ?_, fun id => ?_⟩
    · rw [List.flatMap_cons, Piece.inserted, List.append_nil]
      exact List.rel_append hloads hids
    · refine List.nodup_append.2 ⟨LiveInterval.nodup_eraseDups _, hnodup, ?_⟩
      rintro id hfirst _ hlater rfl
      refine ((hmem id).1 hlater).2 ⟨i, by simp, ?_⟩
      exact .inr ((hopened id).1 hfirst).1
    · have hnames : (∀ j ∈ before, ¬ j.Names id) ↔ ¬ ∃ j ∈ before, j.Names id := by simp
      rw [List.mem_append, hopened, hmem, exists_mem_concat, exists_meets, List.append_assoc,
        List.singleton_append, openIn_append, openIn_cons, hnames, Instruction.Meets]
      grind

end Resolves

/-- The code with a load for each open source. -/
structure LoadsOpenSources (catalog : Catalog) (code out : List Instruction) : Prop where
  /-- There is one load for each open id, and nothing else is new. -/
  inserted : ∃ ids loads, Inserts Eq code loads out ∧
    List.Forall₂ (Instruction.IsLoad catalog) ids loads ∧ ids.Nodup ∧
    ∀ id, id ∈ ids ↔ OpenIn code id
  /-- The loads of an instruction are in front of it or of the pointer label that waits for it. If it
  is a pointer label itself, the loads of the next one come between. -/
  placed : ∀ before i after, code = before ++ i :: after → ∃ lead loads gap back new new',
    out = lead ++ loads ++ Piece.waiting before ++ gap ++ i :: back ∧
    List.Forall₂ (Instruction.IsLoad catalog) (opened before i) loads ∧
    List.Forall₂ (Instruction.IsLoad catalog)
      (if i.isPointerLabel then (after.head?.map (opened (before ++ [i]))).getD [] else []) gap ∧
    Inserts Eq before new (lead ++ Piece.waiting before) ∧ Inserts Eq after new' (gap ++ back)

theorem Resolves.loadsOpenSources (h : Resolves catalog [] code pieces) :
    LoadsOpenSources catalog code (Piece.layout pieces) := by
  constructor
  · obtain ⟨ids, hloads, hnodup, hmem⟩ := h.loads
    refine ⟨ids, _, Piece.layout_inserts h.keeps.1, hloads, hnodup, fun id => ?_⟩
    simpa using hmem id
  · rintro before i after rfl
    obtain ⟨ps, loads, qs, rfl, _, hloads, hbefore, hafter⟩ := h.split
    rw [List.nil_append] at hloads hafter
    obtain ⟨hkeeps, hps⟩ := hbefore.keeps
    have hcode : ps.map Piece.instruction = before := by
      rw [← List.forall₂_eq_eq_eq, List.forall₂_map_left_iff]
      exact hkeeps.flip.imp fun _ _ => Eq.symm
    obtain ⟨lead, back, gap, hgap, hlead, hback, hout⟩ :=
      @Piece.layout_split ps qs { before := loads, instruction := i } hps rfl
    rw [hcode] at hlead hout
    refine ⟨lead, loads, gap, back, _, _, hout, hloads, ?_, hlead ▸ Piece.layout_inserts hkeeps,
      hback ▸ Piece.layout_inserts hafter.keeps.1⟩
    rw [hgap]
    dsimp only
    split
    · cases hafter with
      | done => exact .nil
      | cons _ hnext _ => exact hnext
    · exact .nil

/-- Resolution fails if and only if an instruction has an id that an earlier one has or that was
open before it. Otherwise it loads what is open and does nothing else. -/
theorem resolveImmediates_opens (hcatalog : Catalog.builtin xlen = .ok context.catalog)
    (code : List Instruction) (s : State) :
    ((∃ e s', resolveImmediates code context s = .error e s') ↔
      ∃ before i after, code = before ++ i :: after ∧ ClashesWith before i) ∧
    (∀ e s', resolveImmediates code context s = .error e s' →
      ∃ before i after, code = before ++ i :: after ∧ ClashesWith before i ∧
        e = .duplicateId i.id .instructions) ∧
    ∀ out s', resolveImmediates code context s = .ok out s' →
      LoadsOpenSources context.catalog code out := by
  have hstock := Catalog.builtin_stocked hcatalog
  rcases Seen.Knows.start.resolve hstock code s with
    ⟨pieces, s', hrun, hresolves⟩ | ⟨before, i, after, s', hcode, hclash, hrun⟩
  · have hok : resolveImmediates code context s = .ok (Piece.layout pieces) s' := by
      simp only [resolveImmediates, Lower.bind_ok, Lower.pure_ok]
      exact ⟨pieces, s', hrun, rfl, rfl⟩
    have hfree : ¬ ∃ before i after, code = before ++ i :: after ∧ ClashesWith before i := by
      rintro ⟨before, i, after, rfl, hclash⟩
      obtain ⟨_, _, _, _, hfree, _⟩ := hresolves.split
      exact hfree hclash
    simp only [hok, hfree, iff_false]
    refine ⟨by simp, by simp, fun out s' h => ?_⟩
    cases h
    exact hresolves.loadsOpenSources
  · have herror : resolveImmediates code context s = .error (.duplicateId i.id .instructions) s' :=
      Lower.bind_error.2 (.inl hrun)
    rw [List.nil_append] at hclash
    refine ⟨⟨fun _ => ⟨before, i, after, hcode, hclash⟩, fun _ => ⟨_, s', herror⟩⟩, ?_, ?_⟩
    · intro e s' h
      rw [herror] at h
      cases h
      exact ⟨before, i, after, hcode, hclash, rfl⟩
    · intro out s' h
      rw [herror] at h
      cases h

/-- A sum that reads its own id and another one, and behind a pointer label a difference of an id
that was read before and one that was not. -/
def openSum : List Instruction :=
  let op (slot : Slot) (id : Id) : Operand := { slot, type := .register .gpr, value := .virtual id }
  [{ id := "a", name := "add", category := .arithmetic, destination := some (op .rd "a"),
     sources := [op .rs1 "a", op .rs2 "b"] },
   .label "fault" "fault_label_0" true,
   { id := "d", name := "sub", category := .arithmetic, destination := some (op .rd "d"),
     sources := [op .rs1 "b", op .rs2 "c"] }]

theorem openSum_opens : Catalog.builtin .rv64 = .ok .rv64 ∧ ∃ out s',
    resolveImmediates openSum (standardContext .rv64) zeroState = .ok out s' ∧
    LoadsOpenSources .rv64 openSum out := by
  have hok : ((resolveImmediates openSum).result? (standardContext .rv64) zeroState).isSome := by
    decide +kernel
  obtain ⟨out, hout⟩ := Option.isSome_iff_exists.1 hok
  obtain ⟨s', h⟩ := Lower.result?_eq_some.1 hout
  have hcatalog : Catalog.builtin .rv64 = .ok (standardContext .rv64).catalog :=
    Catalog.builtin_rv64
  obtain ⟨_, _, hloads⟩ := resolveImmediates_opens hcatalog openSum zeroState
  exact ⟨Catalog.builtin_rv64, out, s', h, hloads out s' h⟩

end PlanLowering
