import Mathlib.Data.List.Chain
import PlanLowering.Proofs.LegalCode
import PlanLowering.Proofs.ValuePreservation

/-!
# Passes that only insert

Each pass over an instruction list keeps its instructions, all of them and in their order, and puts
others in between. What it may change about an instruction that it keeps, and what it puts in, is
said for each pass.
-/

namespace PlanLowering

/-- `out` holds the instructions of `code`, each as `keeps` allows, and those of `new`, either in
their order. -/
inductive Inserts (keeps : Instruction → Instruction → Prop) :
    List Instruction → List Instruction → List Instruction → Prop where
  | nil : Inserts keeps [] [] []
  | kept {i o code new out} (hkeeps : keeps i o) (h : Inserts keeps code new out) :
      Inserts keeps (i :: code) new (o :: out)
  | new {o code new out} (h : Inserts keeps code new out) : Inserts keeps code (o :: new) (o :: out)

/-- What stands around the instruction of a piece. -/
def Piece.inserted (p : Piece) : List Instruction := p.before ++ p.after

variable {keeps : Instruction → Instruction → Prop} {context : Context} {state state' : State}
variable {code code' new new' out out' : List Instruction} {pieces : List Piece}
variable {i o leave : Instruction} {id : Id}

namespace Inserts

theorem of_new (code : List Instruction) : Inserts keeps [] code code := by
  induction code with
  | nil => exact .nil
  | cons _ _ ih => exact ih.new

theorem of_forall₂ (h : List.Forall₂ keeps code out) : Inserts keeps code [] out := by
  induction h with
  | nil => exact .nil
  | cons hkeeps _ ih => exact ih.kept hkeeps

theorem append (h : Inserts keeps code new out) (h' : Inserts keeps code' new' out') :
    Inserts keeps (code ++ code') (new ++ new') (out ++ out') := by
  induction h with
  | nil => exact h'
  | kept hkeeps _ ih => exact ih.kept hkeeps
  | new _ ih => exact ih.new

theorem filter_new {p : Instruction → Bool} (h : Inserts keeps code new out)
    (hp : ∀ i ∈ code, ∀ o, keeps i o → p o = false) : out.filter p = new.filter p := by
  induction h with
  | nil => rfl
  | kept hkeeps _ ih =>
    obtain ⟨hfirst, hrest⟩ := List.forall_mem_cons.1 hp
    rw [List.filter_cons_of_neg (by simp [hfirst _ hkeeps]), ih hrest]
  | new _ ih => rw [List.filter_cons, List.filter_cons, ih hp]

end Inserts

/-- Pieces are laid out in the order of their instructions, be they held back or not. -/
theorem Piece.place_inserts (h : List.Forall₂ (fun i p => keeps i p.instruction) code pieces)
    {waiting held : List Instruction} (hheld : List.Forall₂ keeps waiting held) :
    Inserts keeps (waiting ++ code) (pieces.flatMap inserted) (place held pieces) := by
  induction h generalizing waiting held with
  | nil => simpa [place] using Inserts.of_forall₂ hheld
  | @cons i p code pieces hkeeps _ ih =>
    have hfront : Inserts keeps ([] ++ waiting) (p.before ++ []) (p.before ++ held) :=
      (Inserts.of_new p.before).append (.of_forall₂ hheld)
    rw [place]
    split
    · next hlabel =>
      have hwaits : List.Forall₂ keeps [i] [p.instruction] := .cons hkeeps .nil
      simpa [inserted, hlabel.2] using hfront.append (ih hwaits)
    · have hown : Inserts keeps [i] p.after (p.instruction :: p.after) :=
        (Inserts.of_new p.after).kept hkeeps
      have hrest := hown.append (ih .nil)
      simpa [inserted] using hfront.append hrest

theorem Piece.layout_inserts (h : List.Forall₂ (fun i p => keeps i p.instruction) code pieces) :
    Inserts keeps code (pieces.flatMap inserted) (layout pieces) := by
  have hplace := place_inserts h .nil
  rwa [List.nil_append] at hplace

/-- A pass keeps the instruction, and what it `makes` in front of it is for ids that it reads. -/
structure Piece.Precedes (keeps : Instruction → Instruction → Prop)
    (makes : Id → Instruction → Prop) (i : Instruction) (p : Piece) : Prop where
  keeps : keeps i p.instruction
  before : ∀ o ∈ p.before, ∃ id ∈ i.virtualSources, makes id o
  after : p.after = []

theorem Piece.precedes_inserts {makes : Id → Instruction → Prop}
    (h : List.Forall₂ (Precedes keeps makes) code pieces) :
    ∃ new, Inserts keeps code new (layout pieces) ∧
      ∀ o ∈ new, ∃ i ∈ code, ∃ id ∈ i.virtualSources, makes id o := by
  refine ⟨_, layout_inserts (h.imp fun _ _ hp => hp.keeps), fun o ho => ?_⟩
  obtain ⟨p, hp, ho⟩ := List.mem_flatMap.1 ho
  obtain ⟨i, hi, hprecedes⟩ := exists_of_forall₂ h hp
  rw [inserted, hprecedes.after, List.append_nil] at ho
  exact ⟨i, hi, hprecedes.before o ho⟩

namespace Piece

/-- The pointer label at the end of code, which waits for what comes behind. -/
def waiting (code : List Instruction) : List Instruction :=
  code.getLast?.toList.filter (·.isPointerLabel)

@[simp] theorem waiting_concat (code : List Instruction) (i : Instruction) :
    waiting (code ++ [i]) = if i.isPointerLabel then [i] else [] := by
  by_cases hlabel : i.isPointerLabel <;> simp [waiting, hlabel]

theorem waiting_labels (code : List Instruction) :
    (waiting code).length ≤ 1 ∧ ∀ l ∈ waiting code, l.isPointerLabel := by
  refine ⟨(List.length_filter_le _ _).trans ?_, fun l hl => (List.mem_filter.1 hl).2⟩
  cases code.getLast? <;> simp

/-- What is waiting at the end of a list goes past what is put in front of the next instruction. -/
theorem place_behind {ps : List Piece} (hafter : ∀ p ∈ ps, p.after = []) :
    ∃ lead, ∀ rest, place [] (ps ++ rest) =
      lead ++ place (waiting (ps.map instruction)) rest := by
  induction ps using List.reverseRecOn with
  | nil => exact ⟨[], fun _ => rfl⟩
  | append_singleton ps p ih =>
    have hp : p.after = [] := hafter p (by simp)
    obtain ⟨lead, hlead⟩ := ih fun q hq => hafter q (List.mem_append_left _ hq)
    by_cases hlabel : p.instruction.isPointerLabel
    · refine ⟨lead ++ p.before ++ waiting (ps.map instruction), fun rest => ?_⟩
      rw [List.append_assoc, hlead, List.singleton_append, place, if_pos ⟨hlabel, hp⟩]
      simp [hlabel]
    · refine ⟨lead ++ p.before ++ waiting (ps.map instruction) ++ [p.instruction], fun rest => ?_⟩
      rw [List.append_assoc, hlead, List.singleton_append, place,
        if_neg fun hboth => hlabel hboth.1, hp]
      simp [hlabel]

theorem place_waiting (i : Instruction) (qs : List Piece) :
    ∃ back, place [i] qs = (qs.head?.map before).getD [] ++ i :: back ∧
      layout qs = (qs.head?.map before).getD [] ++ back := by
  cases qs with
  | nil => exact ⟨[], rfl, rfl⟩
  | cons q qs =>
    exact ⟨_, by rw [place, List.append_assoc]; rfl, by rw [layout, place, List.append_nil]; rfl⟩

/-- Where the code for an instruction stands. A label that waits comes behind it. Only if the
instruction is itself such a label, the code for the next one gets in between. -/
theorem layout_split {ps qs : List Piece} {p : Piece} (hafter : ∀ q ∈ ps, q.after = [])
    (hp : p.after = []) :
    ∃ lead back, ∃ gap : List Instruction,
      gap = (if p.instruction.isPointerLabel then (qs.head?.map before).getD [] else []) ∧
      layout ps = lead ++ waiting (ps.map instruction) ∧ layout qs = gap ++ back ∧
      layout (ps ++ p :: qs) =
        lead ++ p.before ++ waiting (ps.map instruction) ++ gap ++ p.instruction :: back := by
  obtain ⟨lead, hlead⟩ := place_behind hafter
  have hps : layout ps = lead ++ waiting (ps.map instruction) := by
    have hall := hlead []
    rwa [List.append_nil] at hall
  by_cases hlabel : p.instruction.isPointerLabel
  · obtain ⟨back, hplace, hqs⟩ := place_waiting p.instruction qs
    refine ⟨lead, back, _, rfl, hps, by rw [if_pos hlabel, hqs], ?_⟩
    rw [layout, hlead, place, if_pos ⟨hlabel, hp⟩, hplace, if_pos hlabel]
    simp
  · refine ⟨lead, layout qs, _, rfl, hps, by rw [if_neg hlabel]; rfl, ?_⟩
    rw [layout, hlead, place, if_neg fun hboth => hlabel hboth.1, hp, if_neg hlabel]
    simp [layout]

end Piece

/-- A fresh instruction of a template, with a value in one source and an id for its result. -/
def Instruction.WiredFrom (t : Template) (source : Operand → Bool) (value : OperandValue) (id : Id)
    (o : Instruction) : Prop :=
  ∃ op sources, t.instruction.destination = some op ∧
    setFirst source value t.instruction.sources = some sources ∧
    o = { t.instruction with id, sources, destination := some { op with value := .virtual id } }

section Resolve

/-- A `li` of the catalog with a number, into an id. -/
def Instruction.IsLi (catalog : Catalog) (id : Id) (o : Instruction) : Prop :=
  ∃ t value, catalog.find? "li" = some t ∧ o.WiredFrom t (·.type = .imm) (.imm value) id

/-- Such a `li` whose number takes two to 32 bits. -/
def Instruction.IsLoad (catalog : Catalog) (id : Id) (o : Instruction) : Prop :=
  ∃ t value, catalog.find? "li" = some t ∧ 3 ≤ value ∧ value ≤ 0xffffffff ∧
    o.WiredFrom t (·.type = .imm) (.imm value) id

theorem Lower.randomValue_isLoad (h : Lower.randomValue id context state = .ok o state') :
    o.IsLoad context.catalog id := by
  simp only [randomValue, bind_ok, instruction_ok, ofExcept_ok, pure_ok, draw_ok,
    Instruction.setImmediate_ok, Instruction.setDestination_ok] at h
  obtain ⟨_, _, ⟨hli, _⟩, value, _, ⟨_, hdraw, _⟩, _, _, ⟨⟨sources, hsources, rfl⟩, _⟩, _, _,
    ⟨⟨op, hop, rfl⟩, _⟩, rfl, _⟩ := h
  obtain ⟨t, ht, rfl⟩ := Catalog.instruction_ok.1 hli
  obtain ⟨hlow, hhigh⟩ := (Draw.width_between (by decide) (by decide)).of_ok hdraw
  exact ⟨t, value, ht, hlow, hhigh, op, sources, hop, hsources, rfl⟩

theorem Lower.randomValue_isLi (h : Lower.randomValue id context state = .ok o state') :
    o.IsLi context.catalog id := by
  obtain ⟨t, value, ht, _, _, hwired⟩ := randomValue_isLoad h
  exact ⟨t, value, ht, hwired⟩

theorem Seen.materialize_isLi {seen seen' : Seen} {ids : List Id}
    (h : seen.materialize ids context state = .ok (new, seen') state') :
    ∀ o ∈ new, ∃ id ∈ ids, o.IsLi context.catalog id := by
  replace h := materialize_ok h
  induction h with
  | done => simp
  | known _ _ ih => exact fun o ho => (ih o ho).imp fun _ => And.imp_left (List.mem_cons_of_mem _)
  | load _ hli _ ih =>
    refine List.forall_mem_cons.2 ⟨⟨_, List.mem_cons_self, Lower.randomValue_isLi hli⟩, ?_⟩
    exact fun o ho => (ih o ho).imp fun _ => And.imp_left (List.mem_cons_of_mem _)

theorem Seen.resolve_precedes {seen : Seen}
    (h : seen.resolve code context state = .ok pieces state') :
    List.Forall₂ (Piece.Precedes Eq (Instruction.IsLi context.catalog)) code pieces := by
  replace h := resolve_ok h
  induction h with
  | done => exact .nil
  | next _ hbefore _ ih => exact .cons ⟨rfl, materialize_isLi hbefore, rfl⟩ ih

end Resolve

section Casts

/-- A cast of the catalog from one file to the other, of an id into a fresh one. -/
def Instruction.IsCast (catalog : Catalog) (fresh id : Id) (o : Instruction) : Prop :=
  ∃ source target, ∃ t ∈ catalog.filter (.cast (.register source) (.register target)),
    o.WiredFrom t (·.slot = .rs1) (.virtual id) fresh

def Instruction.Casts (catalog : Catalog) (source target : RegisterFile) (id fresh : Id)
    (o : Instruction) : Prop :=
  ∃ t ∈ catalog.filter (.cast (.register source) (.register target)),
    o.WiredFrom t (·.slot = .rs1) (.virtual id) fresh

theorem Produced.cast_casts {source target : RegisterFile} {consumer fresh : Id}
    (h : cast source target id consumer context state = .ok (fresh, o) state') :
    o.Casts context.catalog source target id fresh := by
  simp only [cast, Lower.bind_ok, Lower.read_ok] at h
  obtain ⟨_, _, ⟨rfl, rfl⟩, h⟩ := h
  cases hcandidates : context.catalog.filter (.cast (.register source) (.register target)) with
  | nil => simp [hcandidates] at h
  | cons first rest =>
    simp only [hcandidates] at h
    simp only [Lower.bind_ok, Lower.ofExcept_ok, Lower.pure_ok, Prod.mk.injEq,
      Instruction.setSource_ok, Instruction.setDestination_ok] at h
    obtain ⟨_, _, _, _, _, hi, _, _, ⟨⟨sources, hsources, rfl⟩, _⟩, _, _, ⟨⟨op, hop, rfl⟩, _⟩,
      ⟨rfl, rfl⟩, _⟩ := h
    rw [← hcandidates] at hi
    obtain ⟨t, ht, rfl⟩ := Lower.chooseFrom_ok hi
    exact ⟨t, ht, op, sources, hop, hsources, rfl⟩

theorem Produced.cast_isCast {source target : RegisterFile} {consumer fresh : Id}
    (h : cast source target id consumer context state = .ok (fresh, o) state') :
    o.IsCast context.catalog fresh id :=
  ⟨source, target, cast_casts h⟩

theorem Produced.castSources_isCast {produced produced' : Produced} {ops ops' : List Operand}
    {consumer : Id}
    (h : castSources consumer produced ops context state = .ok (ops', new, produced') state') :
    ∀ o ∈ new, ∃ id ∈ ops.filterMap Operand.virtual?, ∃ fresh,
      o.IsCast context.catalog fresh id := by
  replace h := castSources_ok h
  have hlater : ∀ {op : Operand} {ops : List Operand} {id : Id},
      id ∈ ops.filterMap Operand.virtual? → id ∈ (op :: ops).filterMap Operand.virtual? :=
    fun hid => ((List.sublist_cons_self _ _).filterMap _).subset hid
  induction h with
  | done => simp
  | kept _ _ ih => exact fun o ho => (ih o ho).imp fun _ => And.imp_left hlater
  | @cast _ _ _ _ id _ _ fresh _ _ _ _ _ _ hmismatch hcast _ ih =>
    have hid := (mismatch_eq_some hmismatch).1
    refine List.forall_mem_cons.2 ⟨⟨id, by simp [hid], fresh, cast_isCast hcast⟩, ?_⟩
    exact fun o ho => (ih o ho).imp fun _ => And.imp_left hlater

theorem Produced.castAll_precedes {produced : Produced}
    (h : castAll produced code context state = .ok pieces state') :
    List.Forall₂ (Piece.Precedes Instruction.Recast fun id o =>
      ∃ fresh, o.IsCast context.catalog fresh id) code pieces := by
  replace h := castAll_ok h
  induction h with
  | done => exact .nil
  | @next _ _ _ _ sources _ _ _ _ _ hsources _ ih =>
    exact .cons ⟨⟨sources, (castSources_recast hsources).1, rfl⟩, castSources_isCast hsources, rfl⟩ ih

end Casts

namespace Allocation

variable {a : Allocation} {spill : SpillCode} {reloads reloads' : Reloads} {consumer : Id}
variable {ops ops' : List Operand} {p : Piece}

/-- The id has a stack slot instead of a register. -/
def isSpilled (a : Allocation) (id : Id) : Bool :=
  (a.registers.get? id).isNone && (a.slots.get? id).isSome

def spilledSources (a : Allocation) (i : Instruction) : List Id :=
  (i.virtualSources.filter a.isSpilled).eraseDups

def spilledDestination? (a : Allocation) (i : Instruction) : Option Id :=
  i.virtualDestination?.filter a.isSpilled

def IsReload (a : Allocation) (spill : SpillCode) (id : Id) (o : Instruction) : Prop :=
  ∃ r slot, a.slots.get? id = some slot ∧ spill.reload r slot id = .ok o

def IsSave (a : Allocation) (spill : SpillCode) (id : Id) (o : Instruction) : Prop :=
  ∃ r slot, a.slots.get? id = some slot ∧ spill.save r slot id = .ok o

/-- What allocation makes of an instruction: registers stand for its ids, one reload is in front of
it for each spilled id that it reads, and one save is behind it if it defines a spilled id. -/
structure Surrounds (a : Allocation) (spill : SpillCode) (i : Instruction) (p : Piece) : Prop where
  placed : i.Placed p.instruction
  before : List.Forall₂ (a.IsReload spill) (a.spilledSources i) p.before
  after : List.Forall₂ (a.IsSave spill) (a.spilledDestination? i).toList p.after

/-- The spilled ids among the operands that no scratch register holds yet. -/
def missing (a : Allocation) (reloads : Reloads) (ops : List Operand) : List Id :=
  (ops.filterMap Operand.virtual?).filter fun id =>
    a.isSpilled id && (reloads.held.get? id).isNone

/-- A reload takes its id off the list, wherever it occurs. -/
theorem missing_insert (r : Register) (code : List Instruction) : 
    a.missing { held := reloads.held.insert id r, code } ops =
      (a.missing reloads ops).filter fun key => !(key == id) := by
  rw [missing, missing, List.filter_filter]
  congr 1
  funext key
  by_cases hkey : key = id <;> simp [hkey]

theorem replaceSources_reloads
    (h : a.replaceSources spill consumer reloads ops = .ok (ops', reloads')) :
    ∃ more, reloads'.code = reloads.code ++ more ∧
      List.Forall₂ (a.IsReload spill) (a.missing reloads ops).eraseDups more := by
  induction ops generalizing reloads ops' with
  | nil =>
    simp only [replaceSources, except_pure_ok, Prod.mk.injEq] at h
    exact ⟨[], by simp [h.2], by simp [missing]⟩
  | cons op rest ih =>
    cases hop : op.virtual? with
    | none =>
      simp only [replaceSources, hop, except_bind_ok, except_pure_ok, Prod.exists,
        Prod.mk.injEq] at h
      obtain ⟨_, _, hrest, _, rfl⟩ := h
      simpa [missing, hop] using ih hrest
    | some id =>
      obtain ⟨file, hfile⟩ := Operand.file_of_virtual hop
      simp only [replaceSources, hop, hfile, except_bind_ok] at h
      obtain ⟨location, hlocation, h⟩ := h
      rcases location_ok hlocation with ⟨s, hs, rfl⟩ | ⟨n, hnone, hn, rfl⟩
      · simp only [except_bind_ok, except_pure_ok, Prod.exists, Prod.mk.injEq] at h
        obtain ⟨_, _, ⟨rfl, rfl⟩, _, _, hrest, _, rfl⟩ := h
        simpa [missing, hop, isSpilled, hs] using ih hrest
      · simp only [except_bind_ok, except_pure_ok, Prod.exists, Prod.mk.injEq] at h
        obtain ⟨r, next, hr, _, _, hrest, _, rfl⟩ := h
        obtain ⟨more, hmore, hreloads⟩ := ih hrest
        rcases Reloads.reload_cases hr with ⟨hheld, rfl⟩ | ⟨hheld, _, o, ho, rfl⟩
        · exact ⟨more, hmore, by simpa [missing, hop, hheld] using hreloads⟩
        · have hfirst : a.missing reloads (op :: rest) = id :: a.missing reloads rest := by
            simp [missing, hop, isSpilled, hnone, hn, hheld]
          refine ⟨o :: more, by simp [hmore], ?_⟩
          rw [hfirst, List.eraseDups_cons, ← missing_insert]
          exact .cons ⟨r, n, hn, ho⟩ hreloads

theorem Targeted.saves {op op' : Operand} (h : a.Targeted spill reloads op op' out) :
    List.Forall₂ (a.IsSave spill) (op.virtual?.filter a.isSpilled).toList out := by
  cases h with
  | fixed hop => simp [hop]
  | register hop hr => simp [hop, isSpilled, hr]
  | slot hop _ hnone hn _ ho => 
    simpa [hop, isSpilled, hnone, hn, Option.filter] using ⟨_, _, hn, ho⟩

theorem replaceOperands_surrounds (h : a.replaceOperands spill i = .ok p) :
    a.Surrounds spill i p := by
  have hrun := h
  simp only [replaceOperands, except_bind_ok, Prod.exists] at h
  obtain ⟨sources, reloads, hsources, h⟩ := h
  obtain ⟨_, _, hrewrites⟩ :=
    replaceOperands_ok (Reloads.makes_preserved a _) (by simp) hrun
  obtain ⟨more, hmore, hreloads⟩ := replaceSources_reloads hsources
  have hmissing : a.missing {} i.sources = i.virtualSources.filter a.isSpilled := by
    simp [missing, Instruction.virtualSources]
  rw [hmissing] at hreloads
  have hcode : reloads.code = more := by simpa using hmore
  refine ⟨hrewrites.placed, ?_, ?_⟩
  · have hbefore : p.before = reloads.code := by
      cases hdest : i.destination with
      | none =>
        simp only [hdest, except_pure_ok] at h
        exact h ▸ rfl
      | some op =>
        simp only [hdest, except_bind_ok, except_pure_ok, Prod.exists] at h
        obtain ⟨_, _, _, rfl⟩ := h
        rfl
    rw [hbefore, hcode]
    exact hreloads
  · rcases hrewrites.destination with ⟨hdest, _, hafter⟩ | ⟨op, _, hdest, _, htargeted⟩
    · simp [spilledDestination?, Instruction.virtualDestination?, hdest, hafter]
    · simpa [spilledDestination?, Instruction.virtualDestination?, hdest] using htargeted.saves

theorem replaceAll_surrounds (h : a.replaceAll spill code = .ok pieces) :
    List.Forall₂ (a.Surrounds spill) code pieces := by
  obtain ⟨pairs, rfl, rfl, hpairs⟩ := replaceAll_pairs h
  refine List.forall₂_map_left_iff.2 (List.forall₂_map_right_iff.2 (List.forall₂_same.2 ?_))
  exact fun pair hpair => replaceOperands_surrounds (hpairs pair hpair)

end Allocation

namespace SpillCode

variable {spill : SpillCode} {slots : Nat} {body : List Instruction}

/-- A label at the entry stays outside the frame. -/
def framedPart : List Instruction → List Instruction
  | [] => []
  | first :: rest => if first.isLabel then rest else first :: rest

/-- The body alone where nothing is on the stack. Otherwise one instruction that opens the frame,
and one directly in front of each `ret` that closes it. -/
inductive Framed (spill : SpillCode) (slots : Nat) (body : List Instruction) :
    List Instruction → Prop where
  | absent (hslots : slots = 0) : Framed spill slots body body
  | present {enter leave out} (hslots : slots ≠ 0)
      (henter : spill.moveStack (-spill.offset slots) "spill_frame_open" = .ok enter)
      (hleave : spill.moveStack (spill.offset slots) "spill_frame_close" = .ok leave)
      (hinserts : Inserts Eq body
        (enter :: List.replicate ((framedPart body).countP (·.name = "ret")) leave) out)
      (hcloses : out.IsChain fun before i => i.name = "ret" → before = leave) :
      Framed spill slots body out

def closing (leave : Instruction) (code : List Instruction) : List Instruction :=
  code.flatMap fun i => if i.name = "ret" then [leave, i] else [i]

theorem closing_cons : closing leave (i :: code) =
    (if i.name = "ret" then [leave, i] else [i]) ++ closing leave code := rfl

theorem closing_inserts (leave : Instruction) (code : List Instruction) :
    Inserts Eq code (List.replicate (code.countP (·.name = "ret")) leave)
      (closing leave code) := by
  induction code with
  | nil => exact .nil
  | cons i rest ih =>
    rw [closing_cons]
    by_cases hret : i.name = "ret"
    · simpa [hret, List.replicate_succ] using (ih.kept (Eq.refl i)).new
    · simpa [hret] using ih.kept (Eq.refl i)

/-- No `ret` comes first, so whatever stands in front leaves the returns as they are. -/
theorem closing_follows (hleave : leave.name ≠ "ret") (before : Instruction) :
    ∀ o ∈ (closing leave code).head?, o.name = "ret" → before = leave := by
  cases code with
  | nil => simp [closing]
  | cons i rest =>
    rw [closing_cons]
    by_cases hret : i.name = "ret"
    · simp [hret, hleave]
    · simp [hret]

theorem closing_closes (hleave : leave.name ≠ "ret") (code : List Instruction) :
    (closing leave code).IsChain fun before i => i.name = "ret" → before = leave := by
  induction code with
  | nil => exact .nil
  | cons i rest ih =>
    rw [closing_cons]
    have hrest := List.isChain_cons.2 ⟨closing_follows hleave i, ih⟩
    by_cases hret : i.name = "ret"
    · simpa [hret] using List.IsChain.cons_cons (fun _ => rfl) hrest
    · simpa [hret] using hrest

theorem frame_framed (hcontext : ofContext context = .ok spill) (hslots : slots ≠ 0)
    (h : spill.frame slots body = .ok out) : spill.Framed slots body out := by
  simp only [frame, except_bind_ok] at h
  obtain ⟨enter, henter, leave, hleave, h⟩ := h
  have hopen : enter.name ≠ "ret" := (Makes.moveStack henter).ne_return hcontext
  have hclose : leave.name ≠ "ret" := (Makes.moveStack hleave).ne_return hcontext
  have hchain (code : List Instruction) : (enter :: closing leave code).IsChain
      fun before i => i.name = "ret" → before = leave :=
    List.isChain_cons.2 ⟨closing_follows hclose enter, closing_closes hclose code⟩
  cases body with
  | nil =>
    rw [except_pure_ok] at h
    subst h
    exact .present hslots henter hleave (Inserts.of_new _) (hchain [])
  | cons first rest =>
    dsimp only at h
    by_cases hlabel : first.isLabel
    · rw [if_pos hlabel, except_pure_ok] at h
      subst h
      have hinserts := ((closing_inserts leave rest).new (o := enter)).kept (Eq.refl first)
      refine .present hslots henter hleave ?_ ?_
      · rwa [framedPart, if_pos hlabel]
      · exact .cons_cons (fun hret => absurd hret hopen) (hchain rest)
    · rw [if_neg hlabel, except_pure_ok] at h
      subst h
      have hinserts := (closing_inserts leave (first :: rest)).new (o := enter)
      refine .present hslots henter hleave ?_ (hchain (first :: rest))
      rwa [framedPart, if_neg hlabel]

end SpillCode

theorem Allocation.apply_inserts {a : Allocation} (h : a.apply context code = .ok out) :
    ∃ spill pieces, SpillCode.ofContext context = .ok spill ∧
      List.Forall₂ (a.Surrounds spill) code pieces ∧
      Inserts Instruction.Placed code (pieces.flatMap Piece.inserted) (Piece.layout pieces) ∧
      spill.Framed a.slots.size (Piece.layout pieces) out := by
  obtain ⟨spill, pieces, hspill, hpieces, hframe⟩ := apply_ok h
  have hsurrounds := replaceAll_surrounds hpieces
  refine ⟨spill, pieces, hspill, hsurrounds,
    Piece.layout_inserts (hsurrounds.imp fun _ _ hp => hp.placed), ?_⟩
  rcases hframe with ⟨hslots, rfl⟩ | ⟨hslots, hframe⟩
  · exact .absent hslots
  · exact SpillCode.frame_framed hspill hslots hframe

/-- Resolution puts in `li` only, casting puts in casts only, and allocation reloads, saves and a
frame. Instructions stay as they are but for ids in register operands. -/
theorem passes_insert :
    (∀ {code context state out state'},
      resolveImmediates code context state = .ok out state' →
      ∃ new, Inserts Eq code new out ∧
        ∀ o ∈ new, ∃ i ∈ code, ∃ id ∈ i.virtualSources, o.IsLi context.catalog id) ∧
    (∀ {code context state out state'},
      insertCasts code context state = .ok out state' →
      ∃ new, Inserts Instruction.Recast code new out ∧
        ∀ o ∈ new, ∃ i ∈ code, ∃ id ∈ i.virtualSources, ∃ fresh,
          o.IsCast context.catalog fresh id) ∧
    ∀ {pool code context state out state'},
      allocate pool code context state = .ok out state' →
      ∃ a spill pieces, Allocation.ofCode pool code context state = .ok a state' ∧
        SpillCode.ofContext context = .ok spill ∧
        List.Forall₂ (a.Surrounds spill) code pieces ∧
        Inserts Instruction.Placed code (pieces.flatMap Piece.inserted) (Piece.layout pieces) ∧
        spill.Framed a.slots.size (Piece.layout pieces) out := by
  refine ⟨?_, ?_, ?_⟩
  · intro code context state out state' h
    simp only [resolveImmediates, Lower.bind_ok, Lower.pure_ok] at h
    obtain ⟨pieces, _, hpieces, rfl, rfl⟩ := h
    exact Piece.precedes_inserts (Seen.resolve_precedes hpieces)
  · intro code context state out state' h
    simp only [insertCasts, Lower.bind_ok, Lower.pure_ok] at h
    obtain ⟨pieces, _, hpieces, rfl, rfl⟩ := h
    exact Piece.precedes_inserts (Produced.castAll_precedes hpieces)
  · intro pool code context state out state' h
    obtain ⟨a, _, hofCode, _, happly⟩ := allocate_ok h
    obtain ⟨spill, pieces, hspill, hinserted⟩ := Allocation.apply_inserts happly
    exact ⟨a, spill, pieces, hofCode, hspill, hinserted⟩

/-- Integer and float values in two instructions that read a value and define one. -/
def mixedCode : List Instruction :=
  [{ id := "x", name := "addi", category := .arithmetic,
     destination := some { slot := .rd, type := .register .gpr, value := .virtual "x" },
     sources := [{ slot := .rs1, type := .register .gpr, value := .virtual "a" },
       { slot := .imm, type := .imm, value := .imm 4 }] },
   { id := "y", name := "fmul.s", category := .arithmetic,
     destination := some { slot := .rd, type := .register .fpr, value := .virtual "y" },
     sources := [{ slot := .rs1, type := .register .fpr, value := .virtual "x" },
       { slot := .rs2, type := .register .fpr, value := .virtual "x" }] },
   { id := "", name := "ret", category := .jump }]

/-- A catalog with what the passes put in and nothing else. -/
def insertionContext : Context :=
  let specs : List TemplateSpec := spillSpecs ++
    [{ name := "fld", operands := "fd, rs1, imm", category := .load },
     { name := "fsd", operands := "fs2, rs1, imm", category := .store },
     { name := "li", operands := "rd, imm", category := .pseudo },
     { name := "fmv.w.x", operands := "fd, rs1", category := .cast }]
  { spillContext with catalog := (Catalog.ofSpecs specs .rv64).toOption.getD .empty }

/-- Without a register to hand out, every value of the code goes to the stack. -/
def mixedRun : Lower (List Instruction) := do
  let resolved ← resolveImmediates mixedCode
  let cast ← insertCasts resolved
  allocate { gprs := 0, fprs := 0 } cast

theorem mixedCode_passes_insert : ∃ resolved cast out s₁ s₂ s₃,
    resolveImmediates mixedCode insertionContext zeroState = .ok resolved s₁ ∧
    (∃ new, Inserts Eq mixedCode new resolved ∧ ∀ o ∈ new, ∃ i ∈ mixedCode,
      ∃ id ∈ i.virtualSources, o.IsLi insertionContext.catalog id) ∧
    insertCasts resolved insertionContext s₁ = .ok cast s₂ ∧
    (∃ new, Inserts Instruction.Recast resolved new cast ∧ ∀ o ∈ new, ∃ i ∈ resolved,
      ∃ id ∈ i.virtualSources, ∃ fresh, o.IsCast insertionContext.catalog fresh id) ∧
    allocate { gprs := 0, fprs := 0 } cast insertionContext s₂ = .ok out s₃ ∧
    ∃ a spill pieces,
      Allocation.ofCode { gprs := 0, fprs := 0 } cast insertionContext s₂ = .ok a s₃ ∧
      SpillCode.ofContext insertionContext = .ok spill ∧
      List.Forall₂ (a.Surrounds spill) cast pieces ∧
      Inserts Instruction.Placed cast (pieces.flatMap Piece.inserted) (Piece.layout pieces) ∧
      spill.Framed a.slots.size (Piece.layout pieces) out := by
  have hok : (mixedRun.result? insertionContext zeroState).isSome := by decide +kernel
  obtain ⟨out, hout⟩ := Option.isSome_iff_exists.1 hok
  obtain ⟨s₃, h⟩ := Lower.result?_eq_some.1 hout
  simp only [mixedRun, Lower.bind_ok] at h
  obtain ⟨resolved, s₁, hresolved, cast, s₂, hcast, hout⟩ := h
  obtain ⟨hresolve, hinsert, hallocate⟩ := passes_insert
  exact ⟨resolved, cast, out, s₁, s₂, s₃, hresolved, hresolve hresolved, hcast, hinsert hcast,
    hout, hallocate hout⟩

end PlanLowering
