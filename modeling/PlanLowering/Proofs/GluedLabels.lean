import PlanLowering.Proofs.FunctionCode
import PlanLowering.Proofs.Insertion
import PlanLowering.Proofs.Rv64Catalog

/-!
# What allocation puts behind a label

A pointer label is the address of the instruction behind it, any other label a target for jumps.
Allocation has both in mind where it puts reloads. The frame is put in without a look at the kind of
a label: it is opened behind a label at the entry and closed directly in front of each return, so a
pointer label that stands there is no longer in front of its instruction.
-/

namespace PlanLowering

variable {a : Allocation} {spill : SpillCode} {context : Context} {state state' : State}
variable {pool : RegisterPool} {code out before after : List Instruction}
variable {x i enter leave : Instruction} {p q : Piece} {lines body front gap back : List Line}
variable {pairs rest : List (Instruction × Piece)} {recorded : IdMap (List Register)}

/-- The lines between those of two instructions, of which the one follows the other in the code. -/
def Splits (lines : List Line) (before : List Instruction) (x : Instruction) (gap : List Line)
    (i : Instruction) (after : List Instruction) : Prop :=
  ∃ front back o o', lines = front ++ ⟨some x, o⟩ :: (gap ++ ⟨some i, o'⟩ :: back) ∧
    front.filterMap Line.origin = before ∧ gap.filterMap Line.origin = [] ∧
    back.filterMap Line.origin = after

section Split

theorem origins_inserted (code : List Instruction) :
    (code.map Line.inserted).filterMap Line.origin = [] := by
  simp

theorem append_cons_inj_of_origins {xs xs' ys ys' : List Line} {line line' : Line}
    (hline : line.origin.isSome) (hline' : line'.origin.isSome)
    (horigins : xs.filterMap Line.origin = xs'.filterMap Line.origin)
    (h : xs ++ line :: ys = xs' ++ line' :: ys') : xs = xs' ∧ ys = ys' := by
  obtain ⟨o, ho⟩ := Option.isSome_iff_exists.1 hline
  obtain ⟨o', ho'⟩ := Option.isSome_iff_exists.1 hline'
  induction xs generalizing xs' with
  | nil =>
    cases xs' with
    | nil => exact ⟨rfl, (List.cons.inj h).2⟩
    | cons first xs' =>
      obtain ⟨rfl, _⟩ := List.cons.inj h
      simp [ho] at horigins
  | cons first xs ih =>
    cases xs' with
    | nil =>
      obtain ⟨rfl, _⟩ := List.cons.inj h
      simp [ho'] at horigins
    | cons first' xs' =>
      rw [List.cons_append, List.cons_append] at h
      obtain ⟨rfl, hrest⟩ := List.cons.inj h
      have hsame : xs.filterMap Line.origin = xs'.filterMap Line.origin := by
        cases horigin : first.origin <;> simpa [horigin] using horigins
      obtain ⟨rfl, rfl⟩ := ih hsame hrest
      exact ⟨rfl, rfl⟩

theorem Splits.unique {gap' : List Line} (h : Splits lines before x gap i after)
    (h' : Splits lines before x gap' i after) : gap = gap' := by
  obtain ⟨front, back, o, o', rfl, hfront, hgap, _⟩ := h
  obtain ⟨front', back', o₂, o₂', hlines, hfront', hgap', _⟩ := h'
  obtain ⟨_, hbehind⟩ :=
    append_cons_inj_of_origins rfl rfl (hfront.trans hfront'.symm) hlines
  exact (append_cons_inj_of_origins rfl rfl (hgap.trans hgap'.symm) hbehind).1

end Split

section Body

theorem placedLines_append (held : List Line) (pairs rest : List (Instruction × Piece)) :
    ∃ front held', placedLines held (pairs ++ rest) = front ++ placedLines held' rest ∧
      (front ++ held').filterMap Line.origin =
        held.filterMap Line.origin ++ pairs.map Prod.fst ∧
      (pairs = [] → front = [] ∧ held' = held) := by
  induction pairs generalizing held with
  | nil => exact ⟨[], held, rfl, by simp, fun _ => ⟨rfl, rfl⟩⟩
  | cons pair pairs ih =>
    obtain ⟨j, piece⟩ := pair
    rw [List.cons_append, placedLines]
    split
    · obtain ⟨front, held', hplaced, horigins, _⟩ := ih [⟨some j, piece.instruction⟩]
      refine ⟨piece.before.map .inserted ++ held ++ front, held', ?_, ?_, by simp⟩
      · rw [hplaced, List.append_assoc _ front]
      · rw [List.append_assoc _ front, List.filterMap_append, horigins]
        simp
    · obtain ⟨front, held', hplaced, horigins, _⟩ := ih []
      refine ⟨piece.before.map .inserted ++ held ++
        (⟨some j, piece.instruction⟩ :: piece.after.map .inserted ++ front), held', ?_, ?_, by simp⟩
      · rw [hplaced]
        simp
      · simpa using horigins

/-- A line that is held back is put in front of the next instruction, behind its reloads. -/
theorem placedLines_held (line : Line) (rest : List (Instruction × Piece)) :
    ∃ more back, placedLines [line] rest = more ++ line :: back ∧
      more.filterMap Line.origin = [] ∧ back.filterMap Line.origin = rest.map Prod.fst := by
  cases rest with
  | nil => exact ⟨[], [], rfl, rfl, rfl⟩
  | cons pair rest =>
    obtain ⟨j, piece⟩ := pair
    rw [placedLines, List.append_assoc]
    refine ⟨piece.before.map .inserted, _, rfl, origins_inserted _, ?_⟩
    split <;> simp [placedLines_origins]

/-- The code that is put between an instruction and the next one, the frame apart. What the next
one waits for may come in addition. -/
theorem placedLines_splits (pairs rest : List (Instruction × Piece)) (x i : Instruction)
    (p q : Piece) : ∃ front gap more back,
      placedLines [] (pairs ++ (x, p) :: (i, q) :: rest) =
        front ++ ⟨some x, p.instruction⟩ ::
          (gap.map .inserted ++ more ++ ⟨some i, q.instruction⟩ :: back) ∧
      gap = (if p.instruction.isPointerLabel ∧ p.after = [] then [] else p.after ++ q.before) ∧
      front.filterMap Line.origin = pairs.map Prod.fst ∧ more.filterMap Line.origin = [] ∧
      back.filterMap Line.origin = rest.map Prod.fst ∧
      (q.instruction.isPointerLabel = false → more = []) ∧
      (pairs = [] → p.before = [] → (p.after = [] → q.before = []) → front = []) := by
  obtain ⟨front, held, hplaced, horigins, hentry⟩ :=
    placedLines_append [] pairs ((x, p) :: (i, q) :: rest)
  obtain ⟨more, back, hbehind, hmore, hback, hdirect⟩ : ∃ more back,
      (if q.instruction.isPointerLabel ∧ q.after = [] then
          placedLines [⟨some i, q.instruction⟩] rest
        else ⟨some i, q.instruction⟩ :: q.after.map .inserted ++ placedLines [] rest) =
          more ++ ⟨some i, q.instruction⟩ :: back ∧ more.filterMap Line.origin = [] ∧
      back.filterMap Line.origin = rest.map Prod.fst ∧
      (q.instruction.isPointerLabel = false → more = []) := by
    split
    · next hheld =>
      obtain ⟨more, back, hheldLines, hmore, hback⟩ :=
        placedLines_held ⟨some i, q.instruction⟩ rest
      exact ⟨more, back, hheldLines, hmore, hback, fun hlabel => by simp [hheld.1] at hlabel⟩
    · exact ⟨[], _, rfl, rfl, by simp [placedLines_origins], fun _ => rfl⟩
  rw [hplaced, placedLines, placedLines, placedLines, hbehind]
  simp only [List.filterMap_nil, List.nil_append] at horigins
  -- A pointer label that is held back comes out behind the reloads of the next instruction.
  by_cases hheld : p.instruction.isPointerLabel ∧ p.after = []
  · refine ⟨front ++ p.before.map .inserted ++ held ++ q.before.map .inserted, [], more, back,
      ?_, by rw [if_pos hheld], ?_, hmore, hback, hdirect, ?_⟩
    · rw [if_pos hheld]
      simp
    · simp [← horigins]
    · intro hpairs hbefore hafter
      obtain ⟨rfl, rfl⟩ := hentry hpairs
      simp [hbefore, hafter hheld.2]
  · refine ⟨front ++ p.before.map .inserted ++ held, p.after ++ q.before, more, back,
      ?_, by rw [if_neg hheld], ?_, hmore, hback, hdirect, ?_⟩
    · rw [if_neg hheld]
      simp
    · simp [← horigins]
    · intro hpairs hbefore _
      obtain ⟨rfl, rfl⟩ := hentry hpairs
      simp [hbefore]

end Body

section Framed

theorem closedLines_append (leave : Instruction) (xs ys : List Line) :
    closedLines leave (xs ++ ys) = closedLines leave xs ++ closedLines leave ys :=
  List.flatMap_append

theorem closedLines_quiet (h : ∀ line ∈ lines, line.instruction.name ≠ "ret") :
    closedLines leave lines = lines := by
  induction lines with
  | nil => rfl
  | cons line lines ih =>
    obtain ⟨hline, hrest⟩ := List.forall_mem_cons.1 h
    rw [closedLines_cons, if_neg hline, ih hrest]
    rfl

/-- The frame is opened in the gap behind a label at the entry, and closed in the gap in front of a
return. -/
theorem framedLines_splits (enter leave : Instruction) (front back : List Line)
    {first : Line} (last : Line) (hlabel : first.instruction.isLabel)
    (hgap : ∀ line ∈ gap, line.instruction.name ≠ "ret") :
    ∃ front' back', framedLines enter leave (front ++ first :: (gap ++ last :: back)) =
        front' ++ first :: (((if front = [] then [.inserted enter] else []) ++ gap ++
          if last.instruction.name = "ret" then [.inserted leave] else []) ++ last :: back') ∧
      front'.filterMap Line.origin = front.filterMap Line.origin ∧
      back'.filterMap Line.origin = back.filterMap Line.origin := by
  have hbehind : closedLines leave (gap ++ last :: back) =
      gap ++ (if last.instruction.name = "ret" then [.inserted leave] else []) ++
        last :: closedLines leave back := by
    rw [closedLines_append, closedLines_quiet hgap, closedLines_cons]
    split <;> simp
  cases front with
  | nil =>
    refine ⟨[], closedLines leave back, ?_, rfl, closedLines_origins⟩
    rw [List.nil_append, framedLines_cons, if_pos hlabel, hbehind]
    simp
  | cons line front =>
    obtain ⟨turn, hturn, hturned⟩ : ∃ turn : List Line,
        closedLines leave (first :: (gap ++ last :: back)) =
          turn ++ first :: closedLines leave (gap ++ last :: back) ∧
        turn.filterMap Line.origin = [] := by
      rw [closedLines_cons]
      split
      · exact ⟨[.inserted leave], rfl, rfl⟩
      · exact ⟨[], rfl, rfl⟩
    rw [List.cons_append, framedLines_cons]
    split
    · refine ⟨line :: .inserted enter :: closedLines leave front ++ turn, closedLines leave back,
        ?_, ?_, closedLines_origins⟩
      · rw [closedLines_append, hturn, hbehind]
        simp
      · cases horigin : line.origin <;> simp [horigin, Line.inserted, closedLines_origins, hturned]
    · refine ⟨.inserted enter :: closedLines leave (line :: front) ++ turn, closedLines leave back,
        ?_, ?_, closedLines_origins⟩
      · rw [← List.cons_append, closedLines_append, hturn, hbehind]
        simp
      · rw [List.filterMap_append, hturned, List.append_nil, List.filterMap_cons]
        simp [Line.inserted, closedLines_origins]

end Framed

section Entry

variable {intervals : List LiveInterval}

open LiveInterval

/-- The first instruction reads nothing, and the second one only what the first one defines. -/
theorem LiveInterval.Describes.entry_reads (h : Describes recorded (x :: i :: after) intervals) :
    x.virtualSources = [] ∧ ∀ id ∈ i.virtualSources, x.Defines id := by
  constructor
  · apply List.eq_nil_iff_forall_not_mem.2
    intro id hid
    obtain ⟨j, _, _, hstart, _⟩ := h.read 0 x rfl id hid
    omega
  · intro id hid
    obtain ⟨j, hj, rfl, hstart, _⟩ := h.read 1 i rfl id hid
    obtain ⟨k, hk, hdefines⟩ := h.opened j hj
    rw [Nat.lt_one_iff.1 hstart] at hk
    exact Option.some.inj hk ▸ hdefines.defines

namespace Allocation.Surrounds

theorem before_eq_nil (h : a.Surrounds spill i p) : p.before = [] ↔ a.spilledSources i = [] := by
  have hlength := h.before.length_eq
  rw [← List.length_eq_zero_iff, ← hlength, List.length_eq_zero_iff]

theorem after_eq_nil (h : a.Surrounds spill i p) :
    p.after = [] ↔ a.spilledDestination? i = none := by
  have hlength := h.after.length_eq
  rw [← List.length_eq_zero_iff, ← hlength, List.length_eq_zero_iff, Option.toList_eq_nil_iff]

end Allocation.Surrounds

theorem Allocation.spilledSources_eq_nil (h : ∀ id ∈ i.virtualSources, ¬ a.isSpilled id) :
    a.spilledSources i = [] := by
  rw [spilledSources, List.filter_eq_nil_iff.2 h]
  rfl

/-- Nothing is reloaded for the first two instructions unless the first result is saved. -/
theorem entry_reloads (h : Describes recorded (x :: i :: after) a.intervals)
    (hp : a.Surrounds spill x p) (hq : a.Surrounds spill i q) :
    p.before = [] ∧ (p.after = [] → q.before = []) := by
  obtain ⟨hfirst, hsecond⟩ := h.entry_reads
  constructor
  · apply hp.before_eq_nil.2
    apply Allocation.spilledSources_eq_nil
    simp [hfirst]
  · intro hafter
    rw [hp.after_eq_nil, Allocation.spilledDestination?, Option.filter_eq_none_iff] at hafter
    apply hq.before_eq_nil.2
    apply Allocation.spilledSources_eq_nil
    intro id hid
    exact hafter id (hsecond id hid)

end Entry

/-- What the frame adds to the gap in front of an instruction, at its ends: it is opened behind a
label at the entry and closed in front of a return. -/
inductive SpillCode.Ends (spill : SpillCode) (slots : Nat) (before : List Instruction)
    (i : Instruction) : List Line → List Line → Prop where
  | bare (hslots : slots = 0) : Ends spill slots before i [] []
  | framed {enter leave : Instruction} (hslots : slots ≠ 0)
      (henter : spill.moveStack (-spill.offset slots) "spill_frame_open" = .ok enter)
      (hleave : spill.moveStack (spill.offset slots) "spill_frame_close" = .ok leave) :
      Ends spill slots before i (if before = [] then [.inserted enter] else [])
        (if i.name = "ret" then [.inserted leave] else [])

theorem SpillCode.Ends.eq_nil_iff {slots : Nat} {opening closing : List Line}
    (h : spill.Ends slots before i opening closing) :
    opening = [] ∧ closing = [] ↔ slots = 0 ∨ before ≠ [] ∧ i.name ≠ "ret" := by
  cases h with
  | bare hslots => simp [hslots]
  | framed hslots => simp [hslots]

theorem Allocation.spilledDestination?_eq_none (h : a.slots.size = 0) (i : Instruction) :
    a.spilledDestination? i = none := by
  have hslots (id : Id) : a.slots.get? id = none := by
    rw [IdMap.get?, List.length_eq_zero_iff.1 h]
    rfl
  rw [spilledDestination?, Option.filter_eq_none_iff]
  simp [isSpilled, hslots]

theorem Instruction.Placed.form {o : Instruction} (h : i.Placed o) : o.form = i.form := by
  rw [h.same]

theorem Instruction.Placed.name {o : Instruction} (h : i.Placed o) : o.name = i.name := by
  rw [h.same]

/-- What is put between two instructions that follow each other, the frame apart. -/
structure Allocation.Bridges (a : Allocation) (spill : SpillCode) (x i : Instruction)
    (p q : Piece) (gap : List Line) : Prop where
  first : a.replaceOperands spill x = .ok p
  second : a.replaceOperands spill i = .ok q
  inserted : gap.filterMap Line.origin = []
  glued : x.isPointerLabel → i.isPointerLabel = false → (gap = [] ↔ p.after = [])
  /-- Only a pointer label lets reloads go past it. -/
  ahead : (x.isPointerLabel → q.before = []) → q.before.map .inserted <:+: gap

/-- Two instructions in the body, with their bridge. The entry has nothing in front of it. -/
theorem Allocation.body_bridges
    (hdescribes : LiveInterval.Describes recorded (pairs.map Prod.fst) a.intervals)
    (hpairs : ∀ pair ∈ pairs, a.replaceOperands spill pair.1 = .ok pair.2)
    (hcode : pairs.map Prod.fst = before ++ x :: i :: after) :
    ∃ p q front gap back, a.Bridges spill x i p q gap ∧
      placedLines [] pairs =
        front ++ ⟨some x, p.instruction⟩ :: (gap ++ ⟨some i, q.instruction⟩ :: back) ∧
      front.filterMap Line.origin = before ∧ back.filterMap Line.origin = after ∧
      (front = [] ↔ before = []) := by
  obtain ⟨lead, pairs', rfl, rfl, hpairs'⟩ := List.map_eq_append_iff.1 hcode
  obtain ⟨⟨x', p⟩, pairs', rfl, hx, hrest⟩ := List.map_eq_cons_iff.1 hpairs'
  obtain ⟨⟨i', q⟩, rest, rfl, hi, rfl⟩ := List.map_eq_cons_iff.1 hrest
  obtain rfl : x' = x := hx
  obtain rfl : i' = i := hi
  have hp : a.replaceOperands spill x' = .ok p :=
    hpairs _ (List.mem_append_right _ List.mem_cons_self)
  have hq : a.replaceOperands spill i' = .ok q :=
    hpairs _ (List.mem_append_right _ (List.mem_cons_of_mem _ List.mem_cons_self))
  have hpointer : p.instruction.isPointerLabel = x'.isPointerLabel := by
    rw [Instruction.isPointerLabel, Instruction.isPointerLabel,
      (replaceOperands_surrounds hp).placed.form]
  have hnext : q.instruction.isPointerLabel = i'.isPointerLabel := by
    rw [Instruction.isPointerLabel, Instruction.isPointerLabel,
      (replaceOperands_surrounds hq).placed.form]
  obtain ⟨front, inner, more, back, hbody, hinner, hfront, hmore, hback, hdirect, hentry⟩ :=
    placedLines_splits lead rest x' i' p q
  rw [hpointer] at hinner
  rw [hnext] at hdirect
  refine ⟨p, q, front, inner.map .inserted ++ more, back, ⟨hp, hq, ?_, ?_, ?_⟩, hbody, hfront,
    hback, ?_, ?_⟩
  · rw [List.filterMap_append, origins_inserted, hmore]
    rfl
  · intro hlabel hplain
    rw [hdirect hplain, List.append_nil, List.map_eq_nil_iff, hinner]
    by_cases hafter : p.after = []
    · simp [hlabel, hafter]
    · simp [hafter]
  · intro hbefore
    split at hinner
    · next hheld =>
      rw [hbefore hheld.1]
      exact List.nil_infix
    · exact ⟨p.after.map .inserted, more, by rw [hinner, List.map_append]⟩
  · intro hnil
    simpa [hnil] using hfront.symm
  · intro hnil
    obtain rfl := List.map_eq_nil_iff.1 hnil
    obtain ⟨hbefore, hafter⟩ := entry_reloads (by simpa using hdescribes)
      (replaceOperands_surrounds hp) (replaceOperands_surrounds hq)
    exact hentry rfl hbefore hafter

/-- The gap behind a label is the bridge, with what the frame adds at its ends. -/
theorem Allocation.apply_splits (hspill : SpillCode.ofContext context = .ok spill)
    (hdescribes : LiveInterval.Describes recorded code a.intervals)
    (h : a.apply context code = .ok out) :
    ∃ lines, Weaves spill code out lines ∧ ∀ before x i after,
      code = before ++ x :: i :: after → x.isLabel →
      ∃ p q opening gap closing, a.Bridges spill x i p q gap ∧
        spill.Ends a.slots.size before i opening closing ∧
        Splits lines before x (opening ++ gap ++ closing) i after := by
  obtain ⟨pairs, rfl, hpairs, lines, hweaves, harranges⟩ := apply_weaves hspill h
  refine ⟨lines, hweaves, fun before x i after hcode hlabel => ?_⟩
  obtain ⟨p, q, front, gap, back, hbridges, hbody, hfront, hback, hentry⟩ :=
    body_bridges hdescribes hpairs hcode
  have hplaced := (replaceOperands_surrounds hbridges.first).placed
  have hplaced' := (replaceOperands_surrounds hbridges.second).placed
  cases harranges with
  | bare hslots =>
    refine ⟨p, q, [], gap, [], hbridges, .bare hslots, ?_⟩
    rw [hbody, List.nil_append, List.append_nil]
    exact ⟨front, back, _, _, rfl, hfront, hbridges.inserted, hback⟩
  | @framed enter leave hslots henter hleave =>
    -- The frame is closed at returns, and spill code is none.
    have hquiet : ∀ line ∈ gap, line.instruction.name ≠ "ret" := by
      intro line hline
      have hmem : line ∈ placedLines [] pairs := by
        rw [hbody]
        exact List.mem_append_right _ (List.mem_cons_of_mem _ (List.mem_append_left _ hline))
      have hmakes : spill.Makes line.instruction :=
        inserted_placedLines (fun pair hpair => (replaceOperands_makes (hpairs pair hpair)).2)
          hmem (List.filterMap_eq_nil_iff.1 hbridges.inserted line hline)
      exact hmakes.ne_return hspill
    have hlabel' : (⟨some x, p.instruction⟩ : Line).instruction.isLabel := by
      rw [Instruction.isLabel, hplaced.form]
      exact hlabel
    obtain ⟨front', back', hframed, hfront', hback'⟩ :=
      framedLines_splits enter leave front back ⟨some i, q.instruction⟩ hlabel' hquiet
    refine ⟨p, q, _, gap, _, hbridges, .framed hslots henter hleave, ?_⟩
    rw [hbody, hframed]
    refine ⟨front', back', p.instruction, q.instruction, ?_, hfront'.trans hfront, ?_,
      hback'.trans hback⟩
    · simp only [hentry, hplaced'.name]
    · rw [List.filterMap_append, List.filterMap_append, hbridges.inserted]
      split <;> split <;> rfl

/-- Nothing is spilled, or the label is not the entry, marks no return and has no spilled id of its
own. -/
def Allocation.Glues (a : Allocation) (before : List Instruction) (label i : Instruction) : Prop :=
  a.slots.size = 0 ∨ before ≠ [] ∧ i.name ≠ "ret" ∧ a.spilledDestination? label = none

/-- Nothing comes between a pointer label and its instruction if and only if allocation glues it
there, and what is put in front of an instruction stands behind any other label there. -/
theorem allocate_glues_iff (h : allocate pool code context state = .ok out state') :
    ∃ a spill lines, Allocation.ofCode pool code context state = .ok a state' ∧
      SpillCode.ofContext context = .ok spill ∧ Weaves spill code out lines ∧
      ∀ before label i after, code = before ++ label :: i :: after → label.isLabel →
        (label.isPointerLabel → i.isLabel = false →
          (Splits lines before label [] i after ↔ a.Glues before label i)) ∧
        ((label.isPointerLabel → i.isLabel ∧ a.spilledSources i = []) →
          ∃ q opening inner closing, a.replaceOperands spill i = .ok q ∧
            q.before.map .inserted <:+: inner ∧
            spill.Ends a.slots.size before i opening closing ∧
            Splits lines before label (opening ++ inner ++ closing) i after) := by
  obtain ⟨a, spill, hofCode, hspill, happly⟩ := allocate_ok h
  obtain ⟨_, hdescribes⟩ := Allocation.ofCode_ok hofCode
  obtain ⟨lines, hweaves, hsplits⟩ := Allocation.apply_splits hspill hdescribes happly
  refine ⟨a, spill, lines, hofCode, hspill, hweaves, fun before label i after hcode hlabel => ?_⟩
  obtain ⟨p, q, opening, gap, closing, hbridges, hends, hgap⟩ :=
    hsplits before label i after hcode hlabel
  have hsurrounds := Allocation.replaceOperands_surrounds hbridges.first
  have hsurrounds' := Allocation.replaceOperands_surrounds hbridges.second
  constructor
  · intro hpointer hnext
    have hplain : i.isPointerLabel = false := by
      rw [Instruction.isPointerLabel, decide_eq_false_iff_not]
      intro hform
      simp [Instruction.isLabel, hform] at hnext
    have hglued : Splits lines before label [] i after ↔
        (opening = [] ∧ gap = []) ∧ closing = [] := by
      constructor
      · intro hsplits
        simpa [and_assoc] using hgap.unique hsplits
      · rintro ⟨⟨rfl, rfl⟩, rfl⟩
        exact hgap
    have hfree (hslots : a.slots.size = 0) : a.spilledDestination? label = none :=
      Allocation.spilledDestination?_eq_none hslots label
    rw [hglued, and_right_comm, hends.eq_nil_iff, hbridges.glued hpointer hplain,
      hsurrounds.after_eq_nil, or_and_right, Allocation.Glues, and_assoc,
      and_iff_left_of_imp hfree]
  · intro hnext
    have hbefore : label.isPointerLabel → q.before = [] := fun hpointer =>
      hsurrounds'.before_eq_nil.2 (hnext hpointer).2
    exact ⟨q, opening, gap, closing, hbridges.second, hbridges.ahead hbefore, hends, hgap⟩

namespace Marked

def one : Instruction :=
  { id := "x", name := "li", category := .pseudo,
    destination := some { slot := .rd, type := .register .gpr, value := .virtual "x" },
    sources := [{ slot := .imm, type := .imm, value := .imm 1 }] }

def double : Instruction :=
  { id := "y", name := "add", category := .arithmetic,
    destination := some { slot := .rd, type := .register .gpr, value := .virtual "y" },
    sources := [{ slot := .rs1, type := .register .gpr, value := .virtual "x" },
      { slot := .rs2, type := .register .gpr, value := .virtual "x" }] }

def start : Instruction := .label "l" "fault_label_0" true

def stop : Instruction := .label "m" "fault_label_1" true

def exit : Instruction := { id := "r", name := "ret", category := .jump }

/-- One pointer label in front of an instruction that reads a value and one in front of the
return. -/
def routine : List Instruction := [one, start, double, stop, exit]

end Marked

open Marked in
theorem allocate_marked_glues : ∃ out state' spill lines,
    allocate { gprs := 0, fprs := 0 } routine (standardContext .rv64) zeroState = .ok out state' ∧
      Weaves spill routine out lines ∧ Splits lines [one] start [] double [stop, exit] ∧
      ¬ Splits lines [one, start, double] stop [] exit [] := by
  have hok : ((allocate { gprs := 0, fprs := 0 } routine).result? (standardContext .rv64)
      zeroState).isSome := by
    decide +kernel
  obtain ⟨out, hout⟩ := Option.isSome_iff_exists.1 hok
  obtain ⟨state', h⟩ := Lower.result?_eq_some.1 hout
  obtain ⟨a, spill, lines, hofCode, _, hweaves, hgaps⟩ := allocate_glues_iff h
  refine ⟨out, state', spill, lines, h, hweaves, ?_, ?_⟩
  · have hglues : a.Glues [one] start double := .inr ⟨by decide, by decide, rfl⟩
    exact ((hgaps [one] start double [stop, exit] rfl rfl).1 rfl rfl).2 hglues
  · intro hsplits
    have hslots : ((Allocation.ofCode { gprs := 0, fprs := 0 } routine).result?
        (standardContext .rv64) zeroState).all fun a => a.slots.size ≠ 0 := by
      decide +kernel
    rw [Lower.result?_eq_some.2 ⟨state', hofCode⟩, Option.all_some, decide_eq_true_eq] at hslots
    rcases ((hgaps [one, start, double] stop exit [] rfl rfl).1 rfl rfl).1 hsplits with
      hempty | ⟨_, hname, _⟩
    · exact hslots hempty
    · exact hname rfl

open Marked in
theorem allocate_marked_not_glued : ∃ out state',
    allocate { gprs := 0, fprs := 0 } routine (standardContext .rv64) zeroState = .ok out state' ∧
      ¬ ∃ front o o' back, out = front ++ o :: o' :: back ∧ stop.Placed o ∧ exit.Placed o' := by
  have hnames : ((allocate { gprs := 0, fprs := 0 } routine).result? (standardContext .rv64)
      zeroState).map (·.map Instruction.name) =
        some ["addi", "li", "sd", "ld", "fault_label_0", "add", "sd", "fault_label_1", "addi",
          "ret"] := by
    decide +kernel
  obtain ⟨out, hout, hnames⟩ := Option.map_eq_some_iff.1 hnames
  obtain ⟨state', h⟩ := Lower.result?_eq_some.1 hout
  refine ⟨out, state', h, ?_⟩
  rintro ⟨front, o, o', back, rfl, ho, ho'⟩
  have hpair : ["fault_label_1", "ret"] <:+: ["addi", "li", "sd", "ld", "fault_label_0", "add",
      "sd", "fault_label_1", "addi", "ret"] := by
    rw [← hnames]
    refine ⟨front.map Instruction.name, back.map Instruction.name, ?_⟩
    simp [ho.name, ho'.name, stop, exit, Instruction.label]
  exact absurd hpair (by decide)

end PlanLowering
