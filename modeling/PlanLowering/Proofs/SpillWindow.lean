import PlanLowering.Proofs.Lodging
import PlanLowering.Proofs.Spelling
import PlanLowering.Proofs.ValuePreservation

/-!
# The offsets of spill code

A slot lies as far from the stack pointer as its number and the register width say, and the frame
reaches over all slots. Nothing bounds the number of slots, so the offsets fit the immediate field
of their instructions exactly as long as the frame does.
-/

namespace PlanLowering

/-- The immediate fits a signed field of twelve bits. -/
def Instruction.InWindow (i : Instruction) : Prop :=
  ∃ v, i.immediate? = some v ∧ Access.offsetFits v

namespace SpillCode

variable {spill : SpillCode} {r : Register} {slot : Nat} {id : Id} {o : Instruction}

theorem immediate_reload (h : spill.reload r slot id = .ok o) :
    o.immediate? = some (spill.offset slot) := by
  simp only [reload, except_bind_ok, except_pure_ok] at h
  obtain ⟨_, _, _, _, _, _, i, himm, rfl⟩ := h
  have hfound := Instruction.immediate_setImmediate himm
  exact hfound

theorem immediate_save (h : spill.save r slot id = .ok o) :
    o.immediate? = some (spill.offset slot) := by
  simp only [save, except_bind_ok, except_pure_ok] at h
  obtain ⟨_, _, _, _, _, _, i, himm, rfl⟩ := h
  have hfound := Instruction.immediate_setImmediate himm
  exact hfound

theorem immediate_moveStack {bytes : Int} (h : spill.moveStack bytes id = .ok o) :
    o.immediate? = some bytes := by
  simp only [moveStack, except_bind_ok, except_pure_ok] at h
  obtain ⟨_, _, _, _, i, himm, rfl⟩ := h
  have hfound := Instruction.immediate_setImmediate himm
  exact hfound

end SpillCode

variable {pool : RegisterPool} {a : Allocation} {spill : SpillCode} {context : Context}
variable {state state' : State} {code out : List Instruction} {piece : Piece} {i o : Instruction}
variable {enter leave : Instruction} {woven : List Line}

theorem Instruction.inWindow_iff {v : Int} (h : i.immediate? = some v) :
    i.InWindow ↔ -2048 ≤ v ∧ v ≤ 2047 := by
  simp [Instruction.InWindow, h, Access.offsetFits]

namespace Allocation

theorem Reaches.immediate (h : a.Reaches spill o) (hsound : a.Sound pool) :
    ∃ n, o.immediate? = some (spill.offset n) ∧ n < a.slots.size := by
  cases h with
  | reload _ hslot h =>
    exact ⟨_, SpillCode.immediate_reload h, (hsound.numbered _).1 ⟨_, hslot⟩⟩
  | save hslot h =>
    exact ⟨_, SpillCode.immediate_save h, (hsound.numbered _).1 ⟨_, hslot⟩⟩

end Allocation

section Frame

variable {P : Instruction → Prop}

theorem returns_closedLines :
    (∃ o ∈ (closedLines leave woven).map Line.instruction, o.name = "ret") ↔
      ∃ line ∈ woven, line.instruction.name = "ret" := by
  rw [closedLines_instructions]
  constructor
  · rintro ⟨o, ho, hret⟩
    obtain ⟨i, hi, ho⟩ := List.mem_flatMap.1 ho
    obtain ⟨line, hline, rfl⟩ := List.mem_map.1 hi
    refine ⟨line, hline, ?_⟩
    split at ho
    · assumption
    · rw [List.mem_singleton] at ho
      exact ho ▸ hret
  · rintro ⟨line, hline, hret⟩
    refine ⟨line.instruction, List.mem_flatMap.2 ⟨_, List.mem_map_of_mem hline, ?_⟩, hret⟩
    simp [hret]

theorem inserted_closedLines :
    (∀ line ∈ closedLines leave woven, line.origin = none → P line.instruction) ↔
      (∀ line ∈ woven, line.origin = none → P line.instruction) ∧
        ((∃ o ∈ (closedLines leave woven).map Line.instruction, o.name = "ret") → P leave) := by
  rw [returns_closedLines]
  constructor
  · intro h
    constructor
    · intro line hline
      refine h line (List.mem_flatMap.2 ⟨line, hline, ?_⟩)
      split <;> simp
    · rintro ⟨line, hline, hret⟩
      refine h (.inserted leave) (List.mem_flatMap.2 ⟨line, hline, ?_⟩) rfl
      simp [hret]
  · rintro ⟨hwoven, hclosed⟩ line hline hnone
    obtain ⟨other, hother, hline⟩ := List.mem_flatMap.1 hline
    split at hline
    · next hret =>
      simp only [List.mem_cons, List.not_mem_nil, or_false] at hline
      rcases hline with rfl | rfl
      · exact hclosed ⟨other, hother, hret⟩
      · exact hwoven _ hother hnone
    · rw [List.mem_singleton] at hline
      exact hwoven _ (hline ▸ hother) hnone

theorem inserted_framedLines (henter : enter.name ≠ "ret") :
    (∀ line ∈ framedLines enter leave woven, line.origin = none → P line.instruction) ↔
      (∀ line ∈ woven, line.origin = none → P line.instruction) ∧ P enter ∧
        ((∃ o ∈ ((framedLines enter leave woven).map Line.instruction).tail, o.name = "ret") →
          P leave) := by
  cases woven with
  | nil => simp [framedLines]
  | cons first rest =>
    rw [framedLines_cons]
    split
    · simp only [List.forall_mem_cons, inserted_closedLines, Line.origin_inserted,
        Line.instruction_inserted, List.map_cons, List.tail_cons, List.exists_mem_cons_iff, henter,
        false_or, forall_const]
      tauto
    · rw [List.forall_mem_cons, inserted_closedLines, List.map_cons, List.tail_cons]
      simp only [Line.origin_inserted, Line.instruction_inserted, forall_const]
      exact and_left_comm

end Frame

theorem SpillCode.reach_of_frame {width n slots : Nat} (hwidth : 0 < width) (hn : n < slots)
    (h : slots * width ≤ 2048) : n * width ≤ 2047 := by
  have hnext : (n + 1) * width ≤ slots * width := Nat.mul_le_mul_right _ hn
  rw [Nat.add_mul] at hnext
  omega

theorem Allocation.Reaches.inWindow (h : a.Reaches spill o) (hsound : a.Sound pool)
    (hwidth : 0 < spill.width) (hfits : a.slots.size * spill.width ≤ 2048) : o.InWindow := by
  obtain ⟨n, himm, hn⟩ := h.immediate hsound
  have hreach := SpillCode.reach_of_frame hwidth hn hfits
  rw [Instruction.inWindow_iff himm]
  unfold SpillCode.offset
  omega

/-- What the frame of an allocation must be for its code to be encodable. A frame of exactly 2048
bytes can be opened but not closed. -/
theorem apply_inWindow_iff (hsound : a.Sound pool)
    (hspill : SpillCode.ofContext context = .ok spill) (h : a.apply context code = .ok out) :
    ∃ lines, Weaves spill code out lines ∧
      ((∀ line ∈ lines, line.origin = none → line.instruction.InWindow) ↔
        a.slots.size * context.environment.xlen.bytes < 2048 ∨
          a.slots.size * context.environment.xlen.bytes = 2048 ∧
            ∀ o ∈ out.tail, o.name ≠ "ret") := by
  obtain ⟨pairs, rfl, hreplaced, lines, hweaves, harranges⟩ := Allocation.apply_weaves hspill h
  have hreaches : ∀ pair ∈ pairs, ∀ o ∈ pair.2.before ++ pair.2.after, a.Reaches spill o :=
    fun pair hpair => (Allocation.replaceOperands_settles (hreplaced pair hpair)).reaches
  obtain ⟨_, hbytes⟩ := SpillCode.adjust_ok hspill
  have hwidth : 0 < spill.width := hbytes ▸ Xlen.bytes_pos _
  rw [← hbytes]
  have hslots (hfits : a.slots.size * spill.width ≤ 2048) :
      ∀ line ∈ placedLines [] pairs, line.origin = none → line.instruction.InWindow := by
    intro line hline hnone
    exact (inserted_placedLines hreaches hline hnone).inWindow hsound hwidth hfits
  refine ⟨lines, hweaves, ?_⟩
  cases harranges with
  | bare hempty =>
    simp only [hempty, Nat.zero_mul, Nat.zero_lt_succ, true_or, iff_true]
    exact hslots (by simp [hempty])
  | @framed enter leave _ henter hleave =>
    have hname : enter.name ≠ "ret" := (SpillCode.Makes.moveStack henter).ne_return hspill
    rw [inserted_framedLines hname, hweaves.out,
      Instruction.inWindow_iff (SpillCode.immediate_moveStack henter),
      Instruction.inWindow_iff (SpillCode.immediate_moveStack hleave)]
    unfold SpillCode.offset
    constructor
    · rintro ⟨_, hopen, hclose⟩
      by_cases hret : ∃ o ∈ out.tail, o.name = "ret"
      · have hclosed := hclose hret
        omega
      · push Not at hret
        have hle : a.slots.size * spill.width ≤ 2048 := by omega
        exact (Nat.lt_or_eq_of_le hle).imp_right fun heq => ⟨heq, hret⟩
    · intro hfits
      refine ⟨hslots (by omega), by omega, ?_⟩
      rintro ⟨o, ho, hret⟩
      rcases hfits with hfits | ⟨_, hnone⟩
      · omega
      · exact absurd hret (hnone o ho)

/-- Without registers every id is on the stack, so the frame grows with the code. -/
theorem Allocation.Sound.length_le_slots (h : a.Sound pool)
    (hempty : ∀ file, pool.registers file = []) {ids : List Id} (hids : ids.Nodup)
    (hmem : ids ⊆ a.intervals.map LiveInterval.id) : ids.length ≤ a.slots.size := by
  have hslot : ∀ id ∈ ids, ∃ n, a.slots.get? id = some n := by
    intro id hid
    refine ((h.placed id).1 (hmem hid)).resolve_left ?_
    rintro ⟨r, hr⟩
    obtain ⟨i, hi, rfl⟩ := List.mem_map.1 (hmem hid)
    have hcandidate := (RegisterPool.mem_candidates.1 (h.candidate i hi r hr)).1
    rw [hempty] at hcandidate
    cases hcandidate
  have hnumbers : (ids.map fun id => (a.slots.get? id).getD 0).Nodup := by
    refine hids.map_on fun id hid id' hid' heq => ?_
    obtain ⟨n, hn⟩ := hslot id hid
    obtain ⟨n', hn'⟩ := hslot id' hid'
    simp only [hn, hn', Option.getD_some] at heq
    exact h.unshared id id' n hn (heq ▸ hn')
  have hbelow : (ids.map fun id => (a.slots.get? id).getD 0) ⊆ List.range a.slots.size := by
    intro n hn
    obtain ⟨id, hid, rfl⟩ := List.mem_map.1 hn
    obtain ⟨n, hn⟩ := hslot id hid
    rw [hn, Option.getD_some, List.mem_range]
    exact (h.numbered n).1 ⟨id, hn⟩
  simpa using hnumbers.length_le_of_subset hbelow

section Crowd

theorem LiveInterval.trace_ok (h : ∀ i ∈ code, i.virtualSources = [] ∧ i.form = .native)
    (recorded : IdMap (List Register)) (index : Nat) (live : List LiveInterval) :
    ∃ traced, trace recorded index live code = .ok traced := by
  induction code generalizing index live with
  | nil => exact ⟨_, rfl⟩
  | cons i rest ih =>
    obtain ⟨hreads, hform⟩ := h i List.mem_cons_self
    obtain ⟨traced, htraced⟩ := ih (fun j hj => h j (List.mem_cons_of_mem _ hj)) (index + 1)
      (i.destination.toList.foldl (write index) live)
    refine ⟨(traced.1, (index, i.clobbers) :: traced.2), ?_⟩
    simp only [trace, hreads, List.foldlM_nil, clobbers, hform, except_bind_ok, except_pure_ok]
    exact ⟨live, rfl, _, rfl, traced, htraced, rfl⟩

/-- Loads a number into an id of its own. -/
def loadNumber (k : Nat) : Instruction where
  name := "li"
  category := .pseudo
  destination := some { slot := .rd, type := .register .gpr, value := .virtual k.repr }
  sources := [{ slot := .imm, type := .imm, value := .imm k }]

def crowd (n : Nat) : List Instruction := (List.range n).map loadNumber

theorem mem_crowd {n : Nat} : i ∈ crowd n ↔ ∃ k < n, loadNumber k = i := by
  simp [crowd]

def spillTemplates : SpillCode where
  width := 8
  load := { name := "ld", category := .load,
            destination := some { slot := .rd, type := .register .gpr },
            sources := [{ slot := .rs1, type := .register .gpr }, { slot := .imm, type := .imm }] }
  store := { name := "sd", category := .store,
             sources := [{ slot := .rs2, type := .register .gpr },
               { slot := .rs1, type := .register .gpr }, { slot := .imm, type := .imm }] }
  floatLoad := none
  floatStore := none
  adjust := { name := "addi", category := .arithmetic,
              destination := some { slot := .rd, type := .register .gpr },
              sources := [{ slot := .rs1, type := .register .gpr }, { slot := .imm, type := .imm }] }

theorem ofContext_spillContext : SpillCode.ofContext spillContext = .ok spillTemplates := by
  rfl

theorem loadNumber_replaced {k : Nat} {location : Location}
    (h : a.location k.repr = .ok location) :
    ∃ piece, a.replaceOperands spillTemplates (loadNumber k) = .ok piece := by
  cases location with
  | register r =>
    simp [Allocation.replaceOperands, Allocation.replaceSources, Allocation.replaceDestination,
      loadNumber, Operand.virtual?, OperandType.file?, h]
  | slot m =>
    have hsave : ∃ o, spillTemplates.save RegisterFile.gpr.resultScratch m k.repr = .ok o :=
      ⟨_, rfl⟩
    obtain ⟨o, ho⟩ := hsave
    simp [Allocation.replaceOperands, Allocation.replaceSources, Allocation.replaceDestination,
      loadNumber, Operand.virtual?, OperandType.file?, h, ho]

theorem loadNumbers_replaced {ks : List Nat}
    (h : ∀ k ∈ ks, ∃ location, a.location k.repr = .ok location) :
    ∃ pieces, a.replaceAll spillTemplates (ks.map loadNumber) = .ok pieces := by
  induction ks with
  | nil => exact ⟨[], rfl⟩
  | cons k rest ih =>
    obtain ⟨location, hlocation⟩ := h k List.mem_cons_self
    obtain ⟨piece, hpiece⟩ := loadNumber_replaced hlocation
    obtain ⟨pieces, hpieces⟩ := ih fun j hj => h j (List.mem_cons_of_mem k hj)
    refine ⟨piece :: pieces, ?_⟩
    simp only [List.map_cons, Allocation.replaceAll, except_bind_ok, except_pure_ok]
    exact ⟨piece, hpiece, pieces, hpieces, rfl⟩

theorem crowd_defines {n : Nat} (hdescribed : LiveInterval.Describes {} (crowd n) a.intervals) :
    (List.range n).map Nat.repr ⊆ a.intervals.map LiveInterval.id := by
  intro id hid
  obtain ⟨k, hk, rfl⟩ := List.mem_map.1 hid
  obtain ⟨position, hi⟩ := List.getElem?_of_mem (List.mem_map_of_mem (f := loadNumber) hk)
  obtain ⟨j, hj, hid, _⟩ := hdescribed.defined position _ k.repr hi rfl
  exact List.mem_map.2 ⟨j, hj, hid⟩

theorem frame_spillTemplates (slots : Nat) (body : List Instruction) :
    ∃ out, spillTemplates.frame slots body = .ok out := by
  have hmove (bytes : Int) (id : Id) : ∃ o, spillTemplates.moveStack bytes id = .ok o := ⟨_, rfl⟩
  obtain ⟨enter, henter⟩ := hmove (-spillTemplates.offset slots) "spill_frame_open"
  obtain ⟨leave, hleave⟩ := hmove (spillTemplates.offset slots) "spill_frame_close"
  simp only [SpillCode.frame, henter, hleave, except_bind_ok, Except.ok.injEq, exists_eq_left']
  cases body with
  | nil => exact ⟨_, rfl⟩
  | cons first rest =>
    dsimp only
    split <;> exact ⟨_, rfl⟩

theorem crowd_allocates (pool : RegisterPool) (n : Nat) :
    ∃ out state', allocate pool (crowd n) spillContext zeroState = .ok out state' := by
  have hcode : ∀ i ∈ crowd n, i.virtualSources = [] ∧ i.form = .native := by
    intro i hi
    obtain ⟨k, _, rfl⟩ := mem_crowd.1 hi
    exact ⟨rfl, rfl⟩
  obtain ⟨traced, htraced⟩ := LiveInterval.trace_ok hcode {} 0 []
  have hintervals : LiveInterval.ofCode {} (crowd n) =
      .ok (traced.1.map (LiveInterval.exclude traced.2)) := by
    simp [LiveInterval.ofCode, htraced]
  have hdescribed := LiveInterval.ofCode_describes hintervals
  obtain ⟨a, source, hrun, ha, hsound⟩ := Scan.run_ready pool hdescribed.ready zeroState.random
  rw [← ha] at hdescribed
  obtain ⟨pieces, hpieces⟩ := loadNumbers_replaced fun k hk =>
    hsound.located (crowd_defines hdescribed (List.mem_map_of_mem (f := Nat.repr) hk))
  have happly : ∃ out, a.apply spillContext (crowd n) = .ok out := by
    simp only [Allocation.apply, ofContext_spillContext, crowd, hpieces, except_bind_ok,
      Except.ok.injEq, exists_eq_left']
    split
    · exact ⟨_, rfl⟩
    · exact frame_spillTemplates _ _
  obtain ⟨out, hout⟩ := happly
  refine ⟨out, { zeroState with random := source }, ?_⟩
  simp only [allocate, Allocation.ofCode, Lower.bind_ok, Lower.get_ok, Lower.read_ok,
    Lower.ofExcept_ok, Lower.draw_ok]
  exact ⟨a, _, ⟨_, _, ⟨rfl, rfl⟩, _, _, ⟨hintervals, rfl⟩, source, hrun, rfl⟩, _, _, ⟨rfl, rfl⟩,
    hout, rfl⟩

/-- More than 256 values on the stack are out of reach of eight byte slots. -/
theorem crowd_not_inWindow {n : Nat} (hn : 256 < n) : ∃ out state' spill,
    allocate { gprs := 0, fprs := 0 } (crowd n) spillContext zeroState = .ok out state' ∧
      SpillCode.ofContext spillContext = .ok spill ∧
      ∀ lines, Weaves spill (crowd n) out lines →
        ∃ line ∈ lines, line.origin = none ∧ ¬ line.instruction.InWindow := by
  obtain ⟨out, state', h⟩ := crowd_allocates { gprs := 0, fprs := 0 } n
  refine ⟨out, state', spillTemplates, h, ofContext_spillContext, ?_⟩
  obtain ⟨a, _, hofCode, _, happly⟩ := allocate_ok h
  obtain ⟨hsound, hdescribed⟩ := Allocation.ofCode_ok hofCode
  have hslots : n ≤ a.slots.size := by
    have hnodup : ((List.range n).map Nat.repr).Nodup :=
      List.nodup_range.map repr_injective
    simpa using hsound.length_le_slots (fun file => by cases file <;> rfl) hnodup
      (crowd_defines hdescribed)
  obtain ⟨woven, hwoven, hfits⟩ := apply_inWindow_iff hsound ofContext_spillContext happly
  have hlarge : ¬ ∀ line ∈ woven, line.origin = none → line.instruction.InWindow := by
    rw [hfits]
    show ¬ (a.slots.size * 8 < 2048 ∨ a.slots.size * 8 = 2048 ∧ _)
    omega
  push Not at hlarge
  obtain ⟨line, hline, hnone, hfar⟩ := hlarge
  intro lines hlines
  -- Spill code is never mistaken for a load of a number.
  have hmem : line.instruction ∈ lines.map Line.instruction :=
    hlines.out.trans hwoven.out.symm ▸ List.mem_map_of_mem hline
  obtain ⟨other, hother, heq⟩ := List.mem_map.1 hmem
  refine ⟨other, hother, ?_, heq ▸ hfar⟩
  cases horigin : other.origin with
  | none => rfl
  | some i =>
    have hi : i ∈ crowd n := hlines.code ▸ List.mem_filterMap.2 ⟨other, hother, horigin⟩
    obtain ⟨k, _, rfl⟩ := mem_crowd.1 hi
    have hname : line.instruction.name = "li" := by
      rw [← heq, (hlines.placed other hother _ horigin).same]
      rfl
    have hopcode := (hwoven.made line hline hnone).opcode ofContext_spillContext
    rw [hname] at hopcode
    exact absurd hopcode (by decide)

end Crowd

/-- Spill code is encodable if and only if the frame is small enough, whatever the code, the pool
and the random source. -/
theorem allocate_inWindow_iff (h : allocate pool code context state = .ok out state') :
    ∃ a spill lines, Allocation.ofCode pool code context state = .ok a state' ∧
      SpillCode.ofContext context = .ok spill ∧ Weaves spill code out lines ∧
      ((∀ line ∈ lines, line.origin = none → line.instruction.InWindow) ↔
        a.slots.size * context.environment.xlen.bytes < 2048 ∨
          a.slots.size * context.environment.xlen.bytes = 2048 ∧
            ∀ o ∈ out.tail, o.name ≠ "ret") := by
  obtain ⟨a, spill, hofCode, hspill, happly⟩ := allocate_ok h
  obtain ⟨hsound, _⟩ := Allocation.ofCode_ok hofCode
  obtain ⟨lines, hweaves, hfits⟩ := apply_inWindow_iff hsound hspill happly
  exact ⟨a, spill, lines, hofCode, hspill, hweaves, hfits⟩

theorem allocate_crowd_inWindow_iff : ∃ out state',
    allocate { gprs := 3 } (crowd 40) spillContext zeroState = .ok out state' ∧
    ∃ a spill lines, Allocation.ofCode { gprs := 3 } (crowd 40) spillContext zeroState =
        .ok a state' ∧
      SpillCode.ofContext spillContext = .ok spill ∧ Weaves spill (crowd 40) out lines ∧
      ((∀ line ∈ lines, line.origin = none → line.instruction.InWindow) ↔
        a.slots.size * spillContext.environment.xlen.bytes < 2048 ∨
          a.slots.size * spillContext.environment.xlen.bytes = 2048 ∧
            ∀ o ∈ out.tail, o.name ≠ "ret") := by
  obtain ⟨out, state', h⟩ := crowd_allocates { gprs := 3 } 40
  exact ⟨out, state', h, allocate_inWindow_iff h⟩

theorem crowd_257_not_inWindow : ∃ out state' spill,
    allocate { gprs := 0, fprs := 0 } (crowd 257) spillContext zeroState = .ok out state' ∧
      SpillCode.ofContext spillContext = .ok spill ∧
      ∀ lines, Weaves spill (crowd 257) out lines →
        ∃ line ∈ lines, line.origin = none ∧ ¬ line.instruction.InWindow :=
  crowd_not_inWindow (by decide)

end PlanLowering
