import Mathlib.Data.List.Forall2
import PlanLowering.Proofs.SpillCode

/-!
# Values that flow through allocated code

Allocated code is read as lines, each of which stands for an instruction of the code before
allocation or was put in. A run of the lines is followed together with the value of each id.
-/

namespace PlanLowering

/-- A line of allocated code and the instruction it stands for; spill code stands for none. -/
structure Line where
  origin : Option Instruction
  instruction : Instruction

/-- The lines spell `out` and stand for `code`, each instruction once and in its order. -/
structure Weaves (spill : SpillCode) (code out : List Instruction) (lines : List Line) : Prop where
  out : lines.map Line.instruction = out
  code : lines.filterMap Line.origin = code
  placed : ∀ line ∈ lines, ∀ i, line.origin = some i → i.Placed line.instruction
  made : ∀ line ∈ lines, line.origin = none → spill.Makes line.instruction

namespace Weaves

variable {spill : SpillCode} {code out : List Instruction} {lines others : List Line} {line : Line}

theorem name_mem (h : Weaves spill code out lines) (hline : line ∈ lines)
    (horigin : line.origin ≠ none) : line.instruction.name ∈ code.map Instruction.name := by
  obtain ⟨i, hi⟩ := Option.ne_none_iff_exists'.1 horigin
  have hmem : i ∈ code := h.code ▸ List.mem_filterMap.2 ⟨line, hline, hi⟩
  rw [(h.placed line hline i hi).same]
  exact List.mem_map.2 ⟨i, hmem, rfl⟩

def Matches (line other : Line) : Prop :=
  line.instruction = other.instruction ∧ (other.origin = none → line.origin = none)

theorem length_origins_le (h : List.Forall₂ Matches lines others) :
    (lines.filterMap Line.origin).length ≤ (others.filterMap Line.origin).length := by
  induction h with
  | nil => exact Nat.le_refl 0
  | @cons line other _ _ hline _ ih =>
    cases hother : other.origin with
    | none => simpa [hother, hline.2 hother] using ih
    | some j => cases horigin : line.origin <;> simp [hother, horigin] <;> omega

theorem eq_of_matches (h : List.Forall₂ Matches lines others)
    (hsame : lines.filterMap Line.origin = others.filterMap Line.origin) : lines = others := by
  induction h with
  | nil => rfl
  | @cons line other rest more hline hrest ih =>
    have hlength := length_origins_le hrest
    obtain ⟨horigin, htail⟩ : line.origin = other.origin ∧
        rest.filterMap Line.origin = more.filterMap Line.origin := by
      cases hother : other.origin with
      | none =>
        have hnone := hline.2 hother
        exact ⟨hnone, by simpa [hnone, hother] using hsame⟩
      | some j =>
        cases horigin : line.origin with
        | none =>
          simp only [List.filterMap_cons, horigin, hother] at hsame
          rw [hsame, List.length_cons] at hlength
          omega
        | some i => simpa [horigin, hother] using hsame
    obtain ⟨_, _⟩ := line
    obtain ⟨_, _⟩ := other
    obtain rfl := hline.1
    obtain rfl := horigin
    rw [ih htail]

/-- What stands for the code is not in doubt where inserted instructions have names of their own. -/
theorem unique (h : Weaves spill code out lines) (hout : others.map Line.instruction = out)
    (hcode : others.filterMap Line.origin = code)
    (hnames : ∀ line ∈ others, line.origin = none →
      line.instruction.name ∉ code.map Instruction.name) : lines = others := by
  refine eq_of_matches ?_ (h.code.trans hcode.symm)
  have hspelled : List.Forall₂ Eq (lines.map Line.instruction) (others.map Line.instruction) := by
    rw [h.out, hout, List.forall₂_eq_eq_eq]
  have hpairs := List.forall₂_map_right_iff.1 (List.forall₂_map_left_iff.1 hspelled)
  refine List.forall₂_iff_get.2 ⟨hpairs.length_eq, fun k hk hk' => ?_⟩
  have hinstruction := (List.forall₂_iff_get.1 hpairs).2 k hk hk'
  refine ⟨hinstruction, fun hnone => ?_⟩
  by_contra horigin
  refine hnames _ (List.get_mem others ⟨k, hk'⟩) hnone ?_
  rw [← hinstruction]
  exact h.name_mem (List.get_mem lines ⟨k, hk⟩) horigin

end Weaves

namespace Line

def inserted (i : Instruction) : Line := ⟨none, i⟩

@[simp] theorem origin_inserted (i : Instruction) : (inserted i).origin = none := rfl

@[simp] theorem instruction_inserted (i : Instruction) : (inserted i).instruction = i := rfl

@[simp] theorem origin_comp_inserted : origin ∘ inserted = fun _ => none := rfl

def definition? (line : Line) : Option (Id × Register) := do
  let i ← line.origin
  let id ← i.virtualDestination?
  let r ← line.instruction.target?
  return (id, r)

end Line

/-- The machine amid a run, and what was last written to each id. -/
structure Snapshot (xlen : Xlen) (σ : Type) where
  machine : Machine xlen σ
  values : Id → Option xlen.Value

namespace Snapshot

variable {xlen : Xlen} {σ : Type}

/-- The entry of a routine, where no id has a value. -/
def entry (m : Machine xlen σ) : Snapshot xlen σ := ⟨m, fun _ => none⟩

variable (p : Processor xlen σ) (spill : SpillCode) (slots : Nat)
variable (readAs : Id → xlen.Value → xlen.Value) (s : Snapshot xlen σ) (line : Line)

/-- A definition gives its id what its register holds once the line was executed. -/
def step : Snapshot xlen σ where
  machine := p.exec s.machine line.instruction
  values := match line.definition? with
    | some (id, r) =>
      Function.update s.values id (some ((p.exec s.machine line.instruction).value r))
    | none => s.values

/-- Each operand that took the place of an id reads the value of that id, or what `readAs` makes of
it. Labels read nothing. -/
def Reads : Prop :=
  ∀ i, line.origin = some i → i.isLabel = false →
    List.Forall₂ (fun op op' : Operand => ∀ id, op.virtual? = some id →
      ∃ r v, op'.value = .reg r ∧ r ≠ .sp ∧ s.values id = some v ∧
        s.machine.value r = readAs id v)
      i.sources line.instruction.sources

/-- The line stores to none of the slots. -/
def Spares : Prop :=
  ∀ n < slots, Memory.load (p.exec s.machine line.instruction).memory (spill.cell s.machine n) =
    spill.word s.machine n

/-- All reads are right up to the first `ret`, as long as the code's own lines spare the slots. -/
def Flows (s : Snapshot xlen σ) : List Line → Prop
  | [] => True
  | line :: rest => s.Reads readAs line ∧
      (line.instruction.name ≠ "ret" → (line.origin.isSome → s.Spares p spill slots line) →
        Flows (s.step p line) rest)

variable {p spill slots readAs s line} {xs ys ys' : List Line} {i : Instruction}

theorem reads_inserted : s.Reads readAs (.inserted i) := by
  intro _ h
  cases h

theorem spares_of_memory
    (h : (p.exec s.machine line.instruction).memory = s.machine.memory) :
    s.Spares p spill slots line := by
  intro n _
  rw [h, SpillCode.word]

theorem step_inserted : s.step p (.inserted i) = ⟨p.exec s.machine i, s.values⟩ := rfl

theorem step_quiet (h : line.definition? = none) :
    s.step p line = ⟨p.exec s.machine line.instruction, s.values⟩ := by
  simp [step, h]

theorem step_define {id : Id} {r : Register} (h : line.definition? = some (id, r)) :
    s.step p line = ⟨p.exec s.machine line.instruction,
      Function.update s.values id
        (some ((p.exec s.machine line.instruction).value r))⟩ := by
  simp [step, h]

/-- A line behind others that go on and spare the slots reads the right values. -/
theorem Flows.reads {k : Nat} (h : Flows p spill slots readAs s xs) (hk : xs[k]? = some line)
    (hgoes : ∀ l ∈ xs.take k, l.instruction.name ≠ "ret")
    (hspares : ∀ l ∈ xs.take k, l.origin.isSome →
      ∀ s : Snapshot xlen σ, s.Spares p spill slots l) :
    ((xs.take k).foldl (step p) s).Reads readAs line := by
  induction xs generalizing s k with
  | nil => cases hk
  | cons first rest ih =>
    match k with
    | 0 =>
      obtain rfl := Option.some.inj hk
      exact h.1
    | k + 1 =>
      rw [List.take_succ_cons, List.forall_mem_cons] at hgoes hspares
      exact ih (h.2 hgoes.1 fun hsome => hspares.1 hsome s) hk hgoes.2 hspares.2

theorem Flows.append_mono (h : Flows p spill slots readAs s (xs ++ ys))
    (hys : ∀ s', Flows p spill slots readAs s' ys → Flows p spill slots readAs s' ys') :
    Flows p spill slots readAs s (xs ++ ys') := by
  induction xs generalizing s with
  | nil => exact hys s h
  | cons line rest ih => exact ⟨h.1, fun hret hspares => ih (h.2 hret hspares)⟩

theorem flows_inserted {code : List Instruction}
    (h : Flows p spill slots readAs ⟨code.foldl p.exec s.machine, s.values⟩ ys) :
    Flows p spill slots readAs s (code.map Line.inserted ++ ys) := by
  induction code generalizing s with
  | nil => exact h
  | cons i rest ih =>
    refine ⟨reads_inserted, fun _ _ => ?_⟩
    rw [step_inserted]
    exact ih h

/-- The line is a label, and what it defines is not changed by the instruction. -/
structure Passes (p : Processor xlen σ) (line : Line) (i : Instruction) : Prop where
  label : line.instruction.isLabel
  reads : ∀ a, line.origin = some a → a.isLabel
  keeps : ∀ id r, line.definition? = some (id, r) →
    ∀ m, (p.exec m i).registers r = m.registers r

theorem Passes.step_comm (h : Passes p line i) (s : Snapshot xlen σ) :
    (s.step p line).step p (.inserted i) = (s.step p (.inserted i)).step p line := by
  cases hdef : line.definition? with
  | none => simp only [step_quiet hdef, step_inserted, Processor.exec_label h.label]
  | some found =>
    obtain ⟨id, r⟩ := found
    simp only [step_define hdef, step_inserted, Processor.exec_label h.label, Machine.value,
      h.keeps id r hdef]

/-- Inserted code may stand on either side of a label. -/
theorem flows_swap (h : Passes p line i) : Flows p spill slots readAs s (.inserted i :: line :: ys) ↔
    Flows p spill slots readAs s (line :: .inserted i :: ys) := by
  have hreads : ∀ s : Snapshot xlen σ, s.Reads readAs line := by
    intro s a horigin hlabel
    rw [h.reads a horigin] at hlabel
    cases hlabel
  have hspares : ∀ s : Snapshot xlen σ, s.Spares p spill slots line :=
    fun s => spares_of_memory (by rw [Processor.exec_label h.label])
  constructor
  · rintro ⟨_, hflows⟩
    refine ⟨hreads s, fun hret _ => ⟨reads_inserted, fun hret' _ => ?_⟩⟩
    rw [h.step_comm]
    exact (hflows hret' (by simp [Line.inserted])).2 hret fun _ => hspares _
  · rintro ⟨_, hflows⟩
    refine ⟨reads_inserted, fun hret' _ => ⟨hreads _, fun hret _ => ?_⟩⟩
    rw [← h.step_comm]
    exact (hflows hret fun _ => hspares s).2 hret' (by simp [Line.inserted])

theorem flows_swap_all {code : List Instruction} (h : ∀ i ∈ code, Passes p line i)
    (hflows : Flows p spill slots readAs s (line :: (code.map Line.inserted ++ ys))) :
    Flows p spill slots readAs s (code.map Line.inserted ++ line :: ys) := by
  induction code generalizing s with
  | nil => exact hflows
  | cons i rest ih =>
    rw [List.map_cons, List.cons_append] at hflows ⊢
    have hswapped := (flows_swap (h i List.mem_cons_self)).2 hflows
    refine ⟨hswapped.1, fun hret hspares => ?_⟩
    exact ih (fun j hj => h j (List.mem_cons_of_mem i hj)) (hswapped.2 hret hspares)

end Snapshot
end PlanLowering
