import PlanLowering.Proofs.ValueFlow

/-!
# The whole of an allocated routine

The lines of single instructions are put together as layout and frame do it, and the flow of
values is carried from one arrangement to the next: first in the order of the code, then with
pointer labels glued to their instructions, then inside the frame.
-/

namespace PlanLowering

def Piece.lines (i : Instruction) (piece : Piece) : List Line :=
  piece.before.map .inserted ++ ⟨some i, piece.instruction⟩ :: piece.after.map .inserted

def straightLines (pairs : List (Instruction × Piece)) : List Line :=
  pairs.flatMap fun pair => pair.2.lines pair.1

def placedLines (held : List Line) : List (Instruction × Piece) → List Line
  | [] => held
  | (i, piece) :: rest =>
    piece.before.map .inserted ++ held ++
      if piece.instruction.isPointerLabel ∧ piece.after = [] then
        placedLines [⟨some i, piece.instruction⟩] rest
      else ⟨some i, piece.instruction⟩ :: piece.after.map .inserted ++ placedLines [] rest

variable {xlen : Xlen} {σ : Type} {p : Processor xlen σ} {a : Allocation} {spill : SpillCode}
variable {pool : RegisterPool} {files : Id → RegisterFile} {readAs : Id → xlen.Value → xlen.Value}
variable {code out : List Instruction} {s : Snapshot xlen σ} {m : Machine xlen σ} {k slots : Nat}
variable {i : Instruction} {piece : Piece} {woven held : List Line} {line : Line}
variable {pairs : List (Instruction × Piece)} {enter leave : Instruction}

theorem straightLines_cons : straightLines ((i, piece) :: pairs) =
    piece.lines i ++ straightLines pairs := rfl

section Place

theorem placedLines_instructions : (placedLines held pairs).map Line.instruction =
    Piece.place (held.map Line.instruction) (pairs.map Prod.snd) := by
  have hinserted (code : List Instruction) :
      (code.map Line.inserted).map Line.instruction = code := by
    simp [Function.comp_def, Line.inserted]
  induction pairs generalizing held with
  | nil => rfl
  | cons pair rest ih =>
    obtain ⟨i, piece⟩ := pair
    by_cases hlabel : piece.instruction.isPointerLabel ∧ piece.after = []
    · simp [placedLines, Piece.place, hlabel, ih, hinserted]
    · simp [placedLines, Piece.place, hlabel, ih, hinserted]

theorem placedLines_origins : (placedLines held pairs).filterMap Line.origin =
    held.filterMap Line.origin ++ pairs.map Prod.fst := by
  have hinserted (code : List Instruction) :
      (code.map Line.inserted).filterMap Line.origin = [] := by
    simp [List.filterMap_map, Function.comp_def, Line.inserted]
  induction pairs generalizing held with
  | nil => simp [placedLines]
  | cons pair rest ih =>
    obtain ⟨i, piece⟩ := pair
    by_cases hlabel : piece.instruction.isPointerLabel ∧ piece.after = []
    · simp [placedLines, hlabel, ih, hinserted]
    · simp [placedLines, hlabel, ih, hinserted]

theorem mem_placedLines (h : line ∈ placedLines held pairs) :
    line ∈ held ∨ line ∈ straightLines pairs := by
  induction pairs generalizing held with
  | nil => exact .inl h
  | cons pair rest ih =>
    obtain ⟨i, piece⟩ := pair
    rw [straightLines_cons]
    simp only [placedLines, List.append_assoc, List.mem_append] at h
    rcases h with h | h | h
    · exact .inr (List.mem_append_left _ (List.mem_append_left _ h))
    · exact .inl h
    · split at h
      · rcases ih h with h | h
        · rw [List.mem_singleton] at h
          exact .inr (by simp [Piece.lines, h])
        · exact .inr (List.mem_append_right _ h)
      · rw [List.cons_append, List.mem_cons, List.mem_append] at h
        rcases h with rfl | h | h
        · exact .inr (by simp [Piece.lines])
        · exact .inr (List.mem_append_left _ (by simp_all [Piece.lines]))
        · exact .inr (List.mem_append_right _ ((ih h).resolve_left (by simp)))

theorem flows_wait {xs ys : List Line}
    (h : ∀ line ∈ xs, ∀ o ∈ code, Snapshot.Passes p line o)
    (hflows : s.Flows p spill slots readAs (xs ++ (code.map .inserted ++ ys))) :
    s.Flows p spill slots readAs (code.map .inserted ++ (xs ++ ys)) := by
  induction xs generalizing s with
  | nil => exact hflows
  | cons line rest ih =>
    apply Snapshot.flows_swap_all (h line List.mem_cons_self)
    have hfirst : s.Flows p spill slots readAs ([line] ++ (rest ++ (code.map .inserted ++ ys))) :=
      hflows
    exact hfirst.append_mono fun s' hs' =>
      ih (fun l hl => h l (List.mem_cons_of_mem line hl)) hs'

/-- A label that defines nothing in a scratch register can wait for reloads. -/
structure Line.Idle (line : Line) : Prop where
  label : line.instruction.isLabel
  reads : ∀ i, line.origin = some i → i.isLabel
  register : ∀ id r, line.definition? = some (id, r) → ¬ r.IsScratch

theorem Line.Idle.passes (h : line.Idle) (hspill : spill.Declared xlen) {o : Instruction}
    (ho : ∃ r slot id, spill.reload r slot id = .ok o ∧ r.IsScratch) :
    Snapshot.Passes p line o := by
  refine ⟨h.label, h.reads, fun id r hdef m => ?_⟩
  obtain ⟨scratch, slot, key, hreload, hscratch⟩ := ho
  obtain ⟨_, _, hregisters, _⟩ := SpillCode.exec_reload (m := m) hspill hreload
  have hne : r ≠ scratch := by
    rintro rfl
    exact h.register id r hdef hscratch
  rw [hregisters, Function.update_of_ne hne]

theorem Allocation.Replaces.idle (h : a.Serves p files pool spill code) (hi : i ∈ code)
    (hpiece : a.Replaces p files spill i piece) (hlabel : piece.instruction.isPointerLabel)
    (hafter : piece.after = []) : Line.Idle ⟨some i, piece.instruction⟩ := by
  have hform : piece.instruction.form = .label true := by
    simpa [Instruction.isPointerLabel] using hlabel
  refine ⟨by simp [Instruction.isLabel, hform], ?_, ?_⟩
  · rintro _ ⟨⟩
    have hsame : piece.instruction.form = i.form := by rw [hpiece.placed.same]
    simp [Instruction.isLabel, ← hsame, hform]
  · intro id r hdef
    simp only [Line.definition?, Option.bind_eq_bind, Option.bind_some,
      Option.bind_eq_some_iff] at hdef
    obtain ⟨id', hid', r', htarget, hpair⟩ := hdef
    cases hpair
    cases hpiece.lands (h.filed i hi) with
    | fixed hnone _ _ => rw [hnone] at hid'; cases hid'
    | register hdef hr htarget' _ =>
      rw [htarget, Option.some.injEq] at htarget'
      obtain ⟨k, hk⟩ := List.getElem?_of_mem hi
      obtain ⟨j, hj, rfl, _⟩ := h.described.defined k i _ hk hdef
      exact htarget' ▸ (h.sound.register hj hr).2.2.2.1
    | slot _ _ _ _ _ _ hafter' => rw [hafter] at hafter'; cases hafter'

theorem flows_placed (h : a.Serves p files pool spill code)
    (hpairs : ∀ pair ∈ pairs, pair.1 ∈ code ∧ a.Replaces p files spill pair.1 pair.2)
    (hheld : ∀ line ∈ held, line.Idle)
    (hflows : s.Flows p spill slots readAs (held ++ straightLines pairs)) :
    s.Flows p spill slots readAs (placedLines held pairs) := by
  induction pairs generalizing s held with
  | nil => simpa [placedLines, straightLines] using hflows
  | cons pair rest ih =>
    obtain ⟨i, piece⟩ := pair
    obtain ⟨hi, hpiece⟩ := hpairs _ List.mem_cons_self
    have hrest : ∀ pair ∈ rest, pair.1 ∈ code ∧ a.Replaces p files spill pair.1 pair.2 :=
      fun pair hpair => hpairs pair (List.mem_cons_of_mem _ hpair)
    have hwaited := flows_wait
      (fun line hline o ho => (hheld line hline).passes h.declared (hpiece.reloads o ho))
      (by simpa [straightLines_cons, Piece.lines] using hflows)
    rw [← List.append_assoc] at hwaited
    refine hwaited.append_mono fun s' hs' => ?_
    split
    case isTrue hlabel =>
      apply ih hrest
      · intro line hline
        rw [List.mem_singleton] at hline
        exact hline ▸ hpiece.idle h hi hlabel.1 hlabel.2
      · simpa [hlabel.2] using hs'
    case isFalse =>
      refine Snapshot.Flows.append_mono (by simpa using hs') fun s'' hs'' => ?_
      exact ih hrest (by simp) hs''

theorem flows_straight (h : a.Serves p files pool spill code)
    (hdrop : code.drop k = pairs.map Prod.fst)
    (hpairs : ∀ pair ∈ pairs, a.Replaces p files spill pair.1 pair.2)
    (hs : s.Holds files a spill k) :
    s.Flows p spill a.slots.size a.readAs (straightLines pairs) := by
  induction pairs generalizing k s with
  | nil => trivial
  | cons pair rest ih =>
    obtain ⟨i, piece⟩ := pair
    have hpiece := hpairs _ List.mem_cons_self
    have hi : code[k]? = some i := by
      rw [← Nat.add_zero k, ← List.getElem?_drop, hdrop]
      rfl
    have hnext : code.drop (k + 1) = rest.map Prod.fst := by
      rw [← List.drop_drop, hdrop]
      rfl
    have hready := hs.reloads h hpiece.reloads
    rw [straightLines_cons, Piece.lines, List.append_assoc, List.cons_append]
    apply Snapshot.flows_inserted
    refine ⟨hs.reads h hi hpiece, fun _ hspares => ?_⟩
    apply Snapshot.flows_inserted
    exact ih hnext (fun pair hpair => hpairs pair (List.mem_cons_of_mem _ hpair))
      (hready.step h hi hpiece (hspares rfl))

end Place

section Frame

def closedLines (leave : Instruction) (woven : List Line) : List Line :=
  woven.flatMap fun line =>
    if line.instruction.name = "ret" then [.inserted leave, line] else [line]

def framedLines (enter leave : Instruction) : List Line → List Line
  | [] => [.inserted enter]
  | first :: rest =>
    if first.instruction.isLabel then first :: .inserted enter :: closedLines leave rest
    else .inserted enter :: closedLines leave (first :: rest)

theorem closedLines_cons : closedLines leave (line :: woven) =
    (if line.instruction.name = "ret" then [.inserted leave, line] else [line]) ++
      closedLines leave woven := rfl

theorem framedLines_cons : framedLines enter leave (line :: woven) =
    if line.instruction.isLabel then line :: .inserted enter :: closedLines leave woven
    else .inserted enter :: closedLines leave (line :: woven) := rfl

theorem closedLines_instructions : (closedLines leave woven).map Line.instruction =
    (woven.map Line.instruction).flatMap fun i => if i.name = "ret" then [leave, i] else [i] := by
  induction woven with
  | nil => rfl
  | cons line rest ih =>
    rw [closedLines_cons, List.map_append, ih]
    by_cases hret : line.instruction.name = "ret" <;> simp [hret, Line.inserted]

theorem closedLines_origins :
    (closedLines leave woven).filterMap Line.origin = woven.filterMap Line.origin := by
  induction woven with
  | nil => rfl
  | cons line rest ih =>
    rw [closedLines_cons, List.filterMap_append, ih]
    by_cases hret : line.instruction.name = "ret" <;>
      cases horigin : line.origin <;> simp [hret, Line.inserted, horigin]

theorem framedLines_origins :
    (framedLines enter leave woven).filterMap Line.origin = woven.filterMap Line.origin := by
  cases woven with
  | nil => rfl
  | cons first rest =>
    by_cases hlabel : first.instruction.isLabel
    · cases horigin : first.origin <;>
        simp [framedLines, hlabel, closedLines_origins, Line.inserted, horigin]
    · simp only [framedLines, hlabel, Bool.false_eq_true, if_false, Line.inserted,
        List.filterMap_cons]
      exact closedLines_origins

theorem mem_closedLines (h : line ∈ closedLines leave woven) :
    line ∈ woven ∨ line = .inserted leave := by
  obtain ⟨other, hother, hline⟩ := List.mem_flatMap.1 h
  split at hline
  · simp only [List.mem_cons, List.not_mem_nil, or_false] at hline
    rcases hline with rfl | rfl
    · exact .inr rfl
    · exact .inl hother
  · rw [List.mem_singleton] at hline
    exact .inl (hline ▸ hother)

theorem mem_framedLines (h : line ∈ framedLines enter leave woven) :
    line ∈ woven ∨ line = .inserted enter ∨ line = .inserted leave := by
  cases woven with
  | nil => exact .inr (.inl (List.mem_singleton.1 h))
  | cons first rest =>
    rw [framedLines_cons] at h
    split at h
    · rcases List.mem_cons.1 h with rfl | h
      · exact .inl List.mem_cons_self
      · rcases List.mem_cons.1 h with rfl | h
        · exact .inr (.inl rfl)
        · rcases mem_closedLines h with h | rfl
          · exact .inl (List.mem_cons_of_mem _ h)
          · exact .inr (.inr rfl)
    · rcases List.mem_cons.1 h with rfl | h
      · exact .inr (.inl rfl)
      · rcases mem_closedLines h with h | rfl
        · exact .inl h
        · exact .inr (.inr rfl)

variable {bytes : Int} {id : Id}

/-- What replaced an id is not the stack pointer, so a return reads the same with the frame
closed. -/
theorem flows_closed (hspill : spill.Declared xlen)
    (hleave : spill.moveStack bytes id = .ok leave) (hflows : s.Flows p spill slots readAs woven) :
    s.Flows p spill slots readAs (closedLines leave woven) := by
  induction woven generalizing s with
  | nil => trivial
  | cons line rest ih =>
    obtain ⟨hreads, hrest⟩ := hflows
    rw [closedLines_cons]
    by_cases hret : line.instruction.name = "ret"
    · rw [if_pos hret]
      refine ⟨Snapshot.reads_inserted, fun _ _ => ⟨?_, fun hne => absurd hret hne⟩⟩
      intro i hi hlabel
      refine (hreads i hi hlabel).imp fun op op' hop key hkey => ?_
      obtain ⟨r, v, hr, hsp, hv, hvalue⟩ := hop key hkey
      refine ⟨r, v, hr, hsp, hv, ?_⟩
      obtain ⟨_, _, hregisters, _⟩ :=
        SpillCode.exec_moveStack (p := p) (m := s.machine) hspill hleave
      refine .trans (Machine.value_congr ?_) hvalue
      rw [Snapshot.step_inserted, hregisters, Function.update_of_ne hsp]
    · rw [if_neg hret]
      exact ⟨hreads, fun hne hspares => ih (hrest hne hspares)⟩

theorem flows_framed (hspill : spill.Declared xlen)
    (henter : spill.moveStack bytes id = .ok enter) {bytes' : Int} {id' : Id}
    (hleave : spill.moveStack bytes' id' = .ok leave)
    (hlabels : ∀ line ∈ woven, line.instruction.isLabel →
      (∀ i, line.origin = some i → i.isLabel) ∧ line.instruction.target? ≠ some .sp)
    (hflows : ∀ s : Snapshot xlen σ,
      (s.values = fun _ => none) → s.Flows p spill slots readAs woven) :
    (Snapshot.entry m).Flows p spill slots readAs (framedLines enter leave woven) := by
  have hinside : (Snapshot.entry m).Flows p spill slots readAs (.inserted enter :: woven) :=
    ⟨Snapshot.reads_inserted, fun _ _ => hflows _ rfl⟩
  cases woven with
  | nil => exact hinside
  | cons first rest =>
    rw [framedLines_cons]
    split
    case isTrue hlabel =>
      obtain ⟨hreads, hsp⟩ := hlabels first List.mem_cons_self hlabel
      have hpasses : Snapshot.Passes p first enter := by
        refine ⟨hlabel, hreads, fun key r hdef m => ?_⟩
        obtain ⟨_, _, hregisters, _⟩ := SpillCode.exec_moveStack (m := m) hspill henter
        have hne : r ≠ .sp := by
          rintro rfl
          simp only [Line.definition?, Option.bind_eq_bind, Option.bind_eq_some_iff] at hdef
          obtain ⟨_, _, _, _, r, htarget, hpair⟩ := hdef
          cases hpair
          exact hsp htarget
        rw [hregisters, Function.update_of_ne hne]
      refine (Snapshot.flows_swap hpasses).1 ?_
      have hopened :
          (Snapshot.entry m).Flows p spill slots readAs ([.inserted enter, first] ++ rest) :=
        hinside
      exact hopened.append_mono fun s' hs' => flows_closed hspill hleave hs'
    case isFalse =>
      have hopened :
          (Snapshot.entry m).Flows p spill slots readAs ([.inserted enter] ++ first :: rest) :=
        hinside
      exact hopened.append_mono fun s' hs' => flows_closed hspill hleave hs'

theorem frame_ok (h : spill.frame slots (woven.map Line.instruction) = .ok out) :
    ∃ enter leave, spill.moveStack (-spill.offset slots) "spill_frame_open" = .ok enter ∧
      spill.moveStack (spill.offset slots) "spill_frame_close" = .ok leave ∧
      (framedLines enter leave woven).map Line.instruction = out := by
  simp only [SpillCode.frame, except_bind_ok] at h
  obtain ⟨enter, henter, leave, hleave, h⟩ := h
  refine ⟨enter, leave, henter, hleave, ?_⟩
  cases woven with
  | nil =>
    simp only [List.map_nil, except_pure_ok] at h
    exact h
  | cons first rest =>
    rw [framedLines_cons]
    simp only [List.map_cons] at h
    split at h
    · next hlabel =>
      rw [except_pure_ok] at h
      rw [if_pos hlabel, ← h, List.map_cons, List.map_cons, closedLines_instructions]
      rfl
    · next hlabel =>
      rw [except_pure_ok] at h
      rw [if_neg hlabel, ← h, List.map_cons, closedLines_instructions]
      rfl

end Frame

theorem mem_straightLines (h : line ∈ straightLines pairs) :
    ∃ pair ∈ pairs, line = ⟨some pair.1, pair.2.instruction⟩ ∨
      ∃ o ∈ pair.2.before ++ pair.2.after, line = .inserted o := by
  obtain ⟨pair, hpair, hline⟩ := List.mem_flatMap.1 h
  refine ⟨pair, hpair, ?_⟩
  simp only [Piece.lines, List.mem_append, List.mem_cons, List.mem_map] at hline
  rcases hline with ⟨o, ho, rfl⟩ | rfl | ⟨o, ho, rfl⟩
  · exact .inr ⟨o, List.mem_append_left _ ho, rfl⟩
  · exact .inl rfl
  · exact .inr ⟨o, List.mem_append_right _ ho, rfl⟩

theorem inserted_placedLines {P : Instruction → Prop}
    (hpairs : ∀ pair ∈ pairs, ∀ o ∈ pair.2.before ++ pair.2.after, P o)
    (h : line ∈ placedLines [] pairs) (hnone : line.origin = none) : P line.instruction := by
  have hstraight := (mem_placedLines h).resolve_left (by simp)
  obtain ⟨pair, hpair, rfl | ⟨o, ho, rfl⟩⟩ := mem_straightLines hstraight
  · cases hnone
  · exact hpairs pair hpair o ho

theorem weaves_of_mem (hpairs : ∀ pair ∈ pairs, pair.1.Placed pair.2.instruction ∧
      ∀ o ∈ pair.2.before ++ pair.2.after, spill.Makes o)
    (hout : woven.map Line.instruction = out)
    (hcode : woven.filterMap Line.origin = pairs.map Prod.fst)
    (hmem : ∀ line ∈ woven, line ∈ straightLines pairs ∨
      ∃ o, spill.Makes o ∧ line = .inserted o) :
    Weaves spill (pairs.map Prod.fst) out woven := by
  have hline : ∀ line ∈ woven, (∃ pair ∈ pairs, line = ⟨some pair.1, pair.2.instruction⟩) ∨
      ∃ o, spill.Makes o ∧ line = .inserted o := by
    intro line hline
    rcases hmem line hline with hmem | hmem
    · obtain ⟨pair, hpair, rfl | ⟨o, ho, rfl⟩⟩ := mem_straightLines hmem
      · exact .inl ⟨pair, hpair, rfl⟩
      · exact .inr ⟨o, (hpairs pair hpair).2 o ho, rfl⟩
    · exact .inr hmem
  refine ⟨hout, hcode, ?_, ?_⟩
  · intro line hmem i hi
    rcases hline line hmem with ⟨pair, hpair, rfl⟩ | ⟨o, _, rfl⟩
    · cases hi
      exact (hpairs pair hpair).1
    · cases hi
  · intro line hmem hnone
    rcases hline line hmem with ⟨pair, _, rfl⟩ | ⟨o, ho, rfl⟩
    · cases hnone
    · exact ho

/-- The lines of the body, framed if anything is on the stack. -/
inductive SpillCode.Arranges (spill : SpillCode) (slots : Nat) (body : List Line) :
    List Line → Prop where
  | bare (hslots : slots = 0) : Arranges spill slots body body
  | framed {enter leave : Instruction} (hslots : slots ≠ 0)
      (henter : spill.moveStack (-spill.offset slots) "spill_frame_open" = .ok enter)
      (hleave : spill.moveStack (spill.offset slots) "spill_frame_close" = .ok leave) :
      Arranges spill slots body (framedLines enter leave body)

theorem Allocation.apply_weaves {context : Context}
    (hspill : SpillCode.ofContext context = .ok spill) (h : a.apply context code = .ok out) :
    ∃ pairs : List (Instruction × Piece), pairs.map Prod.fst = code ∧
      (∀ pair ∈ pairs, a.replaceOperands spill pair.1 = .ok pair.2) ∧
      ∃ woven, Weaves spill code out woven ∧
        spill.Arranges a.slots.size (placedLines [] pairs) woven := by
  obtain ⟨found, pieces, hfound, hpieces, hframe⟩ := apply_ok h
  obtain rfl := Except.ok.inj (hspill.symm.trans hfound)
  obtain ⟨pairs, rfl, rfl, hpairs⟩ := replaceAll_pairs hpieces
  refine ⟨pairs, rfl, hpairs, ?_⟩
  have hwoven : ∀ pair ∈ pairs, pair.1.Placed pair.2.instruction ∧
      ∀ o ∈ pair.2.before ++ pair.2.after, spill.Makes o :=
    fun pair hpair => replaceOperands_makes (hpairs pair hpair)
  have hbody : (placedLines [] pairs).map Line.instruction =
      Piece.layout (pairs.map Prod.snd) := placedLines_instructions
  have horigins : (placedLines [] pairs).filterMap Line.origin = pairs.map Prod.fst :=
    placedLines_origins
  have hstraight : ∀ line ∈ placedLines [] pairs, line ∈ straightLines pairs :=
    fun line hline => (mem_placedLines hline).resolve_left (by simp)
  rcases hframe with ⟨hslots, rfl⟩ | ⟨hslots, hframe⟩
  · exact ⟨_, weaves_of_mem hwoven hbody horigins
      fun line hline => .inl (hstraight line hline), .bare hslots⟩
  · rw [← hbody] at hframe
    obtain ⟨enter, leave, henter, hleave, hout⟩ := frame_ok hframe
    refine ⟨_, weaves_of_mem hwoven hout (framedLines_origins.trans horigins) ?_,
      .framed hslots henter hleave⟩
    intro line hline
    rcases mem_framedLines hline with hline | rfl | rfl
    · exact .inl (hstraight line hline)
    · exact .inr ⟨enter, .moveStack henter, rfl⟩
    · exact .inr ⟨leave, .moveStack hleave, rfl⟩

theorem apply_flows {context : Context} (hspill : SpillCode.ofContext context = .ok spill)
    (h : a.Serves p files pool spill code) (happly : a.apply context code = .ok out) :
    ∃ woven, Weaves spill code out woven ∧
      ∀ m : Machine xlen σ, (Snapshot.entry m).Flows p spill a.slots.size a.readAs woven := by
  obtain ⟨pairs, rfl, hreplaced, woven, hweaves, harranges⟩ := Allocation.apply_weaves hspill happly
  have hpairs : ∀ pair ∈ pairs, a.Replaces p files spill pair.1 pair.2 := fun pair hpair =>
    Allocation.replaces_of_run h.declared (h.filed _ (List.mem_map_of_mem hpair))
      (hreplaced pair hpair)
  have hflows : ∀ s : Snapshot xlen σ, (s.values = fun _ => none) →
      s.Flows p spill a.slots.size a.readAs (placedLines [] pairs) := by
    intro s _
    refine flows_placed h (fun pair hpair => ⟨List.mem_map_of_mem hpair, hpairs pair hpair⟩)
      (by simp) ?_
    exact flows_straight h List.drop_zero hpairs (Snapshot.Holds.initial s)
  refine ⟨woven, hweaves, fun m => ?_⟩
  cases harranges with
  | bare _ => exact hflows _ rfl
  | framed _ henter hleave =>
    refine flows_framed h.declared henter hleave ?_ hflows
    intro line hline hlabel
    have hstraight := (mem_placedLines hline).resolve_left (by simp)
    obtain ⟨pair, hpair, rfl | ⟨o, ho, rfl⟩⟩ := mem_straightLines hstraight
    · obtain ⟨k, hk⟩ := List.getElem?_of_mem (List.mem_map_of_mem (f := Prod.fst) hpair)
      refine ⟨?_, Allocation.target_ne_sp h hk (hpairs pair hpair)⟩
      rintro _ ⟨⟩
      rw [(hpairs pair hpair).placed.same] at hlabel
      exact hlabel
    · have hnot := ((hpairs pair hpair).makes o ho).not_label hspill
      rw [Line.inserted, hnot] at hlabel
      cases hlabel

/-- Every operand of allocated code that took the place of an id reads what was last written to
that id, whatever the pool and the random source. What a narrow processor has kept on the stack of a
float register is one word. -/
theorem allocate_preserves_values {context : Context} {state state' : State}
    {specs : List TemplateSpec} {width : Xlen}
    {p : Processor context.environment.xlen σ}
    (hcatalog : Catalog.ofSpecs specs width = .ok context.catalog)
    (hfiles : ∀ i ∈ code, i.InFiles files)
    (hwired : ∀ i ∈ code, ∀ r, i.target? = some r →
      r ≠ .sp ∧ (r ∈ i.clobbers ∨ r ∉ pool.registers r.file))
    (hclobbers : ∀ i ∈ code, .sp ∉ i.clobbers) (hrecorded : p.recorded = state.clobbers)
    (h : allocate pool code context state = .ok out state') :
    ∃ a spill woven, Allocation.ofCode pool code context state = .ok a state' ∧
      SpillCode.ofContext context = .ok spill ∧ Weaves spill code out woven ∧
      ∀ m : Machine context.environment.xlen σ,
        (Snapshot.entry m).Flows p spill a.slots.size a.readAs woven := by
  obtain ⟨a, spill, hofCode, hspill, happly⟩ := allocate_ok h
  obtain ⟨hsound, hdescribed⟩ := Allocation.ofCode_ok hofCode
  have hserves : a.Serves p files pool spill code :=
    ⟨SpillCode.ofContext_declared hcatalog hspill, hsound, hrecorded ▸ hdescribed, hfiles,
      hclobbers, hwired⟩
  obtain ⟨woven, hweaves, hflows⟩ := apply_flows hspill hserves happly
  exact ⟨a, spill, woven, hofCode, hspill, hweaves, hflows⟩

/-- A catalog with what spill code needs and nothing else. -/
def spillSpecs : List TemplateSpec :=
  [{ name := "ld", operands := "rd, rs1, imm", category := .load },
   { name := "sd", operands := "rs2, rs1, imm", category := .store },
   { name := "addi", operands := "rd, rs1, imm", category := .arithmetic }]

def spillContext : Context where
  catalog := (Catalog.ofSpecs spillSpecs .rv64).toOption.getD .empty
  environment := {}
  options := {}

/-- Two values that are added up across a directive that destroys registers. -/
def sumCode : List Instruction :=
  let file := OperandType.register .gpr
  [{ id := "x", name := "li", category := .pseudo,
     destination := some { slot := .rd, type := file, value := .virtual "x" },
     sources := [{ slot := .imm, type := .imm, value := .imm 3 }] },
   { id := "y", name := "li", category := .pseudo,
     destination := some { slot := .rd, type := file, value := .virtual "y" },
     sources := [{ slot := .imm, type := .imm, value := .imm 4 }] },
   { id := "t", name := "csr_rw", category := .system, clobbers := [.t1, .t2, .t6],
     destination := some { slot := .rd, type := file, value := .reg .t2 } },
   { id := "z", name := "add", category := .arithmetic,
     destination := some { slot := .rd, type := file, value := .virtual "z" },
     sources := [{ slot := .rs1, type := file, value := .virtual "x" },
       { slot := .rs2, type := file, value := .virtual "y" }] },
   { id := "", name := "ret", category := .jump }]

def zeroState : State := { random := { words := fun _ => 0 } }

theorem catalog_spillContext : Catalog.ofSpecs spillSpecs .rv64 = .ok spillContext.catalog := by
  have hok : (Catalog.ofSpecs spillSpecs .rv64).toOption.isSome := by decide +kernel
  unfold spillContext
  cases hspecs : Catalog.ofSpecs spillSpecs .rv64 with
  | error e => rw [hspecs] at hok; cases hok
  | ok catalog => rfl

theorem allocate_sumCode_preserves_values : ∃ out state',
    allocate { gprs := 3 } sumCode spillContext zeroState = .ok out state' ∧
    ∃ a spill woven,
      Allocation.ofCode { gprs := 3 } sumCode spillContext zeroState = .ok a state' ∧
      SpillCode.ofContext spillContext = .ok spill ∧ Weaves spill sumCode out woven ∧
      ∀ m, (Snapshot.entry m).Flows (.constant .rv64 0 0) spill a.slots.size a.readAs woven := by
  have hfiles : ∀ i ∈ sumCode, i.InFiles fun _ => .gpr := by
    unfold Instruction.InFiles
    decide +kernel
  have hwired : ∀ i ∈ sumCode, ∀ r, i.target? = some r →
      r ≠ .sp ∧ (r ∈ i.clobbers ∨ r ∉ RegisterPool.registers { gprs := 3 } r.file) := by
    decide +kernel
  have hok : ((allocate { gprs := 3 } sumCode).result? spillContext zeroState).isSome := by
    decide +kernel
  obtain ⟨out, hout⟩ := Option.isSome_iff_exists.1 hok
  obtain ⟨state', h⟩ := Lower.result?_eq_some.1 hout
  exact ⟨out, state', h, allocate_preserves_values catalog_spillContext hfiles hwired
    (by decide) rfl h⟩

/-- What is written to an id is read from it bit for bit, wherever it was in the meantime. -/
def KeepsValues (context : Context) (pool : RegisterPool) (code : List Instruction) : Prop :=
  ∀ (σ : Type) (p : Processor context.environment.xlen σ) (state state' : State)
    (out : List Instruction), p.recorded = state.clobbers →
    allocate pool code context state = .ok out state' →
    ∃ a spill woven, Allocation.ofCode pool code context state = .ok a state' ∧
      SpillCode.ofContext context = .ok spill ∧ Weaves spill code out woven ∧
      ∀ m : Machine context.environment.xlen σ,
        (Snapshot.entry m).Flows p spill a.slots.size (fun _ v => v) woven

def narrowSpecs : List TemplateSpec :=
  [{ name := "lw", operands := "rd, rs1, imm", category := .load },
   { name := "sw", operands := "rs2, rs1, imm", category := .store },
   { name := "flw", operands := "fd, rs1, imm", category := .load },
   { name := "fsw", operands := "fs2, rs1, imm", category := .store },
   { name := "addi", operands := "rd, rs1, imm", category := .arithmetic }]

def narrowContext : Context where
  catalog := (Catalog.ofSpecs narrowSpecs .rv32).toOption.getD .empty
  environment := { xlen := .rv32 }
  options := {}

theorem catalog_narrowContext :
    Catalog.ofSpecs narrowSpecs .rv32 = .ok narrowContext.catalog := by
  have hok : (Catalog.ofSpecs narrowSpecs .rv32).toOption.isSome := by decide +kernel
  unfold narrowContext
  cases hspecs : Catalog.ofSpecs narrowSpecs .rv32 with
  | error e => rw [hspecs] at hok; cases hok
  | ok catalog => rfl

def doubleCode : List Instruction :=
  let zero : Operand := { slot := .rs1, type := .register .gpr, value := .reg .zero }
  [{ id := "x", name := "fld", category := .load,
     destination := some { slot := .rd, type := .register .fpr, value := .virtual "x" },
     sources := [zero, { slot := .imm, type := .imm, value := .imm 0 }] },
   { id := "s", name := "fsd", category := .store,
     sources := [{ slot := .rs2, type := .register .fpr, value := .virtual "x" }, zero,
       { slot := .imm, type := .imm, value := .imm 8 }] }]

def movedCode : List Instruction :=
  let file := OperandType.register .gpr
  [{ id := "x", name := "li", category := .pseudo,
     destination := some { slot := .rd, type := file, value := .virtual "x" },
     sources := [{ slot := .imm, type := .imm, value := .imm 1 }] },
   { id := "t", name := "csr_rw", category := .system, clobbers := [.sp] },
   { id := "y", name := "mv", category := .pseudo,
     destination := some { slot := .rd, type := file, value := .virtual "y" },
     sources := [{ slot := .rs1, type := file, value := .virtual "x" }] }]

def spilledLines (context : Context) (code : List Instruction)
    (origins : List (Option Instruction)) : List Line :=
  let out := ((allocate { gprs := 0, fprs := 0 } code).result? context zeroState).getD []
  List.zipWith Line.mk origins out

def doubleLines : List Line :=
  spilledLines narrowContext doubleCode [none, doubleCode[0]?, none, none, doubleCode[1]?]

def movedLines : List Line :=
  spilledLines spillContext movedCode
    [none, movedCode[0]?, none, movedCode[1]?, none, movedCode[2]?, none]

/-- Lines that start from zero, on a processor that has one result and one kind of debris. -/
def constantRun (xlen : Xlen) (result debris : Nat) (lines : List Line) : Snapshot xlen Unit :=
  lines.foldl (Snapshot.step (.constant xlen result debris)) (.entry (.zero xlen))

/-- A value is lost where the first source of some line is not what was written to its id. -/
theorem not_keepsValues {context : Context} (lines : List Line) (k : Nat) (id : Id) (r : Register)
    (result debris : Nat)
    (hrun : (allocate pool code).result? context zeroState = some (lines.map Line.instruction))
    (hcode : lines.filterMap Line.origin = code)
    (hnames : ∀ line ∈ lines, line.origin = none →
      line.instruction.name ∉ code.map Instruction.name)
    (hgoes : ∀ line ∈ lines.take k, line.instruction.name ≠ "ret")
    (hquiet : ∀ line ∈ lines.take k, line.origin.isSome →
      context.environment.xlen.effect? line.instruction.name = none)
    (hreads : ∃ line ∈ lines[k]?, ∃ i ∈ line.origin, i.isLabel = false ∧
      ∃ op ∈ i.sources.head?, op.virtual? = some id ∧
        ∃ op' ∈ line.instruction.sources.head?, op'.value = .reg r)
    (hlost : (constantRun context.environment.xlen result debris (lines.take k)).values id ≠
      some ((constantRun context.environment.xlen result debris (lines.take k)).machine.value r)) :
    ¬ KeepsValues context pool code := by
  intro h
  obtain ⟨state', hout⟩ := Lower.result?_eq_some.1 hrun
  obtain ⟨a, spill, woven, _, _, hweaves, hflows⟩ :=
    h Unit (.constant _ result debris) _ _ _ rfl hout
  obtain rfl := hweaves.unique rfl hcode hnames
  obtain ⟨line, hk, i, hi, hlabel, op, hop, hid, op', hop', hr⟩ := hreads
  have hline := (hflows (.zero _)).reads hk hgoes (fun l hl hsome _ =>
    Snapshot.spares_of_memory (Processor.constant_memory (hquiet l hl hsome))) i hi hlabel
  rw [List.eq_cons_of_mem_head? hop, List.eq_cons_of_mem_head? hop', List.forall₂_cons] at hline
  obtain ⟨s, v, hs, _, hv, hvalue⟩ := hline.1 id hid
  obtain rfl := OperandValue.reg.inj (hr.symm.trans hs)
  exact hlost (hv.trans (congrArg some hvalue.symm))

/-- Slots of a narrow processor lose half of a double, and slots are lost with the stack pointer. -/
theorem slots_lose_values :
    (¬ ∀ (context : Context) (specs : List TemplateSpec) (width : Xlen) (pool : RegisterPool)
      (files : Id → RegisterFile) (code : List Instruction),
      Catalog.ofSpecs specs width = .ok context.catalog → (∀ i ∈ code, i.InFiles files) →
      (∀ i ∈ code, ∀ r, i.target? = some r →
        r ≠ .sp ∧ (r ∈ i.clobbers ∨ r ∉ pool.registers r.file)) →
      (∀ i ∈ code, .sp ∉ i.clobbers) → KeepsValues context pool code) ∧
    ¬ ∀ (context : Context) (specs : List TemplateSpec) (width : Xlen) (pool : RegisterPool)
      (files : Id → RegisterFile) (code : List Instruction),
      Catalog.ofSpecs specs width = .ok context.catalog → (∀ i ∈ code, i.InFiles files) →
      (∀ i ∈ code, ∀ r, i.target? = some r →
        r ≠ .sp ∧ (r ∈ i.clobbers ∨ r ∉ pool.registers r.file)) →
      context.environment.xlen = .rv64 → KeepsValues context pool code := by
  constructor
  · intro hall
    have hfiles : ∀ i ∈ doubleCode, i.InFiles fun _ => .fpr := by
      unfold Instruction.InFiles
      decide +kernel
    refine not_keepsValues doubleLines 4 "x" .ft0 (2 ^ 32) 0 ?_ ?_ ?_ ?_ ?_ ?_ ?_
      (hall _ _ _ { gprs := 0, fprs := 0 } _ _ catalog_narrowContext hfiles (by decide +kernel)
        (by decide +kernel))
    all_goals decide +kernel
  · intro hall
    have hfiles : ∀ i ∈ movedCode, i.InFiles fun _ => .gpr := by
      unfold Instruction.InFiles
      decide +kernel
    refine not_keepsValues movedLines 5 "x" .t0 1 64 ?_ ?_ ?_ ?_ ?_ ?_ ?_
      (hall _ _ _ { gprs := 0, fprs := 0 } _ _ catalog_spillContext hfiles (by decide +kernel) rfl)
    all_goals decide +kernel

end PlanLowering
