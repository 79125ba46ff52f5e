import Mathlib.Data.List.Nodup
import PlanLowering.Allocation.Scan
import PlanLowering.Proofs.Choice
import PlanLowering.IdMap

/-!
# Soundness of linear scan

The scan never fails on intervals that come by their start, and two intervals that share a
register do not meet. The invariant is relative to a time `now`, below which no later interval
starts. Whether the scan spills as little as it could is not considered.
-/

namespace PlanLowering

theorem Register.mem_all {r : Register} {file : RegisterFile} :
    r ∈ Register.all file ↔ r.file = file := by
  simp only [Register.all, List.mem_map, List.mem_finRange, true_and]
  constructor
  · rintro ⟨n, rfl⟩; rfl
  · rintro rfl; exact ⟨r.index, rfl⟩

theorem Register.nodup_all (file : RegisterFile) : (Register.all file).Nodup := by
  apply (List.nodup_finRange 32).map
  intro a b h
  exact congrArg Register.index h

namespace RegisterPool

variable {pool : RegisterPool} {file : RegisterFile} {excluded : List Register} {r : Register}

theorem registers_sublist (pool : RegisterPool) (file : RegisterFile) :
    List.Sublist (pool.registers file) file.allocatable := by
  cases file with
  | gpr => exact List.take_sublist _ _
  | fpr => exact List.take_sublist _ _

theorem nodup_registers (pool : RegisterPool) (file : RegisterFile) :
    (pool.registers file).Nodup :=
  (Register.nodup_all file).sublist ((registers_sublist pool file).trans List.filter_sublist)

theorem mem_allocatable (h : r ∈ pool.registers file) : r ∈ file.allocatable :=
  (registers_sublist pool file).subset h

theorem file_of_mem (h : r ∈ pool.registers file) : r.file = file :=
  Register.mem_all.1 (List.mem_filter.1 (mem_allocatable h)).1

theorem mem_candidates :
    r ∈ pool.candidates file excluded ↔ r ∈ pool.registers file ∧ r ∉ excluded := by
  simp [candidates]

end RegisterPool

/-- What the places of an allocation promise about its intervals. -/
structure Allocation.Sound (pool : RegisterPool) (a : Allocation) : Prop where
  placed : ∀ id, id ∈ a.intervals.map LiveInterval.id ↔
    (∃ r, a.registers.get? id = some r) ∨ ∃ n, a.slots.get? id = some n
  apart : ∀ id r n, a.registers.get? id = some r → a.slots.get? id ≠ some n
  candidate : ∀ i ∈ a.intervals, ∀ r, a.registers.get? i.id = some r →
    r ∈ pool.candidates i.file i.excluded
  disjoint : ∀ i ∈ a.intervals, ∀ j ∈ a.intervals, i ≠ j → ∀ r,
    a.registers.get? i.id = some r → a.registers.get? j.id = some r →
    i.finish < j.start ∨ j.finish < i.start
  numbered : ∀ n, (∃ id, a.slots.get? id = some n) ↔ n < a.slots.size
  unshared : ∀ id id' n, a.slots.get? id = some n → a.slots.get? id' = some n → id = id'

theorem Allocation.Sound.located {pool : RegisterPool} {a : Allocation} (h : a.Sound pool) {id : Id}
    (hid : id ∈ a.intervals.map LiveInterval.id) : ∃ location, a.location id = .ok location := by
  unfold Allocation.location
  rcases (h.placed id).1 hid with ⟨r, hr⟩ | ⟨n, hn⟩
  · exact ⟨.register r, by rw [hr]; rfl⟩
  · cases hr : a.registers.get? id with
    | some r => exact ⟨.register r, rfl⟩
    | none => exact ⟨.slot n, by rw [hn]; rfl⟩

namespace Scan

variable {pool : RegisterPool} {done : List LiveInterval} {now : Nat} {scan : Scan}
variable {current : LiveInterval} {r : Register}

/-- The intervals of `done` have their places. The active ones are those that hold a register
and have not ended before `now`. -/
structure Invariant (pool : RegisterPool) (done : List LiveInterval) (now : Nat) (scan : Scan) :
    Prop where
  ids : (done.map LiveInterval.id).Nodup
  active : ∀ i, i ∈ scan.active ↔
    i ∈ done ∧ now ≤ i.finish ∧ ∃ r, scan.registers.get? i.id = some r
  nodup : scan.active.Nodup
  placed : ∀ id, id ∈ done.map LiveInterval.id ↔
    (∃ r, scan.registers.get? id = some r) ∨ ∃ n, scan.slots.get? id = some n
  apart : ∀ id r, scan.registers.get? id = some r → scan.slots.get? id = none
  candidate : ∀ i ∈ done, ∀ r, scan.registers.get? i.id = some r →
    r ∈ pool.candidates i.file i.excluded
  disjoint : ∀ i ∈ done, ∀ j ∈ done, i ≠ j → ∀ r,
    scan.registers.get? i.id = some r → scan.registers.get? j.id = some r →
    i.finish < j.start ∨ j.finish < i.start
  slots : scan.slots.entries.map Prod.snd = List.range scan.slots.size

def Free (scan : Scan) (r : Register) : Prop :=
  ∀ i ∈ scan.active, scan.registers.get? i.id ≠ some r

theorem Invariant.initial (pool : RegisterPool) (now : Nat) : Invariant pool [] now {} where
  ids := List.nodup_nil
  active := by simp
  nodup := List.nodup_nil
  placed := by simp
  apart := by simp
  candidate := by simp
  disjoint := by simp
  slots := rfl

theorem Invariant.eq_of_id (h : Invariant pool done now scan) {i j : LiveInterval}
    (hi : i ∈ done) (hj : j ∈ done) (hid : i.id = j.id) : i = j :=
  List.inj_on_of_nodup_map h.ids hi hj hid

theorem Invariant.unplaced (h : Invariant pool done now scan) {id : Id}
    (hid : id ∉ done.map LiveInterval.id) :
    scan.registers.get? id = none ∧ scan.slots.get? id = none := by
  rw [h.placed, not_or] at hid
  constructor
  · exact Option.eq_none_iff_forall_ne_some.2 fun r hr => hid.1 ⟨r, hr⟩
  · exact Option.eq_none_iff_forall_ne_some.2 fun n hn => hid.2 ⟨n, hn⟩

theorem expire_preserves_invariant {start : Nat} (h : Invariant pool done now scan)
    (hnow : now ≤ start) : Invariant pool done start (scan.expire start) where
  ids := h.ids
  active := by
    intro i
    simp only [expire, List.mem_filter, h.active, decide_eq_true_eq]
    constructor
    · rintro ⟨⟨hdone, _, hr⟩, hstart⟩; exact ⟨hdone, hstart, hr⟩
    · rintro ⟨hdone, hstart, hr⟩; exact ⟨⟨hdone, by omega, hr⟩, hstart⟩
  nodup := h.nodup.filter _
  placed := h.placed
  apart := h.apart
  candidate := h.candidate
  disjoint := h.disjoint
  slots := h.slots

theorem nodup_snoc (h : Invariant pool done now scan)
    (hnew : current.id ∉ done.map LiveInterval.id) :
    ((done ++ [current]).map LiveInterval.id).Nodup := by
  rw [List.map_append, List.nodup_append]
  refine ⟨h.ids, by simp, ?_⟩
  rintro a ha b hb rfl
  rw [List.map_singleton, List.mem_singleton] at hb
  exact hnew (hb ▸ ha)

theorem assign_preserves_invariant (h : Invariant pool done current.start scan)
    (hnew : current.id ∉ done.map LiveInterval.id) (hlive : current.start ≤ current.finish)
    (hcandidate : r ∈ pool.candidates current.file current.excluded) (hfree : scan.Free r) :
    Invariant pool (done ++ [current]) current.start (scan.assign current r) := by
  have hold : ∀ i ∈ done, i.id ≠ current.id := fun i hi he =>
    hnew (List.mem_map.2 ⟨i, hi, he⟩)
  have hfresh : current ∉ done := fun hm => hold current hm rfl
  -- Whoever holds the register has ended, since an active holder would not leave it free.
  have hended : ∀ i ∈ done, scan.registers.get? i.id = some r → i.finish < current.start := by
    intro i hi hr
    by_contra hlate
    exact hfree i ((h.active i).2 ⟨hi, by omega, r, hr⟩) hr
  constructor
  case ids => exact nodup_snoc h hnew
  case active =>
    intro i
    simp only [assign, List.mem_append, List.mem_singleton, h.active, IdMap.get?_insert]
    constructor
    · rintro (⟨hi, hnow, hr⟩ | rfl)
      · exact ⟨.inl hi, hnow, by rwa [if_neg (hold i hi)]⟩
      · exact ⟨.inr rfl, hlive, r, if_pos rfl⟩
    · rintro ⟨hi | rfl, hnow, hr⟩
      · rw [if_neg (hold i hi)] at hr
        exact .inl ⟨hi, hnow, hr⟩
      · exact .inr rfl
  case nodup =>
    refine List.nodup_append.2 ⟨h.nodup, by simp, ?_⟩
    rintro i hi j hj rfl
    rw [List.mem_singleton] at hj
    exact hfresh (hj ▸ ((h.active i).1 hi).1)
  case placed =>
    intro id
    simp only [assign, List.map_append, List.mem_append, h.placed, List.map_singleton,
      List.mem_singleton, IdMap.get?_insert]
    by_cases hid : id = current.id <;> simp [hid]
  case apart =>
    intro id s hs
    simp only [assign, IdMap.get?_insert] at hs ⊢
    by_cases hid : id = current.id
    · rw [hid]
      exact (h.unplaced hnew).2
    · rw [if_neg hid] at hs
      exact h.apart id s hs
  case candidate =>
    intro i hi s hs
    simp only [assign, IdMap.get?_insert] at hs
    rcases List.mem_append.1 hi with hi | hi
    · rw [if_neg (hold i hi)] at hs
      exact h.candidate i hi s hs
    · rw [List.mem_singleton] at hi
      subst hi
      rw [if_pos rfl, Option.some.injEq] at hs
      exact hs ▸ hcandidate
  case disjoint =>
    intro i hi j hj hne s hs ht
    simp only [assign, IdMap.get?_insert] at hs ht
    rw [List.mem_append, List.mem_singleton] at hi hj
    rcases hi with hi | rfl <;> rcases hj with hj | rfl
    · rw [if_neg (hold i hi)] at hs
      rw [if_neg (hold j hj)] at ht
      exact h.disjoint i hi j hj hne s hs ht
    · rw [if_neg (hold i hi)] at hs
      rw [if_pos rfl, Option.some.injEq] at ht
      subst ht
      exact .inl (hended i hi hs)
    · rw [if_neg (hold j hj)] at ht
      rw [if_pos rfl, Option.some.injEq] at hs
      subst hs
      exact .inr (hended j hj ht)
    · exact absurd rfl hne
  case slots => exact h.slots

theorem slots_insert {slots : IdMap Nat} {id : Id} (hid : slots.get? id = none)
    (h : slots.entries.map Prod.snd = List.range slots.size) :
    (slots.insert id slots.size).entries.map Prod.snd =
      List.range (slots.insert id slots.size).size := by
  rw [IdMap.entries_insert hid, IdMap.size_insert hid, List.map_append, h, List.range_succ]
  rfl

theorem toStack_preserves_invariant (h : Invariant pool done now scan)
    (hnew : current.id ∉ done.map LiveInterval.id) :
    Invariant pool (done ++ [current]) now (scan.toStack current.id) := by
  obtain ⟨hregister, hslot⟩ := h.unplaced hnew
  constructor
  case ids => exact nodup_snoc h hnew
  case active =>
    intro i
    simp only [toStack, List.mem_append, List.mem_singleton, h.active]
    constructor
    · rintro ⟨hi, hrest⟩; exact ⟨.inl hi, hrest⟩
    · rintro ⟨hi | rfl, hnow, s, hs⟩
      · exact ⟨hi, hnow, s, hs⟩
      · rw [hregister] at hs; cases hs
  case nodup => exact h.nodup
  case placed =>
    intro id
    simp only [toStack, List.map_append, List.mem_append, h.placed, List.map_singleton,
      List.mem_singleton, IdMap.get?_insert]
    by_cases hid : id = current.id <;> simp [hid]
  case apart =>
    intro id s hs
    simp only [toStack, IdMap.get?_insert] at hs ⊢
    by_cases hid : id = current.id
    · rw [hid, hregister] at hs; cases hs
    · rw [if_neg hid]
      exact h.apart id s hs
  case candidate =>
    intro i hi s hs
    rcases List.mem_append.1 hi with hi | hi
    · exact h.candidate i hi s hs
    · rw [List.mem_singleton.1 hi, toStack, hregister] at hs; cases hs
  case disjoint =>
    intro i hi j hj hne s hs ht
    rcases List.mem_append.1 hi with hi | hi
    · rcases List.mem_append.1 hj with hj | hj
      · exact h.disjoint i hi j hj hne s hs ht
      · rw [List.mem_singleton.1 hj, toStack, hregister] at ht; cases ht
    · rw [List.mem_singleton.1 hi, toStack, hregister] at hs; cases hs
  case slots => exact slots_insert hslot h.slots

def evict (scan : Scan) (victim : LiveInterval) (position : Nat) : Scan :=
  toStack { scan with
    active := scan.active.eraseIdx position
    registers := scan.registers.erase victim.id } victim.id

theorem evict_preserves_invariant {victim : LiveInterval} {position : Nat}
    (h : Invariant pool done now scan) (hvictim : scan.active[position]? = some victim) :
    Invariant pool done now (scan.evict victim position) := by
  obtain ⟨hdone, hlive, r, hr⟩ := (h.active victim).1 (List.mem_of_getElem? hvictim)
  have hslot := h.apart victim.id r hr
  have hsub : ∀ id s, (scan.registers.erase victim.id).get? id = some s →
      id ≠ victim.id ∧ scan.registers.get? id = some s := by
    intro id s hs
    by_cases hid : id = victim.id <;> simp_all
  constructor
  case ids => exact h.ids
  case active =>
    intro i
    have herase : i ∈ scan.active.eraseIdx position ↔ i ∈ scan.active ∧ i ≠ victim := by
      rw [List.mem_eraseIdx_iff_getElem?]
      constructor
      · rintro ⟨k, hk, hi⟩
        refine ⟨List.mem_of_getElem? hi, ?_⟩
        rintro rfl
        exact hk ((List.getElem?_inj (List.getElem?_eq_some_iff.1 hi).1 h.nodup).1
          (hi.trans hvictim.symm))
      · rintro ⟨hi, hne⟩
        obtain ⟨k, hk⟩ := List.getElem?_of_mem hi
        refine ⟨k, ?_, hk⟩
        rintro rfl
        rw [hvictim, Option.some.injEq] at hk
        exact hne hk.symm
    simp only [evict, toStack, herase, h.active, IdMap.get?_erase]
    constructor
    · rintro ⟨⟨hi, hnow, hs⟩, hne⟩
      rw [if_neg fun he => hne (h.eq_of_id hi hdone he)]
      exact ⟨hi, hnow, hs⟩
    · rintro ⟨hi, hnow, s, hs⟩
      obtain ⟨hne, hs⟩ := hsub i.id s (by simpa using hs)
      exact ⟨⟨hi, hnow, s, hs⟩, fun he => hne (he ▸ rfl)⟩
  case nodup => exact h.nodup.eraseIdx _
  case placed =>
    intro id
    rw [h.placed]
    by_cases hid : id = victim.id
    · subst hid
      simp [evict, toStack, hr]
    · simp [evict, toStack, hid]
  case apart =>
    intro id s hs
    obtain ⟨hne, hs⟩ := hsub id s hs
    simpa [evict, toStack, hne] using h.apart id s hs
  case candidate => exact fun i hi s hs => h.candidate i hi s (hsub i.id s hs).2
  case disjoint =>
    exact fun i hi j hj hne s hs ht =>
      h.disjoint i hi j hj hne s (hsub i.id s hs).2 (hsub j.id s ht).2
  case slots => exact slots_insert hslot h.slots

theorem evict_frees {victim : LiveInterval} {position : Nat}
    (h : Invariant pool done now scan) (hstarted : ∀ i ∈ done, i.start ≤ now)
    (hvictim : scan.active[position]? = some victim)
    (hr : scan.registers.get? victim.id = some r) : (scan.evict victim position).Free r := by
  have hafter := evict_preserves_invariant h hvictim
  intro i hi hs
  have hne : i.id ≠ victim.id := by
    intro he
    simp [evict, toStack, he] at hs
  have hs : scan.registers.get? i.id = some r := by
    simpa [evict, toStack, hne] using hs
  obtain ⟨hdone, hlive, _⟩ := (hafter.active i).1 hi
  obtain ⟨hvdone, hvlive, _⟩ := (h.active victim).1 (List.mem_of_getElem? hvictim)
  have hstart := hstarted i hdone
  have hvstart := hstarted victim hvdone
  rcases h.disjoint i hdone victim hvdone (fun he => hne (he ▸ rfl)) r hs hr with hlt | hlt
  · omega
  · omega

def Eligible (scan : Scan) (pool : RegisterPool) (current : LiveInterval)
    (v : LiveInterval × Nat) : Prop :=
  scan.active[v.2]? = some v.1 ∧ (scan.usable? pool current v.1).isSome

theorem victim_eligible {v : LiveInterval × Nat} (h : scan.victim? pool current = some v) :
    scan.Eligible pool current v := by
  -- The best one so far is always one of the others, so it is enough that all of them qualify.
  revert v
  unfold victim?
  apply List.foldlRecOn (motive := fun best => ∀ v, best = some v → scan.Eligible pool current v)
  · intro v hv; cases hv
  · intro best hbest other hmem v hv
    have hother : scan.Eligible pool current other := by
      rw [List.mem_filter] at hmem
      exact ⟨List.mem_zipIdx_iff_getElem?.1 hmem.1, hmem.2⟩
    cases best with
    | none => cases hv; exact hother
    | some w =>
      dsimp only at hv
      split at hv
      · exact hbest v hv
      · cases hv; exact hother

theorem spill_preserves_invariant (h : Invariant pool done current.start scan)
    (hstarted : ∀ i ∈ done, i.start ≤ current.start)
    (hnew : current.id ∉ done.map LiveInterval.id) (hlive : current.start ≤ current.finish) :
    Invariant pool (done ++ [current]) current.start (scan.spill pool current) := by
  have hstack := toStack_preserves_invariant h hnew
  unfold spill
  cases hvictim : scan.victim? pool current with
  | none => exact hstack
  | some found =>
    obtain ⟨victim, position⟩ := found
    obtain ⟨hactive, husable⟩ := victim_eligible hvictim
    dsimp only
    split
    · exact hstack
    · cases hr : scan.registers.get? victim.id with
      | none => exact hstack
      | some r =>
        have hcandidate : r ∈ pool.candidates current.file current.excluded := by
          unfold usable? at husable
          split at husable
          · simpa [hr, Option.filter] using husable
          · cases husable
        exact assign_preserves_invariant (evict_preserves_invariant h hactive) hnew hlive
          hcandidate (evict_frees h hstarted hactive hr)

/-- Active intervals of a file hold registers of that file, so fewer of them than candidates
leave a candidate free. -/
theorem candidate_left
    (hheld : ∀ i ∈ scan.active, ∀ r, scan.registers.get? i.id = some r → r.file = i.file)
    (hfewer : (scan.active.filter (·.file = current.file)).length <
      (pool.candidates current.file current.excluded).length) :
    (pool.candidates current.file current.excluded).filter
      (· ∉ scan.active.filterMap fun i => scan.registers.get? i.id) ≠ [] := by
  intro hnone
  have htaken : pool.candidates current.file current.excluded ⊆
      (scan.active.filter (·.file = current.file)).filterMap
        fun i => scan.registers.get? i.id := by
    intro r hr
    have hin : r ∈ scan.active.filterMap fun i => scan.registers.get? i.id := by
      by_contra hout
      have hleft : r ∈ ([] : List Register) := by
        rw [← hnone]
        exact List.mem_filter.2 ⟨hr, by simpa using hout⟩
      cases hleft
    obtain ⟨i, hi, hs⟩ := List.mem_filterMap.1 hin
    have hcurrent := RegisterPool.mem_candidates.1 hr
    refine List.mem_filterMap.2 ⟨i, List.mem_filter.2 ⟨hi, ?_⟩, hs⟩
    exact decide_eq_true ((hheld i hi r hs).symm.trans (RegisterPool.file_of_mem hcurrent.1))
  have hnodup : (pool.candidates current.file current.excluded).Nodup :=
    (RegisterPool.nodup_registers pool current.file).filter _
  have hle := Nat.le_trans (hnodup.length_le_of_subset htaken) (List.length_filterMap_le _ _)
  omega

theorem Invariant.file_held (h : Invariant pool done now scan) :
    ∀ i ∈ scan.active, ∀ r, scan.registers.get? i.id = some r → r.file = i.file := by
  intro i hi r hr
  have hcandidate := h.candidate i ((h.active i).1 hi).1 r hr
  exact RegisterPool.file_of_mem (RegisterPool.mem_candidates.1 hcandidate).1

theorem step_preserves_invariant (h : Invariant pool done now scan) (hnow : now ≤ current.start)
    (hstarted : ∀ i ∈ done, i.start ≤ current.start)
    (hnew : current.id ∉ done.map LiveInterval.id) (hlive : current.start ≤ current.finish)
    (source : RandomSource) : ∃ scan' source', step pool scan current source = .ok scan' source' ∧
      Invariant pool (done ++ [current]) current.start scan' := by
  have hexpired := expire_preserves_invariant h hnow
  by_cases hfull : (pool.candidates current.file current.excluded).length ≤
      ((scan.expire current.start).active.filter (·.file = current.file)).length
  · refine ⟨(scan.expire current.start).spill pool current, source, ?_,
      spill_preserves_invariant hexpired hstarted hnew hlive⟩
    simp [step, hfull]
  · obtain ⟨r, hr, source', hchoice⟩ :=
      Draw.choice_ok (candidate_left hexpired.file_held (Nat.lt_of_not_le hfull)) source
    obtain ⟨hcandidate, hfree⟩ := List.mem_filter.1 hr
    refine ⟨(scan.expire current.start).assign current r, source', ?_,
      assign_preserves_invariant hexpired hnew hlive hcandidate ?_⟩
    · simp only [step, if_neg hfull, Draw.bind_ok]
      exact ⟨some r, source', hchoice, by simp⟩
    · intro i hi hs
      apply of_decide_eq_true hfree
      exact List.mem_filterMap.2 ⟨i, hi, hs⟩

structure Ready (intervals : List LiveInterval) : Prop where
  ids : (intervals.map LiveInterval.id).Nodup
  live : ∀ i ∈ intervals, i.start ≤ i.finish
  sorted : intervals.Pairwise (·.start ≤ ·.start)

theorem steps_preserve_invariant {rest : List LiveInterval} (h : Invariant pool done now scan)
    (hready : Ready (done ++ rest)) (hnow : ∀ i ∈ rest, now ≤ i.start) (source : RandomSource) :
    ∃ scan' source' now', rest.foldlM (step pool) scan source = .ok scan' source' ∧
      Invariant pool (done ++ rest) now' scan' := by
  induction rest generalizing done now scan source with
  | nil => exact ⟨scan, source, now, rfl, by simpa using h⟩
  | cons current rest ih =>
    obtain ⟨_, hrest, hsorted⟩ := List.pairwise_append.1 hready.sorted
    have hids := hready.ids
    rw [List.map_append, List.map_cons, List.nodup_append] at hids
    have hnew : current.id ∉ done.map LiveInterval.id := fun hm =>
      hids.2.2 _ hm _ List.mem_cons_self rfl
    obtain ⟨next, source', hstep, hnext⟩ := step_preserves_invariant h
      (hnow current List.mem_cons_self) (fun i hi => hsorted i hi current List.mem_cons_self)
      hnew (hready.live current (by simp)) source
    obtain ⟨scan', source'', now', hfold, hscan⟩ := ih hnext (by simpa using hready)
      (List.pairwise_cons.1 hrest).1 source'
    refine ⟨scan', source'', now', ?_, by simpa using hscan⟩
    rw [List.foldlM_cons, Draw.bind_ok]
    exact ⟨next, source', hstep, hfold⟩

theorem Invariant.sound {intervals : List LiveInterval} (h : Invariant pool intervals now scan) :
    Allocation.Sound pool
      { intervals, registers := scan.registers, slots := scan.slots } where
  placed := h.placed
  apart := by
    intro id r n hr
    rw [h.apart id r hr]
    simp
  candidate := h.candidate
  disjoint := h.disjoint
  numbered := by
    intro n
    rw [← List.mem_range, ← h.slots, List.mem_map]
    constructor
    · rintro ⟨id, hid⟩; exact ⟨_, IdMap.mem_entries.2 hid, rfl⟩
    · rintro ⟨⟨id, m⟩, hid, rfl⟩; exact ⟨id, IdMap.mem_entries.1 hid⟩
  unshared := by
    intro id id' n hid hid'
    have hnodup : (scan.slots.entries.map Prod.snd).Nodup := h.slots ▸ List.nodup_range
    exact congrArg Prod.fst (List.inj_on_of_nodup_map hnodup
      (IdMap.mem_entries.2 hid) (IdMap.mem_entries.2 hid') rfl)

/-- A scan of intervals that come by their start ends with a sound allocation. -/
theorem run_ready (pool : RegisterPool) {intervals : List LiveInterval}
    (hready : Ready intervals) (source : RandomSource) :
    ∃ a source', run pool intervals source = .ok a source' ∧
      a.intervals = intervals ∧ a.Sound pool := by
  obtain ⟨scan, source', now, hfold, hscan⟩ := steps_preserve_invariant
    (Invariant.initial pool 0) (by simpa using hready) (fun i _ => Nat.zero_le i.start) source
  refine ⟨_, source', ?_, rfl, hscan.sound⟩
  simp only [run, Draw.bind_ok]
  exact ⟨scan, source', hfold, rfl⟩

theorem sound_of_run {intervals : List LiveInterval} {source source' : RandomSource}
    {a : Allocation} (hready : Ready intervals) (h : run pool intervals source = .ok a source') :
    a.intervals = intervals ∧ a.Sound pool := by
  obtain ⟨b, source'', hb, hintervals, hsound⟩ := run_ready pool hready source
  rw [h] at hb
  cases hb
  exact ⟨hintervals, hsound⟩

/-- The scan returns whatever the source, and what it returns is sound. -/
theorem run_sound {intervals : List LiveInterval} {source : RandomSource}
    (hids : (intervals.map LiveInterval.id).Nodup) (hlive : ∀ i ∈ intervals, i.start ≤ i.finish)
    (hsorted : intervals.Pairwise (·.start ≤ ·.start)) :
    ∃ a source', run pool intervals source = .ok a source' ∧
      a.intervals = intervals ∧ a.Sound pool := by
  obtain ⟨scan, source', now, hfold, hscan⟩ := steps_preserve_invariant
    (Invariant.initial pool 0) ⟨by simpa using hids, by simpa using hlive, by simpa using hsorted⟩
    (fun i _ => Nat.zero_le i.start) source
  refine ⟨_, source', ?_, rfl, hscan.sound⟩
  simp only [run, Draw.bind_ok]
  exact ⟨scan, source', hfold, rfl⟩

/-- Three values that compete for one register, which one of them is kept from. -/
def crowded : List LiveInterval :=
  [{ id := "long", file := .gpr, start := 0, finish := 9 },
   { id := "short", file := .gpr, start := 1, finish := 2 },
   { id := "barred", file := .gpr, start := 4, finish := 5, excluded := [.t1] }]

theorem run_crowded_sound : ∃ a source',
    run { gprs := 1 } crowded (.ofSeed 0) = .ok a source' ∧
      a.intervals = crowded ∧ a.Sound { gprs := 1 } :=
  run_sound (by decide) (by decide) (by decide)

end Scan
end PlanLowering
