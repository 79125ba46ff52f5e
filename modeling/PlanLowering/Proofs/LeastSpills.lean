import Mathlib.Data.Finset.Card
import Mathlib.Order.Bounds.Defs
import PlanLowering.Proofs.Scan

/-!
# The scan spills as little as it can

Where no interval has registers to shun, no choice of registers keeps more values of a file in
registers than the scan does. The argument is an exchange: of the values that compete for the
registers of a file at one time, the one that lives longest gives way, and a choice that keeps it
can keep one of the others in its place. Which registers the scan draws is not considered.
-/

namespace PlanLowering

namespace LiveInterval

def LivesAt (i : LiveInterval) (time : Nat) : Prop := i.start ≤ time ∧ time ≤ i.finish

instance (i : LiveInterval) (time : Nat) : Decidable (i.LivesAt time) :=
  inferInstanceAs (Decidable (_ ∧ _))

def Fit (capacity : Nat) (kept : Finset LiveInterval) : Prop :=
  ∀ time, (kept.filter fun i => i.LivesAt time).card ≤ capacity

variable {capacity now : Nat} {kept other : Finset LiveInterval} {longest u : LiveInterval}

theorem Fit.mono (h : Fit capacity kept) (hsub : other ⊆ kept) : Fit capacity other := fun time =>
  Nat.le_trans (Finset.card_le_card (Finset.filter_subset_filter _ hsub)) (h time)

/-- One value takes the place of another that lives longer. Before `now` nothing is alive but
what is `kept`, and from then on the new one leaves no later than the old one would. -/
theorem Fit.exchange (hfit : Fit capacity other) (hkept : Fit capacity kept)
    (hpast : ∀ i ∈ insert u other, i.start < now → i ∈ kept)
    (hin : longest ∈ other) (hnow : longest.start ≤ now) (hends : u.finish ≤ longest.finish) :
    Fit capacity (insert u (other.erase longest)) := by
  intro time
  by_cases htime : time < now
  · refine Nat.le_trans (Finset.card_le_card ?_) (hkept time)
    intro i hi
    rw [Finset.mem_filter] at hi ⊢
    have hstart := hi.2.1
    exact ⟨hpast i (Finset.insert_subset_insert _ (Finset.erase_subset _ _) hi.1) (by omega), hi.2⟩
  · rw [Finset.filter_insert]
    split
    · next hu =>
      have hlongest : longest ∈ other.filter fun i => i.LivesAt time := by
        have hfinish := hu.2
        exact Finset.mem_filter.2 ⟨hin, by omega, by omega⟩
      calc (insert u ((other.erase longest).filter fun i => i.LivesAt time)).card
          ≤ ((other.erase longest).filter fun i => i.LivesAt time).card + 1 :=
            Finset.card_insert_le _ _
        _ = (other.filter fun i => i.LivesAt time).card := by
            rw [Finset.filter_erase, Finset.card_erase_add_one hlongest]
        _ ≤ capacity := hfit time
    · exact hfit.mono (Finset.erase_subset _ _) time

end LiveInterval

namespace Scan

variable {pool : RegisterPool} {file : RegisterFile} {intervals done rest : List LiveInterval}
variable {choice : LiveInterval → Option Register} {scan scan' : Scan} {current : LiveInterval}
variable {now : Nat} {r : Register} {source source' : RandomSource}

/-- Registers of the pool for some of the values of a file, a register of its own for each of two
values whose intervals meet. -/
structure Serves (pool : RegisterPool) (file : RegisterFile) (intervals : List LiveInterval)
    (choice : LiveInterval → Option Register) : Prop where
  pooled : ∀ i ∈ intervals, i.file = file → ∀ r, choice i = some r → r ∈ pool.registers file
  apart : ∀ i ∈ intervals, ∀ j ∈ intervals, i.file = file → j.file = file → i ≠ j → ∀ r,
    choice i = some r → choice j = some r → i.finish < j.start ∨ j.finish < i.start

/-- The values of a file that a choice gives no register. -/
def unserved (file : RegisterFile) (intervals : List LiveInterval)
    (choice : LiveInterval → Option Register) : List LiveInterval :=
  intervals.filter fun i => i.file = file ∧ choice i = none

def ofFile (file : RegisterFile) (intervals : List LiveInterval) : Finset LiveInterval :=
  (intervals.filter fun i => i.file = file).toFinset

def served (file : RegisterFile) (intervals : List LiveInterval)
    (choice : LiveInterval → Option Register) : Finset LiveInterval :=
  (ofFile file intervals).filter fun i => (choice i).isSome

@[simp] theorem mem_ofFile {i : LiveInterval} :
    i ∈ ofFile file intervals ↔ i ∈ intervals ∧ i.file = file := by
  simp [ofFile]

@[simp] theorem mem_served {i : LiveInterval} :
    i ∈ served file intervals choice ↔
      (i ∈ intervals ∧ i.file = file) ∧ (choice i).isSome := by
  simp [served]

theorem served_card (file : RegisterFile) (h : intervals.Nodup)
    (choice : LiveInterval → Option Register) :
    (served file intervals choice).card + (unserved file intervals choice).length =
      (ofFile file intervals).card := by
  have hunserved : (unserved file intervals choice).length =
      ((ofFile file intervals).filter fun i => ¬ (choice i).isSome).card := by
    rw [unserved, ← List.toFinset_card_of_nodup (h.filter _)]
    congr 1
    ext i
    simp [and_assoc]
  rw [hunserved]
  exact Finset.card_filter_add_card_filter_not _

/-- Values that are alive at one time hold different registers. -/
theorem Serves.fit (h : Serves pool file intervals choice) :
    LiveInterval.Fit (pool.registers file).length (served file intervals choice) := by
  intro time
  have hmaps : Set.MapsTo choice
      ((served file intervals choice).filter fun i => i.LivesAt time)
      ((pool.registers file).map some).toFinset := by
    intro i hi
    rw [Finset.mem_coe, Finset.mem_filter, mem_served] at hi
    obtain ⟨⟨⟨hi, hfile⟩, hsome⟩, _⟩ := hi
    obtain ⟨r, hr⟩ := Option.isSome_iff_exists.1 hsome
    simpa [hr] using h.pooled i hi hfile r hr
  have hinj : Set.InjOn choice
      ((served file intervals choice).filter fun i => i.LivesAt time) := by
    intro i hi j hj hsame
    rw [Finset.mem_coe, Finset.mem_filter, mem_served] at hi hj
    obtain ⟨⟨⟨hi, hifile⟩, hsome⟩, histart, hifinish⟩ := hi
    obtain ⟨⟨⟨hj, hjfile⟩, _⟩, hjstart, hjfinish⟩ := hj
    obtain ⟨r, hr⟩ := Option.isSome_iff_exists.1 hsome
    by_contra hne
    have happart := h.apart i hi j hj hifile hjfile hne r hr (hsame ▸ hr)
    omega
  calc _ ≤ ((pool.registers file).map some).toFinset.card :=
        Finset.card_le_card_of_injOn choice hmaps hinj
    _ ≤ (pool.registers file).length := by
        simpa using List.toFinset_card_le ((pool.registers file).map some)

theorem serves_of_sound {a : Allocation} (h : a.Sound pool) (file : RegisterFile) :
    Serves pool file a.intervals fun i => a.registers.get? i.id where
  pooled := by
    intro i hi hfile r hr
    exact hfile ▸ (RegisterPool.mem_candidates.1 (h.candidate i hi r hr)).1
  apart := fun i hi j hj _ _ hne r hr hs => h.disjoint i hi j hj hne r hr hs

/-- The better victim so far: of two that end together the second. -/
def later (best : Option (LiveInterval × Nat)) (other : LiveInterval × Nat) :
    Option (LiveInterval × Nat) :=
  match best with
  | some v => if other.1.finish < v.1.finish then some v else some other
  | none => some other

theorem victim?_eq : scan.victim? pool current =
    (scan.active.zipIdx.filter fun other => (scan.usable? pool current other.1).isSome).foldl
      later none := rfl

theorem exists_later (best : Option (LiveInterval × Nat)) (o : LiveInterval × Nat) :
    ∃ v, later best o = some v ∧ o.1.finish ≤ v.1.finish ∧
      ∀ b, best = some b → b.1.finish ≤ v.1.finish := by
  cases best with
  | none => exact ⟨o, rfl, Nat.le_refl _, by simp⟩
  | some b =>
    by_cases h : o.1.finish < b.1.finish
    · exact ⟨b, if_pos h, Nat.le_of_lt h, by simp⟩
    · exact ⟨o, if_neg h, Nat.le_refl _, by simpa using h⟩

theorem foldl_later {seen : List (LiveInterval × Nat)} {best : Option (LiveInterval × Nat)}
    {o : LiveInterval × Nat} (ho : o ∈ seen ∨ best = some o) :
    ∃ v, seen.foldl later best = some v ∧ o.1.finish ≤ v.1.finish := by
  induction seen generalizing best o with
  | nil => exact ⟨o, by simpa using ho, Nat.le_refl _⟩
  | cons first seen ih =>
    obtain ⟨w, hw, hfirst, hbest⟩ := exists_later best first
    have hkept : ∃ v, seen.foldl later (later best first) = some v ∧ w.1.finish ≤ v.1.finish :=
      ih (.inr hw)
    rw [List.mem_cons] at ho
    rcases ho with (rfl | ho) | ho
    · obtain ⟨v, hv, hle⟩ := hkept
      exact ⟨v, hv, Nat.le_trans hfirst hle⟩
    · exact ih (.inl ho)
    · obtain ⟨v, hv, hle⟩ := hkept
      exact ⟨v, hv, Nat.le_trans (hbest o ho) hle⟩

/-- Where an active interval could give its register up, there is a victim, and it lives as long
as that one. -/
theorem victim_longest {other : LiveInterval} (hactive : other ∈ scan.active)
    (husable : (scan.usable? pool current other).isSome) :
    ∃ v, scan.victim? pool current = some v ∧ other.finish ≤ v.1.finish := by
  obtain ⟨position, hposition⟩ := List.getElem?_of_mem hactive
  have hmem : (other, position) ∈ scan.active.zipIdx.filter
      fun other => (scan.usable? pool current other.1).isSome :=
    List.mem_filter.2 ⟨List.mem_zipIdx_iff_getElem?.2 hposition, husable⟩
  rw [victim?_eq]
  exact foldl_later (.inl hmem)

/-- A register of the pool serves any interval of its file that shuns none. -/
theorem usable_of_held {other : LiveInterval} (hclean : current.excluded = [])
    (hfile : other.file = current.file) (hr : scan.registers.get? other.id = some r)
    (hpool : r ∈ pool.registers other.file) : (scan.usable? pool current other).isSome := by
  have hcandidate : r ∈ pool.candidates current.file current.excluded := by
    rw [RegisterPool.mem_candidates, hclean]
    exact ⟨hfile ▸ hpool, List.not_mem_nil⟩
  simp [usable?, hfile, hr, Option.filter, hcandidate]

theorem usable_of_active (h : Invariant pool done now scan) (hclean : current.excluded = [])
    {other : LiveInterval} (hactive : other ∈ scan.active) (hfile : other.file = current.file) :
    (scan.usable? pool current other).isSome := by
  obtain ⟨hdone, _, r, hr⟩ := (h.active other).1 hactive
  exact usable_of_held hclean hfile hr
    (RegisterPool.mem_candidates.1 (h.candidate other hdone r hr)).1

theorem file_of_usable {other : LiveInterval} (h : (scan.usable? pool current other).isSome) :
    other.file = current.file := by
  unfold usable? at h
  split at h
  · assumption
  · cases h

def Competes (scan : Scan) (current i : LiveInterval) : Prop :=
  i = current ∨ i ∈ scan.active ∧ i.file = current.file

/-- Where no register is free, the longest of those that compete gives way and no other. -/
theorem spill_yields (h : Invariant pool done current.start scan)
    (hnew : current.id ∉ done.map LiveInterval.id) (hclean : current.excluded = []) :
    ∃ longest, scan.Competes current longest ∧
      (∀ i, scan.Competes current i → i.finish ≤ longest.finish) ∧
      ∀ i ∈ done ++ [current], i ≠ longest →
        (i = current ∨ (scan.registers.get? i.id).isSome) →
        ((scan.spill pool current).registers.get? i.id).isSome := by
  have husable : ∀ {i}, i ∈ scan.active → i.file = current.file →
      (scan.usable? pool current i).isSome := usable_of_active h hclean
  have hstay : (∀ i, scan.Competes current i → i.finish ≤ current.finish) →
      scan.spill pool current = scan.toStack current.id →
      ∃ longest, scan.Competes current longest ∧
        (∀ i, scan.Competes current i → i.finish ≤ longest.finish) ∧
        ∀ i ∈ done ++ [current], i ≠ longest →
          (i = current ∨ (scan.registers.get? i.id).isSome) →
          ((scan.spill pool current).registers.get? i.id).isSome := by
    intro hends hspill
    refine ⟨current, .inl rfl, hends, fun i _ hne hi => ?_⟩
    rw [hspill]
    exact hi.resolve_left hne
  cases hvictim : scan.victim? pool current with
  | none =>
    apply hstay
    · rintro i (rfl | ⟨hi, hfile⟩)
      · exact Nat.le_refl _
      · obtain ⟨v, hv, _⟩ := victim_longest hi (husable hi hfile)
        rw [hvictim] at hv
        cases hv
    · rw [spill, hvictim]
  | some found =>
    obtain ⟨victim, position⟩ := found
    obtain ⟨hposition, hvusable⟩ := victim_eligible hvictim
    have hactive := List.mem_of_getElem? hposition
    have hlongest : ∀ i ∈ scan.active, i.file = current.file → i.finish ≤ victim.finish := by
      intro i hi hfile
      obtain ⟨v, hv, hle⟩ := victim_longest hi (husable hi hfile)
      rw [hvictim, Option.some.injEq] at hv
      subst hv
      exact hle
    by_cases hends : victim.finish < current.finish
    · apply hstay
      · rintro i (rfl | ⟨hi, hfile⟩)
        · exact Nat.le_refl _
        · exact Nat.le_trans (hlongest i hi hfile) (Nat.le_of_lt hends)
      · simp [spill, hvictim, hends]
    · obtain ⟨hvdone, _, r, hr⟩ := (h.active victim).1 hactive
      refine ⟨victim, .inr ⟨hactive, file_of_usable hvusable⟩, ?_, ?_⟩
      · rintro i (rfl | ⟨hi, hfile⟩)
        · omega
        · exact hlongest i hi hfile
      · intro i hi hne hheld
        have hspill : (scan.spill pool current).registers =
            (scan.registers.erase victim.id).insert current.id r := by
          simp [spill, hvictim, hends, hr, assign, toStack]
        rw [hspill, IdMap.get?_insert]
        split
        · rfl
        · next hid =>
          have hcurrent : i ≠ current := fun he => hid (he ▸ rfl)
          have hidone : i ∈ done := by simpa [hcurrent] using hi
          have hvictimid : i.id ≠ victim.id := fun he => hne (h.eq_of_id hidone hvdone he)
          simpa [hvictimid] using hheld.resolve_left hcurrent

/-- Whatever values of a file can have registers, as many can have them that the scan has not
taken any from yet. -/
def Ahead (pool : RegisterPool) (file : RegisterFile) (intervals done : List LiveInterval)
    (scan : Scan) : Prop :=
  ∀ other ⊆ ofFile file intervals, LiveInterval.Fit (pool.registers file).length other →
    ∃ better ⊆ ofFile file intervals, LiveInterval.Fit (pool.registers file).length better ∧
      better.card = other.card ∧ ∀ i ∈ better, i ∈ done → (scan.registers.get? i.id).isSome

theorem Ahead.initial (pool : RegisterPool) (file : RegisterFile)
    (intervals : List LiveInterval) : Ahead pool file intervals [] {} := fun other hsub hfit =>
  ⟨other, hsub, hfit, rfl, by simp⟩

theorem assign_preserves_ahead (h : Ahead pool file intervals done scan) :
    Ahead pool file intervals (done ++ [current]) (scan.assign current r) := by
  intro other hsub hfit
  obtain ⟨better, hbsub, hbfit, hcard, hheld⟩ := h other hsub hfit
  refine ⟨better, hbsub, hbfit, hcard, fun i hi hdone => ?_⟩
  rw [assign, IdMap.get?_insert]
  split
  · rfl
  · next hid =>
    have hcurrent : i ≠ current := fun he => hid (he ▸ rfl)
    exact hheld i hi (by simpa [hcurrent] using hdone)

variable {i : LiveInterval} {better : Finset LiveInterval}

theorem Competes.sameFile (h : scan.Competes current i) : i.file = current.file := by
  rcases h with rfl | ⟨_, hfile⟩
  · rfl
  · exact hfile

theorem Competes.placed (h : scan.Competes current i)
    (hinv : Invariant pool done current.start scan) :
    i ∈ done ++ [current] ∧ (i = current ∨ (scan.registers.get? i.id).isSome) := by
  rcases h with rfl | ⟨hi, _⟩
  · exact ⟨by simp, .inl rfl⟩
  · obtain ⟨hdone, _, r, hr⟩ := (hinv.active i).1 hi
    exact ⟨List.mem_append_left _ hdone, .inr (by simp [hr])⟩

theorem Competes.livesAt (h : scan.Competes current i)
    (hinv : Invariant pool done current.start scan) (hready : Ready (done ++ current :: rest)) :
    i.LivesAt current.start := by
  rcases h with rfl | ⟨hi, _⟩
  · exact ⟨Nat.le_refl _, hready.live i (by simp)⟩
  · obtain ⟨hdone, hfinish, _⟩ := (hinv.active i).1 hi
    obtain ⟨_, _, hsorted⟩ := List.pairwise_append.1 hready.sorted
    exact ⟨hsorted i hdone current List.mem_cons_self, hfinish⟩

theorem Ready.new (h : Ready (done ++ current :: rest)) :
    current.id ∉ done.map LiveInterval.id := by
  have hids := h.ids
  rw [List.map_append, List.map_cons, List.nodup_append] at hids
  exact fun hm => hids.2.2 _ hm _ List.mem_cons_self rfl

theorem Ready.visited (h : Ready (done ++ current :: rest)) (hi : i ∈ done ++ current :: rest)
    (hstart : i.start < current.start) : i ∈ done := by
  obtain ⟨_, hsorted, _⟩ := List.pairwise_append.1 h.sorted
  rcases List.mem_append.1 hi with hdone | hlate
  · exact hdone
  · rcases List.mem_cons.1 hlate with rfl | hlate
    · exact absurd hstart (Nat.lt_irrefl _)
    · have hle := (List.pairwise_cons.1 hsorted).1 i hlate
      omega

/-- Where no register is free, more values compete than any choice can keep. -/
theorem exists_left_out (hinv : Invariant pool done current.start scan)
    (hready : Ready (done ++ current :: rest))
    (hfull : (pool.registers current.file).length ≤
      (scan.active.filter (·.file = current.file)).length)
    (hfit : LiveInterval.Fit (pool.registers current.file).length better) :
    ∃ u, scan.Competes current u ∧ u ∉ better := by
  have hcurrent : current ∉ (scan.active.filter (·.file = current.file)).toFinset := by
    intro hm
    have hdone := ((hinv.active current).1 (List.mem_filter.1 (List.mem_toFinset.1 hm)).1).1
    exact hready.new (List.mem_map_of_mem hdone)
  have hlt : (better.filter fun i => i.LivesAt current.start).card <
      (insert current (scan.active.filter (·.file = current.file)).toFinset).card := by
    have hfits := hfit current.start
    rw [Finset.card_insert_of_notMem hcurrent,
      List.toFinset_card_of_nodup (hinv.nodup.filter _)]
    omega
  obtain ⟨u, hu, hout⟩ := Finset.exists_mem_notMem_of_card_lt_card hlt
  have hcompetes : scan.Competes current u := by simpa [Competes] using hu
  exact ⟨u, hcompetes,
    fun hm => hout (Finset.mem_filter.2 ⟨hm, hcompetes.livesAt hinv hready⟩)⟩

/-- The longest of those that compete may as well be the one that a choice leaves out. -/
theorem spill_preserves_ahead (hinv : Invariant pool done current.start scan)
    (hready : Ready (done ++ current :: rest)) (hclean : current.excluded = [])
    (hfull : (pool.registers current.file).length ≤
      (scan.active.filter (·.file = current.file)).length)
    (h : Ahead pool file (done ++ current :: rest) done scan) :
    Ahead pool file (done ++ current :: rest) (done ++ [current]) (scan.spill pool current) := by
  obtain ⟨longest, hlongest, hends, hkept⟩ := spill_yields hinv hready.new hclean
  intro other hsub hfit
  obtain ⟨better, hbsub, hbfit, hcard, hheld⟩ := h other hsub hfit
  have hbheld : ∀ i ∈ better, i ∈ done ++ [current] →
      i = current ∨ (scan.registers.get? i.id).isSome := by
    intro i hi hdone
    rcases List.mem_append.1 hdone with hdone | hdone
    · exact .inr (hheld i hi hdone)
    · exact .inl (List.mem_singleton.1 hdone)
  by_cases hin : longest ∈ better
  case neg =>
    refine ⟨better, hbsub, hbfit, hcard, fun i hi hdone => ?_⟩
    exact hkept i hdone (fun he => hin (he ▸ hi)) (hbheld i hi hdone)
  case pos =>
    obtain rfl : current.file = file := hlongest.sameFile.symm.trans (mem_ofFile.1 (hbsub hin)).2
    obtain ⟨u, hu, hout⟩ := exists_left_out hinv hready hfull hbfit
    obtain ⟨hudone, huheld⟩ := hu.placed hinv
    have husub : u ∈ ofFile current.file (done ++ current :: rest) := by
      refine mem_ofFile.2 ⟨?_, hu.sameFile⟩
      rw [List.append_cons]
      exact List.mem_append_left _ hudone
    -- What has been visited and is still competing or chosen holds a register.
    have hpast : ∀ i ∈ insert u better, i.start < current.start →
        i ∈ served current.file done fun i => scan.registers.get? i.id := by
      intro i hi hstart
      obtain ⟨hmem, hfile⟩ := mem_ofFile.1 (Finset.insert_subset husub hbsub hi)
      have hdone := hready.visited hmem hstart
      refine mem_served.2 ⟨⟨hdone, hfile⟩, ?_⟩
      rcases Finset.mem_insert.1 hi with rfl | hi
      · exact huheld.resolve_left fun he => Nat.lt_irrefl _ (he ▸ hstart)
      · exact hheld i hi hdone
    refine ⟨insert u (better.erase longest), ?_, ?_, ?_, ?_⟩
    · exact Finset.insert_subset husub ((Finset.erase_subset _ _).trans hbsub)
    · exact hbfit.exchange (serves_of_sound hinv.sound current.file).fit hpast hin
        (hlongest.livesAt hinv hready).1 (hends u hu)
    · rw [Finset.card_insert_of_notMem (fun hm => hout (Finset.mem_of_mem_erase hm)),
        Finset.card_erase_add_one hin, hcard]
    · intro i hi hdone
      rcases Finset.mem_insert.1 hi with rfl | hi
      · exact hkept i hdone (fun he => hout (he ▸ hin)) huheld
      · obtain ⟨hne, hi⟩ := Finset.mem_erase.1 hi
        exact hkept i hdone hne (hbheld i hi hdone)

theorem step_preserves_ahead (hinv : Invariant pool done now scan) (hnow : now ≤ current.start)
    (hready : Ready (done ++ current :: rest)) (hclean : current.excluded = [])
    (h : Ahead pool file (done ++ current :: rest) done scan)
    (hstep : step pool scan current source = .ok scan' source') :
    Ahead pool file (done ++ current :: rest) (done ++ [current]) scan' := by
  have hexpired := expire_preserves_invariant hinv hnow
  unfold step at hstep
  split at hstep
  · next hfull =>
    rw [Draw.pure_ok] at hstep
    obtain ⟨rfl, _⟩ := hstep
    refine spill_preserves_ahead hexpired hready hclean ?_ h
    simpa [RegisterPool.candidates, hclean] using hfull
  · rw [Draw.bind_ok] at hstep
    obtain ⟨chosen, _, _, hassign⟩ := hstep
    cases chosen with
    | none => simp at hassign
    | some r =>
      rw [Draw.pure_ok] at hassign
      obtain ⟨rfl, _⟩ := hassign
      exact assign_preserves_ahead h

theorem steps_preserve_ahead (hinv : Invariant pool done now scan) (hready : Ready (done ++ rest))
    (hclean : ∀ i ∈ rest, i.excluded = []) (hnow : ∀ i ∈ rest, now ≤ i.start)
    (h : ∀ file, Ahead pool file (done ++ rest) done scan)
    (hsteps : rest.foldlM (step pool) scan source = .ok scan' source') (file : RegisterFile) :
    Ahead pool file (done ++ rest) (done ++ rest) scan' := by
  induction rest generalizing done now scan source with
  | nil =>
    rw [List.foldlM_nil, Draw.pure_ok] at hsteps
    obtain ⟨rfl, _⟩ := hsteps
    simpa using h file
  | cons current rest ih =>
    rw [List.foldlM_cons, Draw.bind_ok] at hsteps
    obtain ⟨next, source'', hstep, hrest⟩ := hsteps
    obtain ⟨_, hlater, hsorted⟩ := List.pairwise_append.1 hready.sorted
    obtain ⟨_, _, hok, hnext⟩ := step_preserves_invariant hinv (hnow current List.mem_cons_self)
      (fun i hi => hsorted i hi current List.mem_cons_self) hready.new
      (hready.live current (by simp)) source
    obtain ⟨rfl, rfl⟩ := EStateM.Result.ok.inj (hok.symm.trans hstep)
    have hahead := fun file => step_preserves_ahead hinv (hnow current List.mem_cons_self) hready
      (hclean current List.mem_cons_self) (h file) hstep
    rw [List.append_cons] at hready hahead ⊢
    exact ih hnext hready (fun i hi => hclean i (List.mem_cons_of_mem _ hi))
      (List.pairwise_cons.1 hlater).1 hahead hrest

end Scan

/-- The values of a file that an allocation keeps on the stack. -/
def Allocation.spilled (a : Allocation) (file : RegisterFile) : List LiveInterval :=
  a.intervals.filter fun i => i.file = file ∧ (a.slots.get? i.id).isSome

namespace Scan

variable {pool : RegisterPool} {intervals : List LiveInterval} {source source' : RandomSource}
variable {a : Allocation}

/-- What a sound allocation spills is what it leaves without a register. -/
theorem spilled_eq_unserved (h : a.Sound pool) (file : RegisterFile) :
    a.spilled file = unserved file a.intervals fun i => a.registers.get? i.id := by
  refine List.filter_congr fun i hi => ?_
  have hplaced := (h.placed i.id).1 (List.mem_map_of_mem hi)
  have hsame : (a.slots.get? i.id).isSome ↔ a.registers.get? i.id = none := by
    rw [Option.isSome_iff_exists, Option.eq_none_iff_forall_ne_some]
    constructor
    · rintro ⟨n, hn⟩ r hr
      exact h.apart i.id r n hr hn
    · intro hnone
      exact hplaced.resolve_left fun ⟨r, hr⟩ => hnone r hr
  simp [hsame]

/-- A scan that got ahead of every choice leaves out no more than any of them. -/
theorem unserved_le {scan : Scan} {file : RegisterFile} {choice : LiveInterval → Option Register}
    (h : Ahead pool file intervals intervals scan) (hnodup : intervals.Nodup)
    (hchoice : Serves pool file intervals choice) :
    (unserved file intervals fun i => scan.registers.get? i.id).length ≤
      (unserved file intervals choice).length := by
  obtain ⟨better, hsub, _, hcard, hheld⟩ :=
    h (served file intervals choice) (Finset.filter_subset _ _) hchoice.fit
  have hbetter : better ⊆ served file intervals fun i => scan.registers.get? i.id := by
    intro i hi
    have hmem := mem_ofFile.1 (hsub hi)
    exact mem_served.2 ⟨hmem, hheld i hi hmem.1⟩
  have hle := Finset.card_le_card hbetter
  have hothers := served_card file hnodup choice
  have hscan := served_card file hnodup fun i => scan.registers.get? i.id
  omega

/-- The scan returns, and for each file it spills as many values as every choice of registers has
to leave out, and no more. -/
theorem run_spills_least (hids : (intervals.map LiveInterval.id).Nodup)
    (hlive : ∀ i ∈ intervals, i.start ≤ i.finish)
    (hsorted : intervals.Pairwise (·.start ≤ ·.start))
    (hclean : ∀ i ∈ intervals, i.excluded = []) :
    ∃ a source', run pool intervals source = .ok a source' ∧ a.intervals = intervals ∧
      ∀ file, IsLeast {n | ∃ choice, Serves pool file intervals choice ∧
        n = (unserved file intervals choice).length} (a.spilled file).length := by
  have hready : Ready ([] ++ intervals) := ⟨hids, hlive, hsorted⟩
  have hstart : ∀ i ∈ intervals, 0 ≤ i.start := fun i _ => Nat.zero_le i.start
  obtain ⟨scan, source', now, hsteps, hinv⟩ :=
    steps_preserve_invariant (Invariant.initial pool 0) hready hstart source
  have hahead := steps_preserve_ahead (Invariant.initial pool 0) hready hclean hstart
    (fun file => Ahead.initial pool file _) hsteps
  rw [List.nil_append] at hinv hahead
  refine ⟨_, source', by simpa [run] using ⟨scan, hsteps, rfl⟩, rfl, fun file => ?_⟩
  rw [spilled_eq_unserved hinv.sound]
  refine ⟨⟨_, serves_of_sound hinv.sound file, rfl⟩, ?_⟩
  rintro n ⟨choice, hchoice, rfl⟩
  exact unserved_le (hahead file) (List.Nodup.of_map _ hids) hchoice

/-- Four values of one file compete for two registers, beside one of the other file. -/
def contested : List LiveInterval :=
  [{ id := "whole", file := .gpr, start := 0, finish := 9 },
   { id := "front", file := .gpr, start := 1, finish := 3 },
   { id := "float", file := .fpr, start := 1, finish := 8 },
   { id := "middle", file := .gpr, start := 2, finish := 6 },
   { id := "back", file := .gpr, start := 3, finish := 9 }]

theorem run_contested_least : ∃ a source',
    run { gprs := 2, fprs := 1 } contested (.ofSeed 0) = .ok a source' ∧
      a.intervals = contested ∧
      ∀ file, IsLeast {n | ∃ choice, Serves { gprs := 2, fprs := 1 } file contested choice ∧
        n = (unserved file contested choice).length} (a.spilled file).length :=
  run_spills_least (by decide) (by decide) (by decide) (by decide)

end Scan
end PlanLowering
