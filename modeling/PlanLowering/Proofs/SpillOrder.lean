import PlanLowering.Proofs.LeastSpills

/-!
# What the scan spills does not depend on the registers it draws

Where no interval has registers to shun, who gives way is decided by the ends of the intervals
alone. The scan is compared with a contest that knows no registers and draws nothing: it keeps
those that hold some register and those that gave way, in that order. A contest treats the files
apart, so the intervals of one file can be left out of it. Which register an interval gets, and
intervals that come in another order than by their start, are not considered.
-/

namespace PlanLowering.Scan

variable {pool : RegisterPool} {file : RegisterFile} {scan scan' : Scan} {current : LiveInterval}
variable {intervals rest active : List LiveInterval} {source source' : RandomSource}

structure Contest where
  active : List LiveInterval := []
  yielded : List LiveInterval := []

def laterEnd (best : Option LiveInterval) (other : LiveInterval) : Option LiveInterval :=
  match best with
  | some v => if other.finish < v.finish then some v else some other
  | none => some other

def longest? (file : RegisterFile) (active : List LiveInterval) : Option LiveInterval :=
  (active.filter (·.file = file)).foldl laterEnd none

/-- Who gives way when an interval finds no register free. -/
def yields (active : List LiveInterval) (current : LiveInterval) : LiveInterval :=
  match longest? current.file active with
  | none => current
  | some longest => if longest.finish < current.finish then current else longest

namespace Contest

variable {c d : Contest} {now start : Nat}

def expire (c : Contest) (start : Nat) : Contest :=
  { c with active := c.active.filter fun interval => start ≤ interval.finish }

/-- The interval becomes active, at the cost of one of its file if they are too many. -/
def settle (pool : RegisterPool) (c : Contest) (current : LiveInterval) : Contest :=
  if (pool.registers current.file).length ≤ (c.active.filter (·.file = current.file)).length then
    { active := (c.active ++ [current]).erase (yields c.active current)
      yielded := c.yielded ++ [yields c.active current] }
  else { c with active := c.active ++ [current] }

def enter (pool : RegisterPool) (c : Contest) (current : LiveInterval) : Contest :=
  (c.expire current.start).settle pool current

def ofFile (file : RegisterFile) (c : Contest) : Contest where
  active := c.active.filter (·.file = file)
  yielded := c.yielded.filter (·.file = file)

end Contest

theorem foldl_laterEnd_mem {best : Option LiveInterval} {longest : LiveInterval}
    (h : active.foldl laterEnd best = some longest) : longest ∈ active ∨ best = some longest := by
  induction active generalizing best with
  | nil => exact .inr h
  | cons first active ih =>
    rcases ih h with hmem | hbest
    · exact .inl (List.mem_cons_of_mem _ hmem)
    · cases best with
      | none =>
        cases hbest
        exact .inl List.mem_cons_self
      | some v =>
        unfold laterEnd at hbest
        dsimp only at hbest
        split at hbest
        · exact .inr hbest
        · cases hbest
          exact .inl List.mem_cons_self

theorem longest?_mem {longest : LiveInterval} (h : longest? file active = some longest) :
    longest ∈ active ∧ longest.file = file := by
  rcases foldl_laterEnd_mem h with hmem | hnone
  · simpa using hmem
  · cases hnone

theorem yields_mem (active : List LiveInterval) (current : LiveInterval) :
    yields active current ∈ active ++ [current] := by
  unfold yields
  split
  · simp
  · next hlongest =>
    split
    · simp
    · exact List.mem_append_left _ (longest?_mem hlongest).1

theorem yields_file (active : List LiveInterval) (current : LiveInterval) :
    (yields active current).file = current.file := by
  unfold yields
  split
  · rfl
  · next hlongest =>
    split
    · rfl
    · exact (longest?_mem hlongest).2

/-- Only the active intervals of its own file can give way to an interval. -/
theorem yields_filter (hfile : current.file = file) :
    yields (active.filter (·.file = file)) current = yields active current := by
  subst hfile
  simp [yields, longest?]

/-- Where every active interval of the file could hand its register on, the victim is the one
of them that ends last. -/
theorem victim?_longest (husable : ∀ i ∈ scan.active,
    (scan.usable? pool current i).isSome ↔ i.file = current.file) :
    (scan.victim? pool current).map Prod.fst = longest? current.file scan.active := by
  have hfilter : (scan.active.zipIdx.filter fun other =>
      (scan.usable? pool current other.1).isSome).map Prod.fst =
        scan.active.filter (·.file = current.file) := by
    have hpast := List.filter_map (f := Prod.fst) (l := scan.active.zipIdx)
      (p := fun i => (scan.usable? pool current i).isSome)
    rw [List.zipIdx_map_fst] at hpast
    refine hpast.symm.trans (List.filter_congr fun i hi => ?_)
    rw [Bool.eq_iff_iff, decide_eq_true_eq]
    exact husable i hi
  have hlater : ∀ best other, laterEnd (best.map Prod.fst) other.1 =
      (later best other).map Prod.fst := by
    intro best other
    cases best with
    | none => rfl
    | some v =>
      simp only [laterEnd, later, Option.map_some]
      split <;> rfl
  rw [victim?_eq, longest?, ← hfilter, List.foldl_map]
  exact (List.foldl_hom (Option.map Prod.fst) hlater).symm

/-- The scan is where the contest is, and each active interval holds some register of the pool. -/
structure Follows (pool : RegisterPool) (scan : Scan) (c : Contest) : Prop where
  active : scan.active = c.active
  slots : scan.slots.entries = (c.yielded.map LiveInterval.id).zipIdx
  held : ∀ i ∈ c.active, ∃ r ∈ pool.registers i.file, scan.registers.get? i.id = some r

variable {c d : Contest} {r : Register}

theorem Follows.initial (pool : RegisterPool) : Follows pool {} {} where
  active := rfl
  slots := rfl
  held := by simp

theorem Follows.get?_slots (h : Follows pool scan c) {id : Id} :
    scan.slots.get? id = none ↔ id ∉ c.yielded.map LiveInterval.id := by
  rw [IdMap.get?_eq_none, h.slots, List.zipIdx_map_fst]

theorem Follows.contains_slots (h : Follows pool scan c) {id : Id} :
    scan.slots.contains id ↔ id ∈ c.yielded.map LiveInterval.id := by
  rw [IdMap.contains, Option.isSome_iff_ne_none, ne_eq, h.get?_slots, not_not]

theorem Follows.slots_eq (h : Follows pool scan c) (h' : Follows pool scan' c) :
    scan.slots = scan'.slots := by
  have hentries := h.slots.trans h'.slots.symm
  cases hslots : scan.slots
  cases hslots' : scan'.slots
  simpa [hslots, hslots'] using hentries

theorem expire_follows (h : Follows pool scan c) (start : Nat) :
    Follows pool (scan.expire start) (c.expire start) where
  active := by rw [expire, Contest.expire, h.active]
  slots := h.slots
  held := fun i hi => h.held i (List.mem_of_mem_filter hi)

theorem Follows.slots_toStack (h : Follows pool scan c) {i : LiveInterval}
    (hnew : i.id ∉ c.yielded.map LiveInterval.id) :
    (scan.slots.insert i.id scan.slots.size).entries =
      ((c.yielded ++ [i]).map LiveInterval.id).zipIdx := by
  rw [IdMap.entries_insert (h.get?_slots.2 hnew), IdMap.size, h.slots, List.map_append,
    List.zipIdx_append]
  simp

def Contest.Distinct (c : Contest) (rest : List LiveInterval) : Prop :=
  ((c.active ++ c.yielded ++ rest).map LiveInterval.id).Nodup

theorem Contest.expire_distinct (h : c.Distinct rest) (start : Nat) :
    (c.expire start).Distinct rest := by
  have hsub : List.Sublist ((c.expire start).active ++ c.yielded ++ rest)
      (c.active ++ c.yielded ++ rest) :=
    (List.filter_sublist.append (List.Sublist.refl _)).append (List.Sublist.refl _)
  exact (hsub.map _).nodup h

theorem Contest.settle_perm (pool : RegisterPool) (c : Contest) (current : LiveInterval) :
    ((c.settle pool current).active ++ (c.settle pool current).yielded).Perm
      (c.active ++ c.yielded ++ [current]) := by
  have hbehind :
      (c.active ++ [current] ++ c.yielded).Perm (c.active ++ c.yielded ++ [current]) := by
    rw [List.append_assoc, List.append_assoc]
    exact List.perm_append_comm.append_left _
  unfold settle
  split
  · have hturn : ((c.active ++ [current]).erase (yields c.active current) ++
        [yields c.active current]).Perm (c.active ++ [current]) :=
      List.perm_append_comm.trans (List.perm_cons_erase (yields_mem c.active current)).symm
    refine .trans ?_ ((hturn.append_right c.yielded).trans hbehind)
    rw [List.append_assoc]
    exact List.perm_append_comm.append_left _
  · exact hbehind

theorem Contest.settle_distinct (h : c.Distinct (current :: rest)) :
    (c.settle pool current).Distinct rest := by
  rw [Contest.Distinct, List.append_cons] at h
  exact (((c.settle_perm pool current).append_right rest).map _).nodup_iff.2 h

theorem Contest.Distinct.apart (h : c.Distinct (current :: rest)) :
    (∀ i ∈ c.active, ∀ j ∈ c.active, i.id = j.id → i = j) ∧
      (∀ i ∈ c.active, i.id ∉ c.yielded.map LiveInterval.id) ∧
      (∀ i ∈ c.active, i.id ≠ current.id) ∧ current.id ∉ c.yielded.map LiveInterval.id := by
  rw [Contest.Distinct, List.map_append, List.map_append, List.nodup_append,
    List.nodup_append] at h
  obtain ⟨⟨hactive, _, hyielded⟩, _, hnew⟩ := h
  refine ⟨fun i hi j hj hid => List.inj_on_of_nodup_map hactive hi hj hid, ?_, ?_, ?_⟩
  · intro i hi hm
    exact hyielded _ (List.mem_map_of_mem hi) _ hm rfl
  · intro i hi
    exact hnew _ (List.mem_append_left _ (List.mem_map_of_mem hi)) _ (by simp)
  · intro hm
    exact hnew _ (List.mem_append_right _ hm) _ (by simp) rfl

theorem assign_follows (h : Follows pool scan c) (hnew : ∀ i ∈ c.active, i.id ≠ current.id)
    (hr : r ∈ pool.registers current.file) :
    Follows pool (scan.assign current r) { c with active := c.active ++ [current] } where
  active := by rw [assign, h.active]
  slots := h.slots
  held := by
    intro i hi
    rw [assign, IdMap.get?_insert]
    rcases List.mem_append.1 hi with hi | hi
    · rw [if_neg (hnew i hi)]
      exact h.held i hi
    · rw [List.mem_singleton.1 hi, if_pos rfl]
      exact ⟨r, hr, rfl⟩

theorem toStack_follows (h : Follows pool scan c)
    (hnew : current.id ∉ c.yielded.map LiveInterval.id) :
    Follows pool (scan.toStack current.id) { c with yielded := c.yielded ++ [current] } where
  active := h.active
  slots := h.slots_toStack hnew
  held := h.held

theorem evict_follows {victim : LiveInterval} {position : Nat} (h : Follows pool scan c)
    (hdistinct : c.Distinct (current :: rest)) (hvictim : scan.active[position]? = some victim) :
    Follows pool (scan.evict victim position)
      { active := c.active.erase victim, yielded := c.yielded ++ [victim] } := by
  obtain ⟨hids, hyielded, _⟩ := hdistinct.apart
  have hactive : victim ∈ c.active := h.active ▸ List.mem_of_getElem? hvictim
  have hnodup : c.active.Nodup := by
    have hall := List.Nodup.of_map _ hdistinct
    exact (List.nodup_append.1 (List.nodup_append.1 hall).1).1
  constructor
  case active =>
    obtain ⟨hlt, hget⟩ := List.getElem?_eq_some_iff.1 hvictim
    rw [← h.active] at hnodup ⊢
    rw [← hget, hnodup.erase_getElem]
    rfl
  case slots => exact h.slots_toStack (hyielded victim hactive)
  case held =>
    intro i hi
    obtain ⟨hne, hi⟩ := (hnodup.mem_erase_iff).1 hi
    obtain ⟨r, hr, hheld⟩ := h.held i hi
    refine ⟨r, hr, ?_⟩
    have hid : i.id ≠ victim.id := fun he => hne (hids i hi victim hactive he)
    simpa [evict, toStack, hid] using hheld

theorem usable_of_follows (h : Follows pool scan c) (hclean : current.excluded = []) :
    ∀ i ∈ scan.active, (scan.usable? pool current i).isSome ↔ i.file = current.file := by
  intro i hi
  constructor
  · exact file_of_usable
  · intro hfile
    obtain ⟨r, hr, hheld⟩ := h.held i (h.active ▸ hi)
    exact usable_of_held hclean hfile hheld hr

/-- Where no register is free, the scan makes the one give way that the contest does. -/
theorem spill_follows (h : Follows pool scan c) (hdistinct : c.Distinct (current :: rest))
    (hclean : current.excluded = []) :
    Follows pool (scan.spill pool current)
      { active := (c.active ++ [current]).erase (yields c.active current)
        yielded := c.yielded ++ [yields c.active current] } := by
  obtain ⟨_, _, hactive, hyielded⟩ := hdistinct.apart
  have hlongest := victim?_longest (usable_of_follows h hclean)
  rw [h.active] at hlongest
  -- Without a victim, and with one that ends too early, the newcomer goes to the stack itself.
  have hstay : yields c.active current = current →
      scan.spill pool current = scan.toStack current.id →
      Follows pool (scan.spill pool current)
        { active := (c.active ++ [current]).erase (yields c.active current)
          yielded := c.yielded ++ [yields c.active current] } := by
    intro hyields hspill
    have hout : current ∉ c.active := fun hm => hactive current hm rfl
    rw [hspill, hyields, List.erase_append_right _ hout, List.erase_cons_head, List.append_nil]
    exact toStack_follows h hyielded
  cases hvictim : scan.victim? pool current with
  | none =>
    rw [hvictim, Option.map_none] at hlongest
    apply hstay
    · rw [yields, ← hlongest]
    · rw [spill, hvictim]
  | some found =>
    obtain ⟨victim, position⟩ := found
    rw [hvictim, Option.map_some] at hlongest
    by_cases hends : victim.finish < current.finish
    · apply hstay
      · simp [yields, ← hlongest, hends]
      · simp [spill, hvictim, hends]
    · obtain ⟨hposition, husable⟩ := victim_eligible hvictim
      have hmem : victim ∈ c.active := h.active ▸ List.mem_of_getElem? hposition
      obtain ⟨r, hr, hheld⟩ := h.held victim hmem
      have hspill : scan.spill pool current = (scan.evict victim position).assign current r := by
        simp [spill, hvictim, hends, hheld, evict]
      have hyields : yields c.active current = victim := by
        simp [yields, ← hlongest, hends]
      rw [hspill, hyields, List.erase_append_left _ hmem]
      apply assign_follows (evict_follows h hdistinct hposition)
      · intro i hi
        exact hactive i (List.mem_of_mem_erase hi)
      · rw [← file_of_usable husable]
        exact hr

theorem step_follows (h : Follows pool scan c) (hdistinct : c.Distinct (current :: rest))
    (hclean : current.excluded = []) (source : RandomSource) :
    ∃ scan' source', step pool scan current source = .ok scan' source' ∧
      Follows pool scan' (c.enter pool current) := by
  have hexpired := expire_follows h current.start
  have hcandidates : pool.candidates current.file current.excluded =
      pool.registers current.file := by
    simp [RegisterPool.candidates, hclean]
  have hapart := Contest.expire_distinct hdistinct current.start
  by_cases hfull : (pool.registers current.file).length ≤
      ((scan.expire current.start).active.filter (·.file = current.file)).length
  · refine ⟨(scan.expire current.start).spill pool current, source, ?_, ?_⟩
    · simp [step, hcandidates, hfull]
    · rw [Contest.enter, Contest.settle, if_pos (hexpired.active ▸ hfull)]
      exact spill_follows hexpired hapart hclean
  · have hfiles : ∀ i ∈ (scan.expire current.start).active, ∀ r,
        (scan.expire current.start).registers.get? i.id = some r → r.file = i.file := by
      intro i hi r hr
      obtain ⟨s, hs, hheld⟩ := hexpired.held i (hexpired.active ▸ hi)
      rw [hr, Option.some.injEq] at hheld
      exact hheld ▸ RegisterPool.file_of_mem hs
    obtain ⟨r, hr, source', hchoice⟩ := Draw.choice_ok
      (candidate_left hfiles (by rw [hcandidates]; exact Nat.lt_of_not_le hfull)) source
    refine ⟨(scan.expire current.start).assign current r, source', ?_, ?_⟩
    · rw [← hcandidates] at hfull
      simp only [step, if_neg hfull, Draw.bind_ok]
      exact ⟨some r, source', hchoice, by simp⟩
    · rw [Contest.enter, Contest.settle, if_neg (hexpired.active ▸ hfull)]
      apply assign_follows hexpired hapart.apart.2.2.1
      rw [← hcandidates]
      exact (List.mem_filter.1 hr).1

theorem steps_follow (h : Follows pool scan c) (hdistinct : c.Distinct rest)
    (hclean : ∀ i ∈ rest, i.excluded = []) (source : RandomSource) :
    ∃ scan' source', rest.foldlM (step pool) scan source = .ok scan' source' ∧
      Follows pool scan' (rest.foldl (Contest.enter pool) c) := by
  induction rest generalizing scan c source with
  | nil => exact ⟨scan, source, rfl, h⟩
  | cons current rest ih =>
    obtain ⟨next, source', hstep, hnext⟩ :=
      step_follows h hdistinct (hclean current List.mem_cons_self) source
    have hleft : (c.enter pool current).Distinct rest :=
      Contest.settle_distinct (Contest.expire_distinct hdistinct current.start)
    obtain ⟨scan', source'', hfold, hscan⟩ :=
      ih hnext hleft (fun i hi => hclean i (List.mem_cons_of_mem _ hi)) source'
    refine ⟨scan', source'', ?_, hscan⟩
    rw [List.foldlM_cons, Draw.bind_ok]
    exact ⟨next, source', hstep, hfold⟩

namespace Contest

theorem enter_subset (pool : RegisterPool) (c : Contest) (current : LiveInterval) :
    (c.enter pool current).active ++ (c.enter pool current).yielded ⊆
      c.active ++ c.yielded ++ [current] := by
  intro i hi
  have hsettled := (settle_perm pool (c.expire current.start) current).subset hi
  rw [List.mem_append, List.mem_append] at hsettled ⊢
  rcases hsettled with (hactive | hyielded) | hnew
  · exact .inl (.inl (List.mem_of_mem_filter hactive))
  · exact .inl (.inr hyielded)
  · exact .inr hnew

theorem foldl_enter_subset (pool : RegisterPool) (c : Contest) (rest : List LiveInterval) :
    (rest.foldl (enter pool) c).active ++ (rest.foldl (enter pool) c).yielded ⊆
      c.active ++ c.yielded ++ rest := by
  induction rest generalizing c with
  | nil => simp
  | cons current rest ih =>
    intro i hi
    rw [List.append_cons]
    rcases List.mem_append.1 (ih (c.enter pool current) hi) with hearlier | hlater
    · exact List.mem_append_left _ (enter_subset pool c current hearlier)
    · exact List.mem_append_right _ hlater

theorem expire_expire (c : Contest) (h : now ≤ start) :
    (c.expire now).expire start = c.expire start := by
  simp only [expire, List.filter_filter]
  congr 1
  refine List.filter_congr fun i _ => ?_
  rw [Bool.eq_iff_iff]
  simp only [Bool.and_eq_true, decide_eq_true_eq]
  constructor
  · exact And.left
  · intro hstart
    exact ⟨hstart, Nat.le_trans h hstart⟩

theorem expire_ofFile (c : Contest) (file : RegisterFile) (start : Nat) :
    (c.expire start).ofFile file = (c.ofFile file).expire start := by
  simp only [expire, ofFile, List.filter_filter, Bool.and_comm]

theorem enter_expire (pool : RegisterPool) (c : Contest) (h : now ≤ current.start) :
    (c.expire now).enter pool current = c.enter pool current := by
  rw [enter, expire_expire c h, enter]

theorem settle_ofFile (pool : RegisterPool) (c : Contest) (hfile : current.file = file) :
    (c.settle pool current).ofFile file = (c.ofFile file).settle pool current := by
  have hyields : yields (c.active.filter (·.file = file)) current = yields c.active current :=
    yields_filter hfile
  have hyieldsFile : (yields c.active current).file = file :=
    (yields_file c.active current).trans hfile
  have hcount : (c.ofFile file).active.filter (·.file = current.file) =
      c.active.filter (·.file = current.file) := by
    simp [ofFile, hfile]
  unfold settle
  rw [hcount]
  split
  · simp only [ofFile, hyields, ← List.erase_filter, List.filter_append]
    simp [hfile, hyieldsFile]
  · simp [ofFile, hfile]

theorem settle_other (pool : RegisterPool) (c : Contest) (hfile : current.file ≠ file) :
    (c.settle pool current).ofFile file = c.ofFile file := by
  have hyields : (yields c.active current).file ≠ file := yields_file c.active current ▸ hfile
  unfold settle
  split
  · have hout : yields c.active current ∉ (c.active ++ [current]).filter (·.file = file) :=
      fun hm => hyields (by simpa using (List.mem_filter.1 hm).2)
    rw [ofFile, ofFile, ← List.erase_filter, List.erase_of_not_mem hout]
    simp [hfile, hyields]
  · simp [ofFile, hfile]

/-- The part of a contest about one file is the contest of the intervals of that file, as far as
intervals are concerned that have not ended. -/
theorem foldl_enter_ofFile (pool : RegisterPool) (file : RegisterFile)
    (hnow : ∀ i ∈ rest, now ≤ i.start) (hsorted : rest.Pairwise (·.start ≤ ·.start))
    (h : (c.ofFile file).expire now = d.expire now) :
    ((rest.foldl (enter pool) c).ofFile file).yielded =
      ((rest.filter (·.file = file)).foldl (enter pool) d).yielded := by
  -- An interval of the other file makes time go by in one of the contests only, so they agree no
  -- further than to what is dropped at the next start.
  induction rest generalizing now c d with
  | nil =>
    have hyielded := congrArg Contest.yielded h
    exact hyielded
  | cons current rest ih =>
    have hstart := hnow current List.mem_cons_self
    obtain ⟨hlater, hrest⟩ := List.pairwise_cons.1 hsorted
    by_cases hfile : current.file = file
    · rw [List.filter_cons_of_pos (by simpa using hfile), List.foldl_cons, List.foldl_cons]
      refine ih hlater hrest ?_
      have henter : (c.enter pool current).ofFile file = d.enter pool current :=
        calc (c.enter pool current).ofFile file
            = (c.ofFile file).enter pool current := by
              rw [enter, settle_ofFile pool _ hfile, expire_ofFile, enter]
          _ = ((c.ofFile file).expire now).enter pool current :=
              (enter_expire pool _ hstart).symm
          _ = d.enter pool current := by rw [h, enter_expire pool d hstart]
      rw [henter]
    · rw [List.filter_cons_of_neg (by simpa using hfile), List.foldl_cons]
      refine ih hlater hrest ?_
      calc ((c.enter pool current).ofFile file).expire current.start
          = ((c.ofFile file).expire current.start).expire current.start := by
            rw [enter, settle_other pool _ hfile, expire_ofFile]
        _ = ((c.ofFile file).expire now).expire current.start := by
            rw [expire_expire _ (Nat.le_refl _), expire_expire _ hstart]
        _ = d.expire current.start := by rw [h, expire_expire d hstart]

end Contest

/-- A run returns whatever the source, and ends where the contest of its intervals does. -/
theorem run_follows (pool : RegisterPool) (hids : (intervals.map LiveInterval.id).Nodup)
    (hclean : ∀ i ∈ intervals, i.excluded = []) (source : RandomSource) :
    ∃ scan source', run pool intervals source =
        .ok { intervals, registers := scan.registers, slots := scan.slots } source' ∧
      Follows pool scan (intervals.foldl (Contest.enter pool) {}) := by
  have hdistinct : Contest.Distinct {} intervals := hids
  obtain ⟨scan, source', hsteps, hfollows⟩ :=
    steps_follow (Follows.initial pool) hdistinct hclean source
  refine ⟨scan, source', ?_, hfollows⟩
  simp only [run, Draw.bind_ok]
  exact ⟨scan, source', hsteps, rfl⟩

/-- The slots of a run do not depend on the draws, and for each file a run spills the same values
when the other file is left out. -/
theorem run_spills_alike (hids : (intervals.map LiveInterval.id).Nodup)
    (hsorted : intervals.Pairwise (·.start ≤ ·.start))
    (hclean : ∀ i ∈ intervals, i.excluded = []) (source source' : RandomSource) :
    (∃ a next a' next', run pool intervals source = .ok a next ∧
      run pool intervals source' = .ok a' next' ∧ a.slots = a'.slots) ∧
    ∀ file, ∃ a next a' next', run pool intervals source = .ok a next ∧
      run pool (intervals.filter (·.file = file)) source' = .ok a' next' ∧
      ∀ id, id ∈ (a.spilled file).map LiveInterval.id ↔ a'.slots.contains id := by
  obtain ⟨scan, next, hrun, hfollows⟩ := run_follows pool hids hclean source
  constructor
  · obtain ⟨scan', next', hrun', hfollows'⟩ := run_follows pool hids hclean source'
    refine ⟨_, next, _, next', hrun, hrun', ?_⟩
    exact hfollows.slots_eq hfollows'
  · intro file
    have hsub := List.filter_sublist (p := fun i : LiveInterval => i.file = file) (l := intervals)
    obtain ⟨scan', next', hrun', hfollows'⟩ := run_follows pool ((hsub.map _).nodup hids)
      (fun i hi => hclean i (hsub.subset hi)) source'
    refine ⟨_, next, _, next', hrun, hrun', fun id => ?_⟩
    have hsplit := Contest.foldl_enter_ofFile pool file (c := {}) (d := {})
      (fun i _ => Nat.zero_le i.start) hsorted rfl
    have hentered : ∀ i ∈ (intervals.foldl (Contest.enter pool) {}).yielded, i ∈ intervals := by
      intro i hi
      have hmem := Contest.foldl_enter_subset pool {} intervals (List.mem_append_right _ hi)
      simpa using hmem
    rw [hfollows'.contains_slots, ← hsplit]
    simp only [Allocation.spilled, Contest.ofFile, List.mem_map, List.mem_filter,
      decide_eq_true_eq]
    constructor
    · rintro ⟨i, ⟨hi, hfile, hslot⟩, rfl⟩
      obtain ⟨j, hj, hid⟩ := List.mem_map.1 (hfollows.contains_slots.1 hslot)
      obtain rfl : j = i := List.inj_on_of_nodup_map hids (hentered j hj) hi hid
      exact ⟨j, ⟨hj, hfile⟩, rfl⟩
    · rintro ⟨i, ⟨hi, hfile⟩, rfl⟩
      have hslot := hfollows.contains_slots.2 (List.mem_map_of_mem hi)
      exact ⟨i, ⟨hentered i hi, hfile, hslot⟩, rfl⟩

/-- Of four values that compete for two registers, the two that end last are spilled. -/
example : ((contested.foldl (Contest.enter { gprs := 2, fprs := 1 }) {}).yielded.map
    LiveInterval.id) = ["whole", "back"] := by decide

theorem run_contested_alike :
    (∃ a next a' next', run { gprs := 2, fprs := 1 } contested (.ofSeed 0) = .ok a next ∧
      run { gprs := 2, fprs := 1 } contested (.ofSeed 1) = .ok a' next' ∧ a.slots = a'.slots) ∧
    ∀ file, ∃ a next a' next',
      run { gprs := 2, fprs := 1 } contested (.ofSeed 0) = .ok a next ∧
      run { gprs := 2, fprs := 1 } (contested.filter (·.file = file)) (.ofSeed 1) = .ok a' next' ∧
      ∀ id, id ∈ (a.spilled file).map LiveInterval.id ↔ a'.slots.contains id :=
  run_spills_alike (by decide) (by decide) (by decide) (.ofSeed 0) (.ofSeed 1)

end PlanLowering.Scan
