import PlanLowering.Allocation.Spill
import PlanLowering.Proofs.Scan
import PlanLowering.Proofs.Wiring

/-!
# What the intervals of a routine say about its code

Intervals are followed while the code is traced: `Tracks` describes them after a prefix of the
code and part of the reads of the next instruction. An interval may be longer than the value is
needed, which nothing here rules out.
-/

namespace PlanLowering

namespace LiveInterval

variable {recorded : IdMap (List Register)} {pre code : List Instruction} {ids : List Id}
variable {live live' : List LiveInterval} {id : Id} {index : Nat} {i : Instruction}

theorem extend?_eq_none : extend? id index live = none ↔ id ∉ live.map LiveInterval.id := by
  induction live with
  | nil => simp [extend?]
  | cons j rest ih =>
    by_cases hj : j.id = id
    · simp [extend?, hj]
    · simp [extend?, hj, Ne.symm hj, ih]

theorem extend?_eq_some (h : extend? id index live = some live') :
    ∃ front j back, live = front ++ j :: back ∧ j.id = id ∧
      live' = front ++ { j with finish := index } :: back := by
  induction live generalizing live' with
  | nil => cases h
  | cons j rest ih =>
    by_cases hj : j.id = id
    · rw [extend?, if_pos hj, Option.some.injEq] at h
      exact ⟨[], j, rest, rfl, hj, h.symm⟩
    · rw [extend?, if_neg hj, Option.map_eq_some_iff] at h
      obtain ⟨more, hmore, rfl⟩ := h
      obtain ⟨front, k, back, rfl, hk, rfl⟩ := ih hmore
      exact ⟨j :: front, k, back, rfl, hk, rfl⟩

/-- A call destroys at least what its own instruction does. -/
theorem clobbers_subset {destroyed : List Register} (h : clobbers recorded i = .ok destroyed) :
    i.clobbers ⊆ destroyed := by
  unfold clobbers at h
  split at h
  · split at h
    · rw [except_pure_ok] at h
      exact h ▸ List.subset_append_left _ _
    · simp at h
  · rw [except_pure_ok] at h
    exact h ▸ List.Subset.refl _

/-- The intervals after `pre`, when the next instruction has read `ids` already. -/
structure Tracks (pre : List Instruction) (ids : List Id) (live : List LiveInterval) : Prop where
  nodup : (live.map LiveInterval.id).Nodup
  sorted : live.Pairwise (·.start ≤ ·.start)
  started : ∀ j ∈ live, j.start < pre.length
  proper : ∀ j ∈ live, j.start ≤ j.finish
  within : ∀ j ∈ live, j.finish ≤ pre.length
  opened : ∀ j ∈ live, ∃ i, pre[j.start]? = some i ∧ i.DefinesIn j.id j.file
  defined : ∀ k i id, pre[k]? = some i → i.Defines id →
    ∃ j ∈ live, j.id = id ∧ j.start ≤ k ∧ k ≤ j.finish
  read : ∀ k i, pre[k]? = some i → ∀ id ∈ i.virtualSources,
    ∃ j ∈ live, j.id = id ∧ j.start < k ∧ k ≤ j.finish
  reading : ∀ id ∈ ids, ∃ j ∈ live, j.id = id ∧ pre.length ≤ j.finish

theorem Tracks.initial : Tracks [] [] [] := by
  constructor <;> simp

/-- One interval reaches further, and nothing else about the list changes. -/
theorem Tracks.lengthen {front back : List LiveInterval} {j : LiveInterval}
    (h : Tracks pre ids (front ++ j :: back)) :
    Tracks pre (j.id :: ids) (front ++ { j with finish := pre.length } :: back) := by
  have hold : ∀ a ∈ front ++ { j with finish := pre.length } :: back, ∃ b ∈ front ++ j :: back,
      b.id = a.id ∧ b.file = a.file ∧ b.start = a.start ∧
        (a.finish = b.finish ∨ a.finish = pre.length) := by
    intro a ha
    rw [List.mem_append, List.mem_cons] at ha
    rcases ha with ha | rfl | ha
    · exact ⟨a, by simp [ha], rfl, rfl, rfl, .inl rfl⟩
    · exact ⟨j, by simp, rfl, rfl, rfl, .inr rfl⟩
    · exact ⟨a, by simp [ha], rfl, rfl, rfl, .inl rfl⟩
  have hnew : ∀ b ∈ front ++ j :: back, ∃ a ∈ front ++ { j with finish := pre.length } :: back,
      a.id = b.id ∧ a.start = b.start ∧ b.finish ≤ a.finish := by
    intro b hb
    have hwithin := h.within b hb
    rw [List.mem_append, List.mem_cons] at hb
    rcases hb with hb | rfl | hb
    · exact ⟨b, by simp [hb], rfl, rfl, Nat.le_refl _⟩
    · exact ⟨_, List.mem_append_right _ List.mem_cons_self, rfl, rfl, hwithin⟩
    · exact ⟨b, by simp [hb], rfl, rfl, Nat.le_refl _⟩
  constructor
  case nodup => simpa using h.nodup
  case sorted =>
    have hsorted := h.sorted
    rw [← List.pairwise_map (f := LiveInterval.start) (R := (· ≤ ·))] at hsorted ⊢
    simpa using hsorted
  case started =>
    intro a ha
    obtain ⟨b, hb, _, _, hstart, _⟩ := hold a ha
    exact hstart ▸ h.started b hb
  case proper =>
    intro a ha
    obtain ⟨b, hb, _, _, hstart, hfinish⟩ := hold a ha
    have hstarted := h.started b hb
    have hproper := h.proper b hb
    omega
  case within =>
    intro a ha
    obtain ⟨b, hb, _, _, _, hfinish⟩ := hold a ha
    have hwithin := h.within b hb
    omega
  case opened =>
    intro a ha
    obtain ⟨b, hb, hid, hfile, hstart, _⟩ := hold a ha
    exact hid ▸ hfile ▸ hstart ▸ h.opened b hb
  case defined =>
    intro k i id hi hdef
    obtain ⟨b, hb, rfl, hstart, hfinish⟩ := h.defined k i id hi hdef
    obtain ⟨a, ha, hid, hs, hf⟩ := hnew b hb
    exact ⟨a, ha, hid, by omega, by omega⟩
  case read =>
    intro k i hi id hid
    obtain ⟨b, hb, rfl, hstart, hfinish⟩ := h.read k i hi id hid
    obtain ⟨a, ha, hid, hs, hf⟩ := hnew b hb
    exact ⟨a, ha, hid, by omega, by omega⟩
  case reading =>
    intro id hid
    rcases List.mem_cons.1 hid with rfl | hid
    · exact ⟨_, List.mem_append_right _ List.mem_cons_self, rfl, Nat.le_refl _⟩
    · obtain ⟨b, hb, rfl, hfinish⟩ := h.reading id hid
      obtain ⟨a, ha, hid, _, hf⟩ := hnew b hb
      exact ⟨a, ha, hid, by omega⟩

theorem read_preserves_tracks (h : Tracks pre ids live)
    (hread : LiveInterval.read pre.length live id = .ok live') :
    Tracks pre (id :: ids) live' := by
  unfold LiveInterval.read at hread
  cases hextend : extend? id pre.length live with
  | none => simp [hextend] at hread
  | some extended =>
    rw [hextend, except_pure_ok] at hread
    subst hread
    obtain ⟨front, j, back, rfl, rfl, rfl⟩ := extend?_eq_some hextend
    exact h.lengthen

theorem reads_preserve_tracks {more : List Id} (h : Tracks pre ids live)
    (hread : more.foldlM (LiveInterval.read pre.length) live = .ok live') :
    Tracks pre (more.reverse ++ ids) live' := by
  induction more generalizing ids live with
  | nil =>
    rw [List.foldlM_nil, except_pure_ok] at hread
    exact hread ▸ h
  | cons id more ih =>
    rw [List.foldlM_cons, except_bind_ok] at hread
    obtain ⟨next, hnext, hrest⟩ := hread
    simpa using ih (read_preserves_tracks h hnext) hrest

/-- The next instruction is complete once its reads are tracked and its definition, if it has
one, has an interval, be it an old one or the `fresh` one that opens here. -/
theorem Tracks.complete {fresh : List LiveInterval} (h : Tracks pre ids live)
    (hreads : ∀ id ∈ i.virtualSources, id ∈ ids)
    (hnodup : ((live ++ fresh).map LiveInterval.id).Nodup)
    (hfresh : ∀ j ∈ fresh, j.start = pre.length ∧ j.finish = pre.length ∧
      i.DefinesIn j.id j.file)
    (hdef : ∀ id, i.Defines id → ∃ j ∈ live ++ fresh, j.id = id ∧ pre.length ≤ j.finish) :
    Tracks (pre ++ [i]) [] (live ++ fresh) := by
  have hlength : (pre ++ [i]).length = pre.length + 1 := by simp
  have hcases : ∀ k a, (pre ++ [i])[k]? = some a → pre[k]? = some a ∨ k = pre.length ∧ a = i := by
    intro k a ha
    rcases Nat.lt_trichotomy k pre.length with hk | rfl | hk
    · rw [List.getElem?_append_left hk] at ha
      exact .inl ha
    · exact .inr ⟨rfl, by simpa using ha.symm⟩
    · rw [List.getElem?_eq_none (by omega)] at ha
      cases ha
  have hbounds : ∀ j ∈ live ++ fresh, j.start ≤ pre.length ∧ j.start ≤ j.finish ∧
      j.finish ≤ pre.length := by
    intro j hj
    rcases List.mem_append.1 hj with hj | hj
    · exact ⟨Nat.le_of_lt (h.started j hj), h.proper j hj, h.within j hj⟩
    · obtain ⟨hstart, hfinish, _⟩ := hfresh j hj
      omega
  constructor
  case nodup => exact hnodup
  case sorted =>
    refine List.pairwise_append.2 ⟨h.sorted, ?_, ?_⟩
    · refine List.pairwise_of_forall_mem_list ?_
      intro j hj k hk
      exact Nat.le_of_eq ((hfresh j hj).1.trans (hfresh k hk).1.symm)
    · intro j hj k hk
      have hold := h.started j hj
      have hnew := (hfresh k hk).1
      omega
  case started =>
    intro j hj
    have hbound := hbounds j hj
    omega
  case proper => exact fun j hj => (hbounds j hj).2.1
  case within =>
    intro j hj
    have hbound := hbounds j hj
    omega
  case opened =>
    intro j hj
    rcases List.mem_append.1 hj with hj | hj
    · obtain ⟨a, ha, hdefines⟩ := h.opened j hj
      exact ⟨a, by rw [List.getElem?_append_left (h.started j hj)]; exact ha, hdefines⟩
    · obtain ⟨hstart, _, hdefines⟩ := hfresh j hj
      exact ⟨i, by simp [hstart], hdefines⟩
  case defined =>
    intro k a id ha hid
    rcases hcases k a ha with ha | ⟨rfl, rfl⟩
    · obtain ⟨j, hj, hrest⟩ := h.defined k a id ha hid
      exact ⟨j, List.mem_append_left _ hj, hrest⟩
    · obtain ⟨j, hj, rfl, hfinish⟩ := hdef id hid
      exact ⟨j, hj, rfl, (hbounds j hj).1, hfinish⟩
  case read =>
    intro k a ha id hid
    rcases hcases k a ha with ha | ⟨rfl, rfl⟩
    · obtain ⟨j, hj, hrest⟩ := h.read k a ha id hid
      exact ⟨j, List.mem_append_left _ hj, hrest⟩
    · obtain ⟨j, hj, rfl, hfinish⟩ := h.reading id (hreads id hid)
      exact ⟨j, List.mem_append_left _ hj, rfl, h.started j hj, hfinish⟩
  case reading => intro id hid; cases hid

theorem write_preserves_tracks (h : Tracks pre ids live)
    (hreads : ∀ id ∈ i.virtualSources, id ∈ ids) :
    Tracks (pre ++ [i]) [] (i.destination.toList.foldl (write pre.length) live) := by
  have hquiet (hnone : i.virtualDestination? = none) : Tracks (pre ++ [i]) [] live := by
    have hcomplete : Tracks (pre ++ [i]) [] (live ++ []) :=
      h.complete hreads (by simpa using h.nodup) (by simp) (by simp [Instruction.Defines, hnone])
    simpa using hcomplete
  cases hdest : i.destination with
  | none => exact hquiet (by simp [Instruction.virtualDestination?, hdest])
  | some op =>
    have hop : i.virtualDestination? = op.virtual? := by
      simp [Instruction.virtualDestination?, hdest]
    cases hvirtual : op.virtual? with
    | none => simpa [write, hvirtual] using hquiet (hop.trans hvirtual)
    | some id =>
      obtain ⟨file, hfile⟩ := Operand.file_of_virtual hvirtual
      have hid : ∀ id', i.Defines id' → id = id' := by
        intro id' hdefines
        rw [Instruction.Defines, hop, hvirtual] at hdefines
        exact Option.some.inj hdefines
      cases hextend : extend? id pre.length live with
      | none =>
        have hnew := extend?_eq_none.1 hextend
        simp only [Option.toList_some, List.foldl_cons, List.foldl_nil, write, hvirtual, hfile,
          hextend, Option.getD_none]
        apply h.complete hreads
        · rw [List.map_append, List.nodup_append]
          refine ⟨h.nodup, by simp, ?_⟩
          rintro a ha b hb rfl
          rw [List.map_singleton, List.mem_singleton] at hb
          subst hb
          exact hnew ha
        · intro j hj
          rw [List.mem_singleton] at hj
          subst hj
          exact ⟨rfl, rfl, op, hdest, hvirtual, hfile⟩
        · intro id' hdefines
          exact ⟨_, List.mem_append_right _ List.mem_cons_self, hid id' hdefines, Nat.le_refl _⟩
      | some extended =>
        obtain ⟨front, j, back, rfl, rfl, rfl⟩ := extend?_eq_some hextend
        simp only [Option.toList_some, List.foldl_cons, List.foldl_nil, write, hvirtual, hfile,
          hextend, Option.getD_some]
        have hlonger := h.lengthen
        generalize hextended : front ++ { j with finish := pre.length } :: back = extended
          at hlonger ⊢
        have hcomplete : Tracks (pre ++ [i]) [] (extended ++ []) := by
          apply hlonger.complete
          · exact fun id' hid' => List.mem_cons_of_mem _ (hreads id' hid')
          · simpa using hlonger.nodup
          · simp
          · intro id' hdefines
            exact ⟨{ j with finish := pre.length }, by simp [← hextended], hid id' hdefines,
              Nat.le_refl _⟩
        simpa using hcomplete

/-- Each instruction of the traced code is recorded with what it destroys. -/
theorem trace_preserves_tracks {points : List (Nat × List Register)} (h : Tracks pre [] live)
    (htrace : trace recorded pre.length live code = .ok (live', points)) :
    Tracks (pre ++ code) [] live' ∧ ∀ k i, code[k]? = some i →
      ∃ destroyed, clobbers recorded i = .ok destroyed ∧ (pre.length + k, destroyed) ∈ points := by
  induction code generalizing pre live points with
  | nil =>
    simp only [trace, except_pure_ok, Prod.mk.injEq] at htrace
    obtain ⟨rfl, rfl⟩ := htrace
    simpa using h
  | cons i rest ih =>
    simp only [trace, except_bind_ok, except_pure_ok, Prod.exists, Prod.mk.injEq] at htrace
    obtain ⟨read, hread, destroyed, hdestroyed, _, more, hrest, rfl, rfl⟩ := htrace
    have hwritten := write_preserves_tracks (i := i) (reads_preserve_tracks h hread) (by simp)
    have hlength : (pre ++ [i]).length = pre.length + 1 := by simp
    rw [← hlength] at hrest
    obtain ⟨htracks, hpoints⟩ := ih hwritten hrest
    refine ⟨by simpa using htracks, ?_⟩
    intro k a ha
    cases k with
    | zero =>
      rw [List.getElem?_cons_zero, Option.some.injEq] at ha
      exact ⟨destroyed, ha ▸ hdestroyed, List.mem_cons_self⟩
    | succ k =>
      obtain ⟨gone, hgone, hmem⟩ := hpoints k a (by simpa using ha)
      refine ⟨gone, hgone, List.mem_cons_of_mem _ ?_⟩
      rw [hlength] at hmem
      rwa [Nat.add_right_comm, Nat.add_assoc] at hmem

/-- The intervals reach over every occurrence of their ids and shun what is destroyed inside. -/
structure Describes (recorded : IdMap (List Register)) (code : List Instruction)
    (intervals : List LiveInterval) : Prop where
  ready : Scan.Ready intervals
  opened : ∀ j ∈ intervals, ∃ i, code[j.start]? = some i ∧ i.DefinesIn j.id j.file
  defined : ∀ k i id, code[k]? = some i → i.Defines id →
    ∃ j ∈ intervals, j.id = id ∧ j.start ≤ k ∧ k ≤ j.finish
  read : ∀ k i, code[k]? = some i → ∀ id ∈ i.virtualSources,
    ∃ j ∈ intervals, j.id = id ∧ j.start < k ∧ k ≤ j.finish
  known : ∀ i ∈ code, ∃ destroyed, clobbers recorded i = .ok destroyed
  shunned : ∀ j ∈ intervals, ∀ k i, code[k]? = some i → j.straddles k →
    ∀ destroyed, clobbers recorded i = .ok destroyed →
      ∀ r ∈ destroyed, r.file = j.file → r ∈ j.excluded

theorem ofCode_describes {intervals : List LiveInterval}
    (h : ofCode recorded code = .ok intervals) : Describes recorded code intervals := by
  simp only [ofCode, except_bind_ok, except_pure_ok, Prod.exists] at h
  obtain ⟨live, points, htrace, rfl⟩ := h
  obtain ⟨htracks, hpoints⟩ := trace_preserves_tracks Tracks.initial htrace
  simp only [List.nil_append, List.length_nil, Nat.zero_add] at htracks hpoints
  constructor
  case ready =>
    refine ⟨?_, ?_, ?_⟩
    · simpa [Function.comp_def, exclude] using htracks.nodup
    · simpa [exclude] using htracks.proper
    · simpa [List.pairwise_map, exclude] using htracks.sorted
  case opened => simpa [exclude] using htracks.opened
  case defined => simpa [exclude] using htracks.defined
  case read => simpa [exclude] using htracks.read
  case known =>
    intro i hi
    obtain ⟨k, hk⟩ := List.getElem?_of_mem hi
    obtain ⟨destroyed, hdestroyed, _⟩ := hpoints k i hk
    exact ⟨destroyed, hdestroyed⟩
  case shunned =>
    rintro _ hj k i hi hstraddles destroyed hdestroyed r hr hfile
    obtain ⟨j, hj, rfl⟩ := List.mem_map.1 hj
    obtain ⟨_, hsame, hmem⟩ := hpoints k i hi
    rw [hdestroyed, Except.ok.injEq] at hsame
    subst hsame
    simp only [exclude, List.mem_eraseDups, List.mem_filter, List.mem_flatMap]
    exact ⟨⟨(k, destroyed), ⟨hmem, hstraddles⟩, hr⟩, by simpa [exclude] using hfile⟩

end LiveInterval

theorem Allocation.ofCode_ok {pool : RegisterPool} {code : List Instruction} {context : Context}
    {state state' : State} {a : Allocation}
    (h : ofCode pool code context state = .ok a state') :
    a.Sound pool ∧ LiveInterval.Describes state.clobbers code a.intervals := by
  simp only [ofCode, Lower.bind_ok, Lower.get_ok, Lower.ofExcept_ok, Lower.draw_ok] at h
  obtain ⟨_, _, ⟨rfl, rfl⟩, intervals, _, ⟨hintervals, rfl⟩, source, hrun, rfl⟩ := h
  have hdescribed := LiveInterval.ofCode_describes hintervals
  obtain ⟨rfl, hsound⟩ := Scan.sound_of_run hdescribed.ready hrun
  exact ⟨hsound, hdescribed⟩

end PlanLowering
