import Mathlib.Order.Bounds.Defs
import PlanLowering.Proofs.DefinedSources

/-!
# Intervals are exact

An interval begins where its value is first defined, ends where its id occurs last, and shuns what
is destroyed strictly in between, no more and no less. Code has intervals unless it reads what is
not defined further up or calls what was not recorded, and the error names the first place where it
does. Where the intervals are put is not considered.
-/

namespace PlanLowering.LiveInterval

variable {recorded : IdMap (List Register)} {pre code rest : List Instruction} {ids : List Id}
variable {live live' : List LiveInterval} {id : Id} {index k : Nat} {i : Instruction}
variable {e e' : LoweringError} {r : Register}

/-- The id is the destination or a source of the instruction at an index. -/
def OccursAt (code : List Instruction) (k : Nat) (id : Id) : Prop :=
  ∃ i, code[k]? = some i ∧ (i.Defines id ∨ id ∈ i.virtualSources)

/-- The instruction destroys the register, or it is a call and its callee does. -/
def Destroys (recorded : IdMap (List Register)) (i : Instruction) (r : Register) : Prop :=
  r ∈ i.clobbers ∨
    ∃ target callee, i.form = .call target ∧ recorded.get? target = some callee ∧ r ∈ callee

/-- The intervals of the code, as they can be read off it. -/
structure Exact (recorded : IdMap (List Register)) (code : List Instruction)
    (intervals : List LiveInterval) : Prop where
  ids : (intervals.map LiveInterval.id).Nodup
  defined : ∀ id, id ∈ intervals.map LiveInterval.id ↔ DefinedBy code id
  rising : intervals.Pairwise (·.start < ·.start)
  first : ∀ j ∈ intervals, IsLeast {k | ∃ i, code[k]? = some i ∧ i.Defines j.id} j.start
  file : ∀ j ∈ intervals, ∃ i, code[j.start]? = some i ∧ i.DefinesIn j.id j.file
  last : ∀ j ∈ intervals, IsGreatest {k | OccursAt code k j.id} j.finish
  unrepeated : ∀ j ∈ intervals, j.excluded.Nodup
  excluded : ∀ j ∈ intervals, ∀ r, r ∈ j.excluded ↔ r.file = j.file ∧
    ∃ k i, j.start < k ∧ k < j.finish ∧ code[k]? = some i ∧ Destroys recorded i r

/-- What is wrong with the instruction at an index. A source that is not defined further up comes
before a callee that was not recorded. -/
inductive Fault (recorded : IdMap (List Register)) (code : List Instruction) (k : Nat) :
    LoweringError → Prop where
  | undefined {i front id back} (hi : code[k]? = some i)
      (hsources : i.virtualSources = front ++ id :: back)
      (hfront : ∀ key ∈ front, DefinedBy (code.take k) key)
      (hid : ¬ DefinedBy (code.take k) id) : Fault recorded code k (.useBeforeDef id k)
  | unknown {i target} (hi : code[k]? = some i)
      (hsources : ∀ key ∈ i.virtualSources, DefinedBy (code.take k) key)
      (hform : i.form = .call target) (hnone : recorded.get? target = none) :
      Fault recorded code k (.unknownFunction target)

/-- The error is about the first instruction that something is wrong with. -/
def FirstFault (recorded : IdMap (List Register)) (code : List Instruction) (e : LoweringError) :
    Prop :=
  ∃ k, Fault recorded code k e ∧ ∀ m < k, ∀ e', ¬ Fault recorded code m e'

section Faults

open Classical in
theorem find?_undefined {known : Id → Prop} :
    ids.find? (fun id => ¬ known id) = some id ↔
      ∃ front back, ids = front ++ id :: back ∧ (∀ key ∈ front, known key) ∧ ¬ known id := by
  rw [List.find?_eq_some_iff_append]
  simp only [decide_eq_true_eq, Bool.not_eq_true', decide_eq_false_iff_not, not_not]
  constructor
  · rintro ⟨hid, front, back, hids, hfront⟩
    exact ⟨front, back, hids, hfront, hid⟩
  · rintro ⟨front, back, hids, hfront, hid⟩
    exact ⟨hid, front, back, hids, hfront⟩

/-- Something is wrong with an instruction if it reads what is not defined further up, or calls
what was not recorded. -/
theorem exists_fault : (∃ e, Fault recorded code k e) ↔ ∃ i, code[k]? = some i ∧
    ((∃ id ∈ i.virtualSources, ¬ DefinedBy (code.take k) id) ∨
      ∃ target, i.form = .call target ∧ recorded.get? target = none) := by
  classical
  constructor
  · rintro ⟨e, hfault⟩
    cases hfault with
    | undefined hi hsources hfront hid => exact ⟨_, hi, .inl ⟨_, by simp [hsources], hid⟩⟩
    | unknown hi hsources hform hnone => exact ⟨_, hi, .inr ⟨_, hform, hnone⟩⟩
  · rintro ⟨i, hi, hwrong⟩
    by_cases hsources : ∀ key ∈ i.virtualSources, DefinedBy (code.take k) key
    · rcases hwrong with ⟨id, hid, hundefined⟩ | ⟨target, hform, hnone⟩
      · exact absurd (hsources id hid) hundefined
      · exact ⟨_, .unknown hi hsources hform hnone⟩
    · push Not at hsources
      obtain ⟨key, hkey, hundefined⟩ := hsources
      have hfound : (i.virtualSources.find? fun id => ¬ DefinedBy (code.take k) id).isSome :=
        List.find?_isSome.2 ⟨key, hkey, by simpa using hundefined⟩
      obtain ⟨id, hfind⟩ := Option.isSome_iff_exists.1 hfound
      obtain ⟨front, back, hsplit, hfront, hid⟩ := find?_undefined.1 hfind
      exact ⟨_, .undefined hi hsplit hfront hid⟩

theorem Fault.unique (h : Fault recorded code k e) (h' : Fault recorded code k e') : e = e' := by
  classical
  cases h with
  | undefined hi hsources hfront hid =>
    cases h' with
    | undefined hi' hsources' hfront' hid' =>
      obtain rfl := Option.some.inj (hi.symm.trans hi')
      have hfind := find?_undefined.2 ⟨_, _, hsources, hfront, hid⟩
      have hfind' := find?_undefined.2 ⟨_, _, hsources', hfront', hid'⟩
      rw [Option.some.inj (hfind.symm.trans hfind')]
    | unknown hi' hsources' _ _ =>
      obtain rfl := Option.some.inj (hi.symm.trans hi')
      exact absurd (hsources' _ (by simp [hsources])) hid
  | unknown hi hsources hform _ =>
    cases h' with
    | undefined hi' hsources' _ hid' =>
      obtain rfl := Option.some.inj (hi.symm.trans hi')
      exact absurd (hsources _ (by simp [hsources'])) hid'
    | unknown hi' _ hform' _ =>
      obtain rfl := Option.some.inj (hi.symm.trans hi')
      rw [hform] at hform'
      rw [InstructionForm.call.inj hform']

theorem FirstFault.unique (h : FirstFault recorded code e) (h' : FirstFault recorded code e') :
    e = e' := by
  obtain ⟨k, hfault, hfirst⟩ := h
  obtain ⟨m, hfault', hfirst'⟩ := h'
  rcases Nat.lt_trichotomy k m with hlt | rfl | hlt
  · exact absurd hfault (hfirst' k hlt e)
  · exact hfault.unique hfault'
  · exact absurd hfault' (hfirst m hlt e')

end Faults

section Errors

theorem mem_ids_iff
    (hopened : ∀ j ∈ live, ∃ i, code[j.start]? = some i ∧ i.DefinesIn j.id j.file)
    (hdefined : ∀ k i id, code[k]? = some i → i.Defines id →
      ∃ j ∈ live, j.id = id ∧ j.start ≤ k ∧ k ≤ j.finish) :
    id ∈ live.map LiveInterval.id ↔ DefinedBy code id := by
  constructor
  · intro hid
    obtain ⟨j, hj, rfl⟩ := List.mem_map.1 hid
    obtain ⟨i, hi, hdefines⟩ := hopened j hj
    exact ⟨i, List.mem_of_getElem? hi, hdefines.defines⟩
  · rintro ⟨i, hi, hdefines⟩
    obtain ⟨k, hk⟩ := List.getElem?_of_mem hi
    obtain ⟨j, hj, rfl, _⟩ := hdefined k i id hk hdefines
    exact List.mem_map_of_mem hj

theorem Tracks.defined_iff (h : Tracks pre ids live) :
    id ∈ live.map LiveInterval.id ↔ DefinedBy pre id := mem_ids_iff h.opened h.defined

theorem reads_error (h : ids.foldlM (LiveInterval.read index) live = .error e) :
    ∃ front id back, ids = front ++ id :: back ∧ (∀ key ∈ front, key ∈ live.map LiveInterval.id) ∧
      id ∉ live.map LiveInterval.id ∧ e = .useBeforeDef id index := by
  induction ids generalizing live with
  | nil => cases h
  | cons id ids ih =>
    by_cases hid : id ∈ live.map LiveInterval.id
    · obtain ⟨next, hnext, hsame⟩ := read_known index hid
      rw [List.foldlM_cons, hnext] at h
      obtain ⟨front, key, back, rfl, hfront, hkey, rfl⟩ := ih h
      rw [hsame] at hfront hkey
      exact ⟨id :: front, key, back, rfl, List.forall_mem_cons.2 ⟨hid, hfront⟩, hkey, rfl⟩
    · have hread : LiveInterval.read index live id = .error (.useBeforeDef id index) := by
        rw [LiveInterval.read, extend?_eq_none.2 hid]
        rfl
      rw [List.foldlM_cons, hread] at h
      cases h
      exact ⟨[], id, ids, rfl, by simp, hid, rfl⟩

/-- An error of the trace is about the first fault, given that nothing was wrong further up. -/
theorem trace_fault (htracks : Tracks pre [] live)
    (hpast : ∀ m < pre.length, ∀ e', ¬ Fault recorded (pre ++ code) m e')
    (h : trace recorded pre.length live code = .error e) :
    FirstFault recorded (pre ++ code) e := by
  induction code generalizing pre live with
  | nil => cases h
  | cons i rest ih =>
    have hi : (pre ++ i :: rest)[pre.length]? = some i := by simp
    have htake : (pre ++ i :: rest).take pre.length = pre := List.take_left
    simp only [trace, except_bind_error, except_pure_error, and_false, exists_false,
      or_false] at h
    rcases h with hreads | ⟨read, hread, hrest⟩
    · obtain ⟨front, id, back, hsources, hfront, hid, rfl⟩ := reads_error hreads
      rw [htracks.defined_iff] at hid
      refine ⟨pre.length, .undefined hi hsources (fun key hkey => ?_) (by rwa [htake]), hpast⟩
      rw [htake]
      exact htracks.defined_iff.1 (hfront key hkey)
    · have htracks' := reads_preserve_tracks htracks hread
      have hsources : ∀ key ∈ i.virtualSources, DefinedBy pre key := by
        intro key hkey
        obtain ⟨j, hj, rfl, _⟩ := htracks'.reading key (by simpa using hkey)
        exact htracks'.defined_iff.1 (List.mem_map_of_mem hj)
      rcases hrest with hclobbers | ⟨destroyed, hdestroyed, htrace⟩
      · obtain ⟨target, hform, hnone, rfl⟩ := clobbers_error hclobbers
        exact ⟨pre.length, .unknown hi (by rwa [htake]) hform hnone, hpast⟩
      · have hwritten := write_preserves_tracks (i := i) htracks' (by simp)
        have hlength : (pre ++ [i]).length = pre.length + 1 := by simp
        rw [← hlength] at htrace
        rw [List.append_cons] at hi htake hpast ⊢
        refine ih hwritten (fun m hm e' hfault => ?_) htrace
        rcases Nat.lt_succ_iff_lt_or_eq.1 (hlength ▸ hm) with hlt | rfl
        · exact hpast m hlt e' hfault
        -- Its reads and its callee have been found, so nothing is wrong with this instruction.
        · obtain ⟨i', hi', hwrong⟩ := exists_fault.1 ⟨e', hfault⟩
          obtain rfl := Option.some.inj (hi.symm.trans hi')
          rw [htake] at hwrong
          rcases hwrong with ⟨id, hid, hundefined⟩ | ⟨target, hform, hnone⟩
          · exact hundefined (hsources id hid)
          · simp [clobbers, hform, hnone] at hdestroyed

end Errors

section Reached

theorem extend?_reaches (h : ∀ j ∈ live, OccursAt code j.finish j.id)
    (hoccurs : OccursAt code index id) (hextend : extend? id index live = some live') :
    ∀ j ∈ live', OccursAt code j.finish j.id := by
  obtain ⟨front, j, back, rfl, rfl, rfl⟩ := extend?_eq_some hextend
  intro a ha
  rw [List.mem_append, List.mem_cons] at ha
  rcases ha with ha | rfl | ha
  · exact h a (by simp [ha])
  · exact hoccurs
  · exact h a (by simp [ha])

theorem reads_reach (h : ∀ j ∈ live, OccursAt code j.finish j.id)
    (hoccurs : ∀ id ∈ ids, OccursAt code index id)
    (hreads : ids.foldlM (LiveInterval.read index) live = .ok live') :
    ∀ j ∈ live', OccursAt code j.finish j.id := by
  induction ids generalizing live with
  | nil =>
    rw [List.foldlM_nil, except_pure_ok] at hreads
    exact hreads ▸ h
  | cons id ids ih =>
    obtain ⟨hid, hrest⟩ := List.forall_mem_cons.1 hoccurs
    rw [List.foldlM_cons, except_bind_ok] at hreads
    obtain ⟨next, hread, hreads⟩ := hreads
    refine ih ?_ hrest hreads
    unfold LiveInterval.read at hread
    cases hextend : extend? id index live with
    | none => simp [hextend] at hread
    | some extended =>
      rw [hextend, except_pure_ok] at hread
      exact hread ▸ extend?_reaches h hid hextend

theorem write_reaches (h : ∀ j ∈ live, OccursAt code j.finish j.id) (hi : code[index]? = some i) :
    ∀ j ∈ i.destination.toList.foldl (write index) live, OccursAt code j.finish j.id := by
  cases hdest : i.destination with
  | none => exact h
  | some op =>
    rw [Option.toList_some, List.foldl_cons, List.foldl_nil]
    unfold write
    split
    · next id file hid _ =>
      have hdefines : i.Defines id := by
        rw [Instruction.Defines, Instruction.virtualDestination?, hdest]
        exact hid
      have hoccurs : OccursAt code index id := ⟨i, hi, .inl hdefines⟩
      cases hextend : extend? id index live with
      | none =>
        intro j hj
        rcases List.mem_append.1 hj with hj | hj
        · exact h j hj
        · rw [List.mem_singleton.1 hj]
          exact hoccurs
      | some extended => exact extend?_reaches h hoccurs hextend
    · exact h

/-- The trace ends every interval at an occurrence, and records nothing but what is destroyed. -/
theorem trace_reaches {points : List (Nat × List Register)}
    (h : ∀ j ∈ live, OccursAt (pre ++ code) j.finish j.id)
    (htrace : trace recorded pre.length live code = .ok (live', points)) :
    (∀ j ∈ live', OccursAt (pre ++ code) j.finish j.id) ∧
      ∀ p ∈ points, ∃ i, (pre ++ code)[p.1]? = some i ∧ clobbers recorded i = .ok p.2 := by
  induction code generalizing pre live points with
  | nil =>
    simp only [trace, except_pure_ok, Prod.mk.injEq] at htrace
    obtain ⟨rfl, rfl⟩ := htrace
    exact ⟨h, by simp⟩
  | cons i rest ih =>
    have hi : (pre ++ i :: rest)[pre.length]? = some i := by simp
    simp only [trace, except_bind_ok, except_pure_ok, Prod.exists, Prod.mk.injEq] at htrace
    obtain ⟨read, hread, destroyed, hdestroyed, _, more, hrest, rfl, rfl⟩ := htrace
    have hread := reads_reach h (fun id hid => ⟨i, hi, .inr hid⟩) hread
    have hwritten := write_reaches hread hi
    have hlength : (pre ++ [i]).length = pre.length + 1 := by simp
    rw [← hlength] at hrest
    rw [List.append_cons] at hwritten hi ⊢
    obtain ⟨hlive, hpoints⟩ := ih hwritten hrest
    exact ⟨hlive, List.forall_mem_cons.2 ⟨⟨i, hi, hdestroyed⟩, hpoints⟩⟩

end Reached

theorem mem_clobbers {destroyed : List Register} (h : clobbers recorded i = .ok destroyed) :
    r ∈ destroyed ↔ Destroys recorded i r := by
  unfold clobbers at h
  unfold Destroys
  split at h
  · next target hform =>
    split at h
    · next callee hcallee =>
      rw [except_pure_ok] at h
      simp [← h, hform, hcallee]
    · cases h
  · next hform =>
    rw [except_pure_ok] at h
    rw [← h]
    refine (or_iff_left ?_).symm
    rintro ⟨target, callee, hcall, _⟩
    exact hform target hcall

theorem nodup_eraseDups {α : Type} [BEq α] [LawfulBEq α] (l : List α) : l.eraseDups.Nodup := by
  induction hlength : l.length using Nat.strong_induction_on generalizing l with
  | _ n ih =>
    cases l with
    | nil => simp
    | cons a l =>
      rw [List.eraseDups_cons, List.nodup_cons]
      refine ⟨by simp [List.mem_eraseDups], ih _ ?_ _ rfl⟩
      have hle := List.length_filter_le (fun b => !b == a) l
      simp only [List.length_cons] at hlength
      omega

/-- Two values do not start at one instruction, which has only one destination. -/
theorem Describes.rising {intervals : List LiveInterval}
    (h : Describes recorded code intervals) : intervals.Pairwise (·.start < ·.start) := by
  have hids := List.pairwise_map.1 h.ready.ids
  refine (h.ready.sorted.and hids).imp_of_mem fun {a b} ha hb hpair => ?_
  obtain ⟨hle, hne⟩ := hpair
  apply Nat.lt_of_le_of_ne hle
  intro hstart
  obtain ⟨i, hi, hdefines⟩ := h.opened a ha
  obtain ⟨i', hi', hdefines'⟩ := h.opened b hb
  rw [← hstart] at hi'
  obtain rfl := Option.some.inj (hi.symm.trans hi')
  exact hne (Option.some.inj (hdefines.defines.symm.trans hdefines'.defines))

theorem Describes.eq_of_id {intervals : List LiveInterval} (h : Describes recorded code intervals)
    {a b : LiveInterval} (ha : a ∈ intervals) (hb : b ∈ intervals) (hid : a.id = b.id) : a = b :=
  List.inj_on_of_nodup_map h.ready.ids ha hb hid

theorem ofCode_reads_off {intervals : List LiveInterval}
    (h : ofCode recorded code = .ok intervals) : Exact recorded code intervals := by
  have hdescribes := ofCode_describes h
  simp only [ofCode, except_bind_ok, except_pure_ok, Prod.exists] at h
  obtain ⟨live, points, htrace, rfl⟩ := h
  have hstart : ∀ j ∈ ([] : List LiveInterval), OccursAt ([] ++ code) j.finish j.id := by simp
  obtain ⟨hreached, hpoints⟩ := trace_reaches hstart htrace
  rw [List.nil_append] at hreached hpoints
  constructor
  case ids => exact hdescribes.ready.ids
  case defined => exact fun id => mem_ids_iff hdescribes.opened hdescribes.defined
  case rising => exact hdescribes.rising
  case first =>
    intro j hj
    obtain ⟨i, hi, hdefines⟩ := hdescribes.opened j hj
    refine ⟨⟨i, hi, hdefines.defines⟩, ?_⟩
    rintro k ⟨i', hi', hdefines'⟩
    obtain ⟨j', hj', hid, hstart, _⟩ := hdescribes.defined k i' j.id hi' hdefines'
    exact hdescribes.eq_of_id hj' hj hid ▸ hstart
  case file => exact hdescribes.opened
  case last =>
    intro j hj
    constructor
    · obtain ⟨j', hj', rfl⟩ := List.mem_map.1 hj
      exact hreached j' hj'
    · rintro k ⟨i, hi, hdefines | hreads⟩
      · obtain ⟨j', hj', hid, _, hfinish⟩ := hdescribes.defined k i j.id hi hdefines
        exact hdescribes.eq_of_id hj' hj hid ▸ hfinish
      · obtain ⟨j', hj', hid, _, hfinish⟩ := hdescribes.read k i hi j.id hreads
        exact hdescribes.eq_of_id hj' hj hid ▸ hfinish
  case unrepeated =>
    intro j hj
    obtain ⟨j', _, rfl⟩ := List.mem_map.1 hj
    exact nodup_eraseDups _
  case excluded =>
    intro j hj r
    constructor
    · intro hr
      obtain ⟨j', hj', rfl⟩ := List.mem_map.1 hj
      simp only [exclude, List.mem_eraseDups, List.mem_filter, List.mem_flatMap,
        decide_eq_true_eq] at hr
      obtain ⟨⟨p, ⟨hp, hstraddles⟩, hr⟩, hfile⟩ := hr
      obtain ⟨i, hi, hdestroyed⟩ := hpoints p hp
      simp only [straddles, Bool.and_eq_true, decide_eq_true_eq] at hstraddles
      exact ⟨hfile, p.1, i, hstraddles.1, hstraddles.2, hi, (mem_clobbers hdestroyed).1 hr⟩
    · rintro ⟨hfile, k, i, hstart, hfinish, hi, hdestroys⟩
      obtain ⟨destroyed, hdestroyed⟩ := hdescribes.known i (List.mem_of_getElem? hi)
      have hstraddles : j.straddles k := by simp [straddles, hstart, hfinish]
      exact hdescribes.shunned j hj k i hi hstraddles destroyed hdestroyed r
        ((mem_clobbers hdestroyed).2 hdestroys) hfile

theorem ofCode_fault (h : ofCode recorded code = .error e) : FirstFault recorded code e := by
  simp only [ofCode, except_bind_error, except_pure_error, and_false, exists_false,
    or_false] at h
  have hfirst := trace_fault Tracks.initial (by simp) h
  simpa using hfirst

theorem Fault.fails (h : Fault recorded code k e) : ∃ e', ofCode recorded code = .error e' := by
  cases hcode : ofCode recorded code with
  | error e' => exact ⟨e', rfl⟩
  | ok intervals =>
    have hdescribes := ofCode_describes hcode
    obtain ⟨i, hi, hwrong⟩ := exists_fault.1 ⟨e, h⟩
    rcases hwrong with ⟨id, hid, hundefined⟩ | ⟨target, hform, hnone⟩
    · obtain ⟨j, hj, rfl, hstart, _⟩ := hdescribes.read k i hi id hid
      obtain ⟨i', hi', hdefines⟩ := hdescribes.opened j hj
      refine absurd ⟨i', ?_, hdefines.defines⟩ hundefined
      exact List.mem_of_getElem? ((List.getElem?_take_of_lt hstart).trans hi')
    · obtain ⟨destroyed, hdestroyed⟩ := hdescribes.known i (List.mem_of_getElem? hi)
      simp [clobbers, hform, hnone] at hdestroyed

/-- Code has no intervals where one of its instructions reads what is not defined further up or
calls what was not recorded, and the error is about the first such instruction. Otherwise the
intervals are what can be read off the code. -/
theorem ofCode_exact (recorded : IdMap (List Register)) (code : List Instruction) :
    ((∃ e, ofCode recorded code = .error e) ↔ ∃ k i, code[k]? = some i ∧
      ((∃ id ∈ i.virtualSources, ¬ DefinedBy (code.take k) id) ∨
        ∃ target, i.form = .call target ∧ recorded.get? target = none)) ∧
    (∀ e, ofCode recorded code = .error e ↔ FirstFault recorded code e) ∧
    ∀ intervals, ofCode recorded code = .ok intervals → Exact recorded code intervals := by
  refine ⟨?_, fun e => ?_, fun intervals => ofCode_reads_off⟩
  · constructor
    · rintro ⟨e, h⟩
      obtain ⟨k, hfault, _⟩ := ofCode_fault h
      exact ⟨k, exists_fault.1 ⟨e, hfault⟩⟩
    · rintro ⟨k, hwrong⟩
      obtain ⟨e, hfault⟩ := exists_fault.2 hwrong
      exact hfault.fails
  · constructor
    · exact ofCode_fault
    · intro hfirst
      obtain ⟨e', h⟩ := hfirst.choose_spec.1.fails
      rw [h, (ofCode_fault h).unique hfirst]

/-- A value that a call stands in front of the only use of, and another that the use redefines. -/
def straddledCode : List Instruction :=
  [{ id := "a", name := "li", category := .pseudo,
     destination := some { slot := .rd, type := .register .gpr, value := .virtual "a" } },
   { id := "s", name := "li", category := .pseudo,
     destination := some { slot := .rd, type := .register .gpr, value := .virtual "s" } },
   { id := "call", name := "jalr", category := .jump, clobbers := [.ra],
     form := .call "callee" },
   { id := "sum", name := "add", category := .arithmetic,
     destination := some { slot := .rd, type := .register .gpr, value := .virtual "s" },
     sources := [{ slot := .rs1, type := .register .gpr, value := .virtual "s" },
       { slot := .rs2, type := .register .gpr, value := .virtual "a" }] }]

/-- Without what its callee destroys, the call is at fault. -/
example : ofCode {} straddledCode = .error (.unknownFunction "callee") := by decide

theorem ofCode_straddledCode_exact : ∃ intervals,
    ofCode (IdMap.insert {} "callee" [.t1]) straddledCode = .ok intervals ∧
      intervals.map LiveInterval.excluded = [[.ra, .t1], [.ra, .t1]] ∧
      Exact (IdMap.insert {} "callee" [.t1]) straddledCode intervals :=
  ⟨_, rfl, by decide, (ofCode_exact _ straddledCode).2.2 _ rfl⟩

end PlanLowering.LiveInterval
