import Mathlib.Data.List.InsertIdx
import Mathlib.Order.Monotone.Basic
import PlanLowering.Proofs.RenumberedLegal
import PlanLowering.Proofs.StepRenaming

/-!
# Allocation in lockstep

Linear scan compares ids for equality and indices by their order, and the draw depends on neither.
Under other names for the ids, and with the indices moved apart, it makes the same choices. A comment
takes an index, and nothing lives or is destroyed there.
-/

namespace PlanLowering

open Lower (Lockstep)

namespace IdMap

variable {α : Type} {f : Id → Id}

def mapKeys (f : Id → Id) (hf : Function.Injective f) (m : IdMap α) : IdMap α where
  entries := m.entries.map (Prod.map f id)
  nodup := by
    have hkeys : (m.entries.map (Prod.map f id)).map Prod.fst = (m.entries.map Prod.fst).map f := by
      simp
    rw [hkeys]
    exact m.nodup.map hf

variable (hf : Function.Injective f) (m : IdMap α) (key : Id) (value : α)

@[simp] theorem size_mapKeys : (m.mapKeys f hf).size = m.size := by
  simp [size, mapKeys]

@[simp] theorem get?_mapKeys : (m.mapKeys f hf).get? (f key) = m.get? key := by
  have hlookup (entries : List (Id × α)) :
      (entries.map (Prod.map f id)).lookup (f key) = entries.lookup key := by
    induction entries with
    | nil => rfl
    | cons entry rest ih =>
      obtain ⟨k, value⟩ := entry
      by_cases h : key = k
      · simp [h]
      · simp [List.lookup_cons, beq_false_of_ne h, beq_false_of_ne (hf.ne h), ih]
  exact hlookup m.entries

theorem mapKeys_insert :
    (m.insert key value).mapKeys f hf = (m.mapKeys f hf).insert (f key) value := by
  have hput (entries : List (Id × α)) : (put key value entries).map (Prod.map f id) =
      put (f key) value (entries.map (Prod.map f id)) := by
    induction entries with
    | nil => rfl
    | cons entry rest ih =>
      simp only [List.map_cons, put, Prod.map_fst, hf.eq_iff]
      split
      · rfl
      · rw [List.map_cons, ih]
  simp only [insert, mapKeys, hput]

theorem mapKeys_erase : (m.erase key).mapKeys f hf = (m.mapKeys f hf).erase (f key) := by
  have hfilter : (m.entries.filter fun entry => entry.1 ≠ key).map (Prod.map f id) =
      (m.entries.map (Prod.map f id)).filter fun entry => entry.1 ≠ f key := by
    rw [List.filter_map]
    congr 1
    refine List.filter_congr fun entry _ => ?_
    simp [hf.eq_iff]
  simp only [erase, mapKeys, hfilter]

end IdMap

structure Shift where
  name : Id → Id
  name_injective : Function.Injective name
  index : Nat → Nat
  index_mono : StrictMono index

namespace Shift

variable (f : Shift)

def interval (i : LiveInterval) : LiveInterval :=
  { i with id := f.name i.id, start := f.index i.start, finish := f.index i.finish }

def point (p : Nat × List Register) : Nat × List Register := (f.index p.1, p.2)

def map {α : Type} (m : IdMap α) : IdMap α := m.mapKeys f.name f.name_injective

def scan (s : Scan) : Scan where
  active := s.active.map f.interval
  registers := f.map s.registers
  slots := f.map s.slots

def allocation (a : Allocation) : Allocation where
  intervals := a.intervals.map f.interval
  registers := f.map a.registers
  slots := f.map a.slots

end Shift

section Intervals

namespace LiveInterval

variable (f : Shift) {recorded : IdMap (List Register)} {live : List LiveInterval} {index : Nat}

theorem extend?_shift (id : Id) (index : Nat) (live : List LiveInterval) :
    extend? (f.name id) (f.index index) (live.map f.interval) =
      (extend? id index live).map (List.map f.interval) := by
  induction live with
  | nil => rfl
  | cons j rest ih =>
    have hid : (f.interval j).id = f.name id ↔ j.id = id := f.name_injective.eq_iff
    rw [List.map_cons, extend?, extend?]
    by_cases h : j.id = id
    · rw [if_pos h, if_pos (hid.2 h)]
      rfl
    · rw [if_neg h, if_neg (h ∘ hid.1), ih, Option.map_map, Option.map_map]
      rfl

theorem read_shift (live : List LiveInterval) (id : Id) :
    (read (f.index index) (live.map f.interval) (f.name id)).toOption =
      (read index live id).toOption.map (List.map f.interval) := by
  unfold read
  rw [extend?_shift]
  cases extend? id index live <;> rfl

theorem write_shift (live : List LiveInterval) (op : Operand) :
    write (f.index index) (live.map f.interval) (op.mapId f.name) =
      (write index live op).map f.interval := by
  unfold write
  rw [Operand.virtual?_mapId, Operand.type_mapId]
  cases op.virtual? with
  | none => rfl
  | some id =>
    cases op.type.file? with
    | none => rfl
    | some file =>
      simp only [Option.map_some, extend?_shift]
      cases extend? id index live with
      | none => simp [Shift.interval]
      | some more => rfl

theorem exclude_shift (points : List (Nat × List Register)) (interval : LiveInterval) :
    exclude (points.map f.point) (f.interval interval) = f.interval (exclude points interval) := by
  have hpoints : ((points.map f.point).filter fun point =>
      (f.interval interval).straddles point.1).flatMap Prod.snd =
        (points.filter fun point => interval.straddles point.1).flatMap Prod.snd := by
    rw [List.filter_map, List.flatMap_map]
    congr 1
    refine List.filter_congr fun point _ => ?_
    simp [straddles, Shift.interval, Shift.point, f.index_mono.lt_iff_lt]
  unfold exclude
  rw [hpoints]
  rfl

theorem reads_shift (ids : List Id) (live : List LiveInterval) :
    ((ids.map f.name).foldlM (read (f.index index)) (live.map f.interval)).toOption =
      (ids.foldlM (read index) live).toOption.map (List.map f.interval) := by
  induction ids generalizing live with
  | nil => rfl
  | cons id rest ih =>
    rw [List.map_cons, List.foldlM_cons, List.foldlM_cons]
    exact toOption_bind_map (read_shift f live id) ih

theorem trace_shift {xs ys : List Instruction} {index' : Nat}
    (h : List.Forall₂ (Instruction.Renumbered f.name) xs ys)
    (hindex : ∀ k, k < xs.length → f.index (index + k) = index' + k) (live : List LiveInterval) :
    (trace recorded index' (live.map f.interval) ys).toOption =
      (trace recorded index live xs).toOption.map
        fun x => (x.1.map f.interval, x.2.map f.point) := by
  induction h generalizing index index' live with
  | nil => rfl
  | @cons i i' rest rest' hi _ ih =>
    have hsame := hi.same
    have hstart : index' = f.index index := (hindex 0 (by simp)).symm
    have hrest : ∀ k, k < rest.length → f.index (index + 1 + k) = index' + 1 + k := fun k hk => by
      have hnext := hindex (k + 1) (by simpa using hk)
      rwa [Nat.add_right_comm index, Nat.add_right_comm index']
    have hsources : i'.virtualSources = i.virtualSources.map f.name := by
      rw [hsame, Instruction.virtualSources_mapIds]
    have hclobbers : clobbers recorded i' = clobbers recorded i := by rw [hsame]; rfl
    rw [trace, trace, hsources, hclobbers, hstart]
    refine toOption_bind_map (reads_shift f i.virtualSources live) fun live => ?_
    have hwrite : i'.destination.toList.foldl (write (f.index index)) (live.map f.interval) =
        (i.destination.toList.foldl (write index) live).map f.interval := by
      rw [hsame]
      show (i.destination.map (Operand.mapId f.name)).toList.foldl _ _ = _
      cases i.destination with
      | none => rfl
      | some op => exact write_shift f live op
    simp only [hwrite]
    refine toOption_bind_map (g := fun x => x) (Option.map_id').symm fun destroyed => ?_
    rw [← hstart]
    refine toOption_bind_map (ih hrest _) fun x => ?_
    simp [Shift.point, hstart]

theorem trace_append (index : Nat) (live : List LiveInterval) (xs ys : List Instruction) :
    trace recorded index live (xs ++ ys) = do
      let x ← trace recorded index live xs
      let y ← trace recorded (index + xs.length) x.1 ys
      return (y.1, x.2 ++ y.2) := by
  induction xs generalizing index live with
  | nil => simp [trace]
  | cons i rest ih => simp [trace, ih, Nat.add_assoc, Nat.add_comm 1]

theorem exclude_idle {points idle more : List (Nat × List Register)} (h : ∀ point ∈ idle, point.2 = [])
    (interval : LiveInterval) :
    exclude (points ++ idle ++ more) interval = exclude (points ++ more) interval := by
  have hidle : (idle.filter fun point => interval.straddles point.1).flatMap Prod.snd = [] := by
    rw [List.flatMap_eq_nil_iff]
    exact fun point hpoint => h point (List.mem_of_mem_filter hpoint)
  unfold exclude
  simp [List.filter_append, hidle]

theorem trace_notes (m index : Nat) (live : List LiveInterval) (text : Option String) :
    trace recorded index live (Instruction.notes m text) =
      pure (live, (Instruction.notes m text).map fun _ => (index, [])) := by
  cases text <;> rfl

end LiveInterval

end Intervals

section Scan

variable (f : Shift) {pool : RegisterPool} (scan : Scan) (current other : LiveInterval)

namespace Scan

theorem expire_shift (start : Nat) :
    (f.scan scan).expire (f.index start) = f.scan (scan.expire start) := by
  have hactive : (scan.active.map f.interval).filter (fun interval => f.index start ≤ interval.finish) =
      (scan.active.filter fun interval => start ≤ interval.finish).map f.interval := by
    rw [List.filter_map]
    congr 1
    refine List.filter_congr fun interval _ => ?_
    simp [Shift.interval, f.index_mono.le_iff_le]
  simp only [expire, Shift.scan, hactive]

theorem assign_shift (r : Register) :
    (f.scan scan).assign (f.interval current) r = f.scan (scan.assign current r) := by
  simp only [assign, Shift.scan, Shift.map, IdMap.mapKeys_insert, List.map_append, List.map_cons,
    List.map_nil]
  rfl

theorem toStack_shift (id : Id) : (f.scan scan).toStack (f.name id) = f.scan (scan.toStack id) := by
  simp only [toStack, Shift.scan, Shift.map, IdMap.mapKeys_insert, IdMap.size_mapKeys]

theorem register_shift (id : Id) :
    (f.scan scan).registers.get? (f.name id) = scan.registers.get? id :=
  IdMap.get?_mapKeys f.name_injective scan.registers id

theorem usable?_shift : (f.scan scan).usable? pool (f.interval current) (f.interval other) =
    scan.usable? pool current other := by
  have hregister := register_shift f scan other.id
  unfold usable?
  rw [show (f.interval other).id = f.name other.id from rfl, hregister]
  rfl

theorem victim?_shift : (f.scan scan).victim? pool (f.interval current) =
    (scan.victim? pool current).map fun v => (f.interval v.1, v.2) := by
  have hactive : (f.scan scan).active.zipIdx =
      scan.active.zipIdx.map fun v => (f.interval v.1, v.2) := by
    show (scan.active.map f.interval).zipIdx = _
    rw [List.zipIdx_map]
    rfl
  unfold victim?
  rw [hactive, List.filter_map, List.foldl_map]
  simp only [Function.comp_def, usable?_shift]
  symm
  refine (List.foldl_hom (Option.map fun v : LiveInterval × Nat => (f.interval v.1, v.2))
    fun best other => ?_).symm
  cases best with
  | none => rfl
  | some v =>
    have hlater : (f.interval other.1).finish < (f.interval v.1).finish ↔ other.1.finish < v.1.finish :=
      f.index_mono.lt_iff_lt
    simp only [Option.map_some, hlater]
    split <;> rfl

theorem evict_shift (victim : LiveInterval) (position : Nat) :
    (f.scan scan).evict (f.interval victim) position = f.scan (scan.evict victim position) := by
  have hactive : (f.scan scan).active.eraseIdx position =
      (scan.active.eraseIdx position).map f.interval := List.eraseIdx_map f.interval _ _
  have hregisters : (f.scan scan).registers.erase (f.name victim.id) =
      f.map (scan.registers.erase victim.id) := (IdMap.mapKeys_erase _ _ _).symm
  unfold evict
  rw [show (f.interval victim).id = f.name victim.id from rfl, hactive, hregisters]
  exact toStack_shift f { scan with
    active := scan.active.eraseIdx position
    registers := scan.registers.erase victim.id } victim.id

theorem spill_shift :
    (f.scan scan).spill pool (f.interval current) = f.scan (scan.spill pool current) := by
  have hown : (f.scan scan).toStack (f.interval current).id = f.scan (scan.toStack current.id) :=
    toStack_shift f scan current.id
  unfold spill
  rw [victim?_shift, hown]
  cases scan.victim? pool current with
  | none => rfl
  | some v =>
    obtain ⟨victim, position⟩ := v
    have hlater : (f.interval victim).finish < (f.interval current).finish ↔
        victim.finish < current.finish := f.index_mono.lt_iff_lt
    have hregister : (f.scan scan).registers.get? (f.interval victim).id =
        scan.registers.get? victim.id := register_shift f scan victim.id
    simp only [Option.map_some, hlater, hregister]
    split
    · rfl
    · cases scan.registers.get? victim.id with
      | none => rfl
      | some r =>
        show ((f.scan scan).evict (f.interval victim) position).assign (f.interval current) r =
          f.scan ((scan.evict victim position).assign current r)
        rw [evict_shift, assign_shift]

theorem step_shift (source : RandomSource) :
    EndAlike Eq (fun s s' => s' = f.scan s) (step pool scan current source)
      (step pool (f.scan scan) (f.interval current) source) := by
  have hexpired : (f.scan scan).expire (f.interval current).start =
      f.scan (scan.expire current.start) := expire_shift f scan current.start
  have hheld (s : Scan) : ((f.scan s).active.filter (·.file = (f.interval current).file)).length =
      (s.active.filter (·.file = current.file)).length := by
    show ((s.active.map f.interval).filter _).length = _
    rw [List.filter_map, List.length_map]
    rfl
  have htaken (s : Scan) : (f.scan s).active.filterMap (fun i => (f.scan s).registers.get? i.id) =
      s.active.filterMap fun i => s.registers.get? i.id := by
    show (s.active.map f.interval).filterMap _ = _
    rw [List.filterMap_map]
    exact List.filterMap_congr fun i _ => register_shift f s i.id
  unfold step
  simp only [hexpired, hheld, htaken]
  generalize scan.expire current.start = expired
  simp only [show (f.interval current).file = current.file from rfl,
    show (f.interval current).excluded = current.excluded from rfl]
  split
  · exact .ok (spill_shift f expired current) rfl
  · have hchoice (items : List Register) (source : RandomSource) :
        EndAlike Eq Eq (Draw.choice items source) (Draw.choice items source) := by
      cases Draw.choice items source with
      | ok r next => exact .ok rfl rfl
      | error e next => exact .error
    refine (hchoice _ source).bind fun r r' next next' hr hnext => ?_
    subst hr hnext
    cases r with
    | none => exact .error
    | some r => exact .ok (assign_shift f expired current r) rfl

theorem run_shift (intervals : List LiveInterval) (source : RandomSource) :
    EndAlike Eq (fun a a' => a' = f.allocation a) (run pool intervals source)
      (run pool (intervals.map f.interval) source) := by
  have hsteps (rest : List LiveInterval) (scan : Scan) (source : RandomSource) :
      EndAlike Eq (fun s s' => s' = f.scan s) (rest.foldlM (step pool) scan source)
        ((rest.map f.interval).foldlM (step pool) (f.scan scan) source) := by
    induction rest generalizing scan source with
    | nil => exact .ok rfl rfl
    | cons current rest ih =>
      rw [List.map_cons, List.foldlM_cons, List.foldlM_cons]
      refine (step_shift f scan current source).bind fun s s' next next' hs hnext => ?_
      subst hs hnext
      exact ih s next
  have hstart : f.scan {} = {} := rfl
  have hscan := hsteps intervals {} source
  rw [hstart] at hscan
  refine hscan.bind fun s s' next next' hs hnext => ?_
  subst hs hnext
  exact .ok rfl rfl

end Scan

end Scan

def Instruction.Alike (i i' : Instruction) : Prop := ∃ id, i' = { i with id }

theorem Instruction.Alike.isPointerLabel {i i' : Instruction} (h : i.Alike i') :
    i'.isPointerLabel = i.isPointerLabel := by
  obtain ⟨id, rfl⟩ := h
  rfl

theorem Instruction.Alike.isLabel {i i' : Instruction} (h : i.Alike i') : i'.isLabel = i.isLabel := by
  obtain ⟨id, rfl⟩ := h
  rfl

theorem rel_bind {ε α α' β β' : Type} {R : α → α' → Prop} {T : β → β' → Prop} {x : Except ε α}
    {x' : Except ε α'} {k : α → Except ε β} {k' : α' → Except ε β'}
    (h : Option.Rel R x.toOption x'.toOption)
    (hk : ∀ a a', R a a' → Option.Rel T (k a).toOption (k' a').toOption) :
    Option.Rel T (x >>= k).toOption (x' >>= k').toOption := by
  cases x with
  | error e =>
    cases x' with
    | error e' => exact .none
    | ok a' => cases h
  | ok a =>
    cases x' with
    | error e' => cases h
    | ok a' =>
      cases h with
      | some h => exact hk a a' h

theorem rel_and_left {ε α α' : Type} {R : α → α' → Prop} {Q : α → Prop} {x : Except ε α}
    {x' : Except ε α'} (h : Option.Rel R x.toOption x'.toOption) (hQ : ∀ a, x = .ok a → Q a) :
    Option.Rel (fun a a' => R a a' ∧ Q a) x.toOption x'.toOption := by
  cases x with
  | error e =>
    cases x' with
    | error e' => exact .none
    | ok a' => cases h
  | ok a =>
    cases x' with
    | error e' => cases h
    | ok a' =>
      cases h with
      | some h => exact .some ⟨h, hQ a rfl⟩

theorem rel_self {ε α : Type} {x x' : Except ε α} (h : x'.toOption = x.toOption) :
    Option.Rel Eq x.toOption x'.toOption := by
  rw [h]
  cases x.toOption with
  | none => exact .none
  | some a => exact .some rfl

theorem rel_bind_self {ε α β β' : Type} {T : β → β' → Prop} {x : Except ε α} {k : α → Except ε β}
    {k' : α → Except ε β'} (hk : ∀ a, Option.Rel T (k a).toOption (k' a).toOption) :
    Option.Rel T (x >>= k).toOption (x >>= k').toOption :=
  rel_bind (rel_self rfl) fun a a' ha => by
    rw [← ha]
    exact hk a

section Spill

variable {f : Shift} {spill : SpillCode} {a : Allocation} {ops : List Operand}
variable {reloads reloads' : Reloads}

namespace SpillCode

theorem reload_alike (r : Register) (slot : Nat) (id id' : Id) :
    Option.Rel Instruction.Alike (spill.reload r slot id).toOption
      (spill.reload r slot id').toOption :=
  rel_bind_self fun _ => rel_bind_self fun _ => rel_bind_self fun _ => rel_bind_self fun _ =>
    .some ⟨_, rfl⟩

theorem save_alike (r : Register) (slot : Nat) (id id' : Id) :
    Option.Rel Instruction.Alike (spill.save r slot id).toOption
      (spill.save r slot id').toOption :=
  rel_bind_self fun _ => rel_bind_self fun _ => rel_bind_self fun _ => rel_bind_self fun _ =>
    .some ⟨_, rfl⟩

end SpillCode

structure Reloads.Shifted (f : Shift) (reloads reloads' : Reloads) : Prop where
  held : reloads'.held = f.map reloads.held
  code : List.Forall₂ Instruction.Alike reloads.code reloads'.code

theorem Reloads.reload_shift (h : reloads.Shifted f reloads') (consumer consumer' : Id)
    (file : RegisterFile) (id : Id) (slot : Nat) :
    Option.Rel (fun x y => y.1 = x.1 ∧ x.2.Shifted f y.2)
      (reloads.reload spill consumer file id slot).toOption
      (reloads'.reload spill consumer' file (f.name id) slot).toOption := by
  have hheld : reloads'.held.get? (f.name id) = reloads.held.get? id := by
    rw [h.held]
    exact IdMap.get?_mapKeys f.name_injective reloads.held id
  have hused : (reloads'.held.entries.filter fun entry => entry.2.file = file).length =
      (reloads.held.entries.filter fun entry => entry.2.file = file).length := by
    rw [h.held]
    show ((reloads.held.entries.map _).filter _).length = _
    rw [List.filter_map, List.length_map]
    rfl
  unfold reload
  rw [hheld, hused]
  cases reloads.held.get? id with
  | some r => exact .some ⟨rfl, h⟩
  | none =>
    simp only
    cases file.scratch[(reloads.held.entries.filter fun entry => entry.2.file = file).length]? with
    | none => exact .none
    | some r =>
      refine rel_bind (SpillCode.reload_alike r slot id (f.name id)) fun i i' hi => .some ⟨rfl, ?_, ?_⟩
      · rw [h.held]
        exact (IdMap.mapKeys_insert f.name_injective reloads.held id r).symm
      · exact List.rel_append h.code (.cons hi .nil)

namespace Allocation

theorem location_shift (a : Allocation) (id : Id) :
    ((f.allocation a).location (f.name id)).toOption = (a.location id).toOption := by
  have hregister : (f.allocation a).registers.get? (f.name id) = a.registers.get? id :=
    IdMap.get?_mapKeys f.name_injective a.registers id
  have hslot : (f.allocation a).slots.get? (f.name id) = a.slots.get? id :=
    IdMap.get?_mapKeys f.name_injective a.slots id
  unfold location
  rw [hregister, hslot]
  cases a.registers.get? id with
  | some r => rfl
  | none => cases a.slots.get? id <;> rfl

theorem mapId_of_virtual?_none {op : Operand} {g : Id → Id} (hnone : op.virtual? = none)
    (hlodged : ∀ id, op.value = .virtual id → op.type.isRegister) : op.mapId g = op := by
  refine Operand.mapId_of_not_virtual fun id hid => ?_
  have hregister := hlodged id hid
  obtain ⟨slot, type, value⟩ := op
  simp only at hid
  subst hid
  cases type <;> simp [Operand.virtual?, OperandType.isRegister, OperandType.file?] at hnone hregister

theorem replaceSources_shift (a : Allocation) (h : reloads.Shifted f reloads')
    (consumer consumer' : Id)
    (hops : ∀ op ∈ ops, ∀ id, op.value = .virtual id → op.type.isRegister) :
    Option.Rel (fun x y => y.1 = x.1 ∧ x.2.Shifted f y.2)
      (a.replaceSources spill consumer reloads ops).toOption
      ((f.allocation a).replaceSources spill consumer' reloads'
        (ops.map (Operand.mapId f.name))).toOption := by
  induction ops generalizing reloads reloads' with
  | nil => exact .some ⟨rfl, h⟩
  | cons op rest ih =>
    rw [List.forall_mem_cons] at hops
    have hkept (hsame : op.mapId f.name = op) : Option.Rel (fun x y => y.1 = x.1 ∧ x.2.Shifted f y.2)
        (do
          let x ← a.replaceSources spill consumer reloads rest
          pure (op :: x.1, x.2)).toOption
        (do
          let x ← (f.allocation a).replaceSources spill consumer' reloads'
            (rest.map (Operand.mapId f.name))
          pure (op.mapId f.name :: x.1, x.2)).toOption := by
      refine rel_bind (ih h hops.2) fun x y hxy => .some ⟨?_, hxy.2⟩
      rw [hsame, hxy.1]
    rw [List.map_cons, replaceSources, replaceSources, Operand.virtual?_mapId, Operand.type_mapId]
    cases hvirtual : op.virtual? with
    | none => exact hkept (mapId_of_virtual?_none hvirtual hops.1)
    | some id =>
      obtain ⟨file, hfile⟩ := Operand.file_of_virtual hvirtual
      simp only [hfile, Option.map_some]
      refine rel_bind (rel_self (location_shift a id)) fun location _ hlocation => ?_
      subst hlocation
      have hplaced (p : Except LoweringError (Register × Reloads))
          (p' : Except LoweringError (Register × Reloads))
          (hp : Option.Rel (fun x y => y.1 = x.1 ∧ x.2.Shifted f y.2) p.toOption p'.toOption) :
          Option.Rel (fun x y => y.1 = x.1 ∧ x.2.Shifted f y.2)
            (do
              let x ← p
              let y ← a.replaceSources spill consumer x.2 rest
              pure (({ op with value := .reg x.1 } : Operand) :: y.1, y.2)).toOption
            (do
              let x ← p'
              let y ← (f.allocation a).replaceSources spill consumer' x.2
                (rest.map (Operand.mapId f.name))
              pure (({ op with value := .reg x.1 } : Operand) :: y.1, y.2)).toOption := by
        refine rel_bind hp fun x y hxy => rel_bind (ih hxy.2 hops.2) fun z w hzw => .some ⟨?_, hzw.2⟩
        rw [hxy.1, hzw.1]
      cases location with
      | register r => exact hplaced (pure (r, reloads)) (pure (r, reloads')) (.some ⟨rfl, h⟩)
      | slot n => exact hplaced _ _ (Reloads.reload_shift h consumer consumer' file id n)

theorem replaceDestination_shift (a : Allocation) (h : reloads.Shifted f reloads') {op : Operand}
    (hop : ∀ id, op.value = .virtual id → op.type.isRegister) :
    Option.Rel (fun x y => y.1 = x.1 ∧ List.Forall₂ Instruction.Alike x.2 y.2)
      (a.replaceDestination spill reloads op).toOption
      ((f.allocation a).replaceDestination spill reloads' (op.mapId f.name)).toOption := by
  unfold replaceDestination
  rw [Operand.virtual?_mapId, Operand.type_mapId]
  cases hvirtual : op.virtual? with
  | none => exact .some ⟨mapId_of_virtual?_none hvirtual hop, .nil⟩
  | some id =>
    obtain ⟨file, hfile⟩ := Operand.file_of_virtual hvirtual
    simp only [hfile, Option.map_some]
    refine rel_bind (rel_self (location_shift a id)) fun location _ hlocation => ?_
    subst hlocation
    cases location with
    | register r => exact .some ⟨rfl, .nil⟩
    | slot n =>
      have hheld : reloads'.held.get? (f.name id) = reloads.held.get? id := by
        rw [h.held]
        exact IdMap.get?_mapKeys f.name_injective reloads.held id
      simp only [hheld]
      exact rel_bind (SpillCode.save_alike _ n id (f.name id)) fun i i' hi =>
        .some ⟨rfl, .cons hi .nil⟩

theorem replaceOperands_shift (a : Allocation) {i i' : Instruction} (h : i.Renumbered f.name i') :
    Option.Rel (Piece.Rel Instruction.Alike) (a.replaceOperands spill i).toOption
      ((f.allocation a).replaceOperands spill i').toOption := by
  have hstart : Reloads.Shifted f {} {} := ⟨rfl, .nil⟩
  have hsame := h.same
  subst hsame
  refine rel_bind (replaceSources_shift a hstart i.id (f.name i.id) fun op hop =>
    h.lodged op (List.mem_append_right _ hop)) fun x y hxy => ?_
  obtain ⟨hsources, hreloads⟩ := hxy
  cases hdest : i.destination with
  | none =>
    simp only [Instruction.mapIds, hdest, Option.map_none, hsources]
    exact .some ⟨hreloads.code, ⟨_, rfl⟩, .nil⟩
  | some op =>
    simp only [Instruction.mapIds, hdest, Option.map_some, hsources]
    have hop := h.lodged op (List.mem_append_left _ (by simp [hdest]))
    refine rel_bind (replaceDestination_shift a hreloads hop) fun z w hzw => ?_
    obtain ⟨htarget, hafter⟩ := hzw
    exact .some ⟨hreloads.code, ⟨f.name i.id, by rw [htarget]⟩, hafter⟩

theorem replaceAll_shift (a : Allocation) {xs ys : List Instruction}
    (h : List.Forall₂ (Instruction.Renumbered f.name) xs ys) :
    Option.Rel (List.Forall₂ (Piece.Rel Instruction.Alike)) (a.replaceAll spill xs).toOption
      ((f.allocation a).replaceAll spill ys).toOption := by
  induction h with
  | nil => exact .some .nil
  | cons hi _ ih =>
    exact rel_bind (replaceOperands_shift a hi) fun _ _ hp => rel_bind ih fun _ _ hmore =>
      .some (.cons hp hmore)

theorem replaceAll_append (a : Allocation) (xs ys : List Instruction) :
    a.replaceAll spill (xs ++ ys) = do
      let first ← a.replaceAll spill xs
      let second ← a.replaceAll spill ys
      return first ++ second := by
  induction xs with
  | nil => simp [replaceAll]
  | cons i rest ih => simp [replaceAll, ih]

theorem replaceAll_notes (a : Allocation) (m : Nat) (text : Option String) :
    a.replaceAll spill (Instruction.notes m text) =
      pure ((Instruction.notes m text).map fun note => { instruction := note }) := by
  cases text <;> rfl

theorem replaceAll_wraps {context : Context} (hspill : SpillCode.ofContext context = .ok spill)
    {a : Allocation} {code : List Instruction} {pieces : List Piece}
    (h : a.replaceAll spill code = .ok pieces) : List.Forall₂ Piece.Wraps code pieces := by
  refine (replaceAll_surrounds h).imp fun i p hp => ⟨by rw [hp.placed.same], fun o ho => ?_⟩
  rcases List.mem_append.1 ho with ho | ho
  · obtain ⟨id, -, r, slot, -, hreload⟩ := exists_of_forall₂ hp.before ho
    exact (SpillCode.Makes.reload hreload).form hspill
  · obtain ⟨id, -, r, slot, -, hsave⟩ := exists_of_forall₂ hp.after ho
    exact (SpillCode.Makes.save hsave).form hspill

end Allocation
end Spill

section Frame

variable {m slots : Nat} {spill : SpillCode} {text : Option String} {enter leave : Instruction}
variable {xs ys : List Instruction}

abbrev Instruction.NotedAlike (m : Nat) (text : Option String) :
    List Instruction → List Instruction → Prop :=
  Noted Instruction.Alike (fun _ _ => True) (Instruction.notes m text)

namespace SpillCode

theorem closing_append (leave : Instruction) (xs ys : List Instruction) :
    closing leave (xs ++ ys) = closing leave xs ++ closing leave ys :=
  List.flatMap_append

theorem closing_alike (h : List.Forall₂ Instruction.Alike xs ys) :
    List.Forall₂ Instruction.Alike (closing leave xs) (closing leave ys) := by
  induction h with
  | nil => exact .nil
  | @cons i i' rest rest' hi _ ih =>
    obtain ⟨id, rfl⟩ := hi
    rw [closing_cons, closing_cons]
    refine List.rel_append ?_ ih
    show List.Forall₂ _ (if i.name = "ret" then [leave, i] else [i])
      (if i.name = "ret" then [leave, { i with id }] else [{ i with id }])
    split
    · exact .cons ⟨leave.id, rfl⟩ (.cons ⟨id, rfl⟩ .nil)
    · exact .cons ⟨id, rfl⟩ .nil

theorem closing_notes (leave : Instruction) (m : Nat) (text : Option String) :
    closing leave (Instruction.notes m text) = Instruction.notes m text := by
  cases text with
  | none => rfl
  | some text =>
    rw [show Instruction.notes m (some text) = [.comment s!"r{m}" text] from rfl, closing_cons,
      if_neg (by simp [Instruction.comment])]
    rfl

def enclose (enter leave : Instruction) : List Instruction → List Instruction
  | [] => [enter]
  | first :: rest =>
    if first.isLabel then first :: enter :: closing leave rest
    else enter :: closing leave (first :: rest)

theorem frame_eq_enclose (slots : Nat) (body : List Instruction) : spill.frame slots body = do
    let enter ← spill.moveStack (-spill.offset slots) "spill_frame_open"
    let leave ← spill.moveStack (spill.offset slots) "spill_frame_close"
    return enclose enter leave body := by
  cases body with
  | nil => rfl
  | cons first rest =>
    cases hlabel : first.isLabel <;> simp [frame, enclose, hlabel, closing]

/-- A frame is put around the code and not around what is in front of it, so a note does not move
it. -/
theorem enclose_noted (h : Noted Instruction.Alike Instruction.Seam (Instruction.notes m text) xs ys) :
    Instruction.NotedAlike m text (enclose enter leave xs) (enclose enter leave ys) := by
  have henter : enter.Alike enter := ⟨enter.id, rfl⟩
  cases h with
  | @intro front back front' back' hfront hback hseam =>
    cases hfront with
    | @cons first first' rest rest' hfirst hrest =>
      simp only [List.cons_append, enclose, hfirst.isLabel]
      split
      · rw [closing_append, closing_append, closing_append, closing_notes]
        exact .intro (.cons hfirst (.cons henter (closing_alike hrest))) (closing_alike hback) trivial
      · rw [← List.cons_append, ← List.cons_append, ← List.cons_append, closing_append, closing_append,
          closing_append, closing_notes]
        exact .intro (.cons henter (closing_alike (.cons hfirst hrest))) (closing_alike hback) trivial
    | nil =>
      have hopen : enclose enter leave back = enter :: closing leave back := by
        cases back with
        | nil => rfl
        | cons first rest => rw [enclose, if_neg (by simp [hseam.entered rfl first rfl])]
      have hopen' : enclose enter leave (Instruction.notes m text ++ back') =
          enter :: (Instruction.notes m text ++ closing leave back') := by
        cases text with
        | some text =>
          have hnotes := closing_append leave (Instruction.notes m (some text)) back'
          rw [closing_notes] at hnotes
          rw [← hnotes]
          rfl
        | none =>
          cases hback with
          | nil => rfl
          | @cons first first' rest rest' hfirst hrest =>
            have hlabel : first'.isLabel = false :=
              hfirst.isLabel.trans (hseam.entered rfl first rfl)
            show enclose enter leave (first' :: rest') = enter :: closing leave (first' :: rest')
            rw [enclose, if_neg (by simp [hlabel])]
      rw [List.nil_append, List.nil_append, hopen, hopen']
      exact @Noted.intro _ _ _ _ _ [enter] _ [enter] _ (.cons henter .nil) (closing_alike hback) trivial

end SpillCode

theorem Allocation.apply_noted {f : Shift} {context : Context} (a : Allocation)
    (h : Noted (Instruction.Renumbered f.name) Instruction.Seam (Instruction.notes m text) xs ys) :
    Option.Rel (Instruction.NotedAlike m text) (a.apply context xs).toOption
      ((f.allocation a).apply context ys).toOption := by
  have hsize : (f.allocation a).slots.size = a.slots.size := IdMap.size_mapKeys f.name_injective a.slots
  unfold apply
  rw [hsize]
  cases hspill : SpillCode.ofContext context with
  | error e => exact .none
  | ok spill =>
    cases h with
    | @intro front back front' back' hfront hback hseam =>
      have hbody : Option.Rel
          (Noted Instruction.Alike Instruction.Seam (Instruction.notes m text))
          (a.replaceAll spill (front ++ back) >>= fun pieces => pure (Piece.layout pieces)).toOption
          ((f.allocation a).replaceAll spill (front' ++ Instruction.notes m text ++ back') >>=
            fun pieces => pure (Piece.layout pieces)).toOption := by
        simp only [replaceAll_append, replaceAll_notes, bind_assoc, pure_bind]
        refine rel_bind (rel_and_left (replaceAll_shift a hfront) fun _ =>
          replaceAll_wraps hspill) fun ps ps' hps => ?_
        refine rel_bind (rel_and_left (replaceAll_shift a hback) fun _ =>
          replaceAll_wraps hspill) fun qs qs' hqs => .some ?_
        exact Piece.layout_noted (fun _ _ h => h.isPointerLabel)
          (Instruction.not_pointer_of_notes m text) hseam hps.2 hqs.2 hps.1 hqs.1
      have hframe (x y : Except LoweringError (List Piece))
          (hxy : Option.Rel (Noted Instruction.Alike Instruction.Seam (Instruction.notes m text))
            (x >>= fun pieces => pure (Piece.layout pieces)).toOption
            (y >>= fun pieces => pure (Piece.layout pieces)).toOption) :
          Option.Rel (Instruction.NotedAlike m text)
            (x >>= fun pieces => if a.slots.size = 0 then pure (Piece.layout pieces)
              else spill.frame a.slots.size (Piece.layout pieces)).toOption
            (y >>= fun pieces => if a.slots.size = 0 then pure (Piece.layout pieces)
              else spill.frame a.slots.size (Piece.layout pieces)).toOption := by
        have hbind := @rel_bind _ _ _ _ _ _ (Instruction.NotedAlike m text) _ _
          (fun body => if a.slots.size = 0 then pure body else spill.frame a.slots.size body)
          (fun body => if a.slots.size = 0 then pure body else spill.frame a.slots.size body) hxy
          fun body body' hbody => by
            split
            · cases hbody with
              | intro hfront hback _ => exact .some (.intro hfront hback trivial)
            · rw [SpillCode.frame_eq_enclose, SpillCode.frame_eq_enclose]
              exact rel_bind_self fun enter => rel_bind_self fun leave =>
                .some (SpillCode.enclose_noted hbody)
        simpa only [bind_assoc, pure_bind] using hbind
      exact hframe _ _ hbody

noncomputable def Shift.past (m place notes : Nat) : Shift where
  name := FreshIds.skip m
  name_injective := FreshIds.skip_injective m
  index n := if n < place then n else n + notes
  index_mono := by
    intro n k h
    simp only
    split <;> split <;> omega

theorem LiveInterval.ofCode_noted {recorded : IdMap (List Register)}
    {front back front' back' : List Instruction}
    (hfront : List.Forall₂ (Instruction.Renumbered (FreshIds.skip m)) front front')
    (hback : List.Forall₂ (Instruction.Renumbered (FreshIds.skip m)) back back') :
    (ofCode recorded (front' ++ Instruction.notes m text ++ back')).toOption =
      (ofCode recorded (front ++ back)).toOption.map
        (List.map (Shift.past m front.length (Instruction.notes m text).length).interval) := by
  generalize hf : Shift.past m front.length (Instruction.notes m text).length = f
  have hname : f.name = FreshIds.skip m := by rw [← hf]; rfl
  have hindex (n : Nat) : f.index n = if n < front.length then n else
      n + (Instruction.notes m text).length := by rw [← hf]; rfl
  have hlength : front'.length = front.length := hfront.length_eq.symm
  rw [← hname] at hfront hback
  have hidle : ∀ point ∈ (Instruction.notes m text).map fun _ => (0 + front'.length, ([] : List Register)),
      point.2 = [] := by simp
  simp only [ofCode, trace_append, trace_notes, bind_assoc, pure_bind]
  refine toOption_bind_map (trace_shift f hfront (fun k hk => ?_) []) fun x => ?_
  · rw [hindex, if_pos (by omega)]
  · refine toOption_bind_map (trace_shift f hback (fun k hk => ?_) x.1) fun y => ?_
    · rw [hindex, if_neg (by omega), List.length_append, hlength]
      omega
    · refine congrArg some ?_
      rw [List.map_map, List.map_map]
      refine List.map_congr_left fun interval _ => ?_
      simp only [Function.comp_apply]
      rw [exclude_idle hidle, ← List.map_append, exclude_shift]

theorem allocate_lockstep {context : Context} (pool : RegisterPool)
    (h : Noted (Instruction.Renumbered (FreshIds.skip m)) Instruction.Seam
      (Instruction.notes m text) xs ys) :
    Lockstep m context (Instruction.NotedAlike m text) (allocate pool xs) (allocate pool ys) := by
  cases h with
  | @intro front back front' back' hfront hback hseam =>
    refine Lockstep.bind (R := fun a a' =>
      a' = (Shift.past m front.length (Instruction.notes m text).length).allocation a) ?_
      fun a a' ha => ?_
    · refine Lockstep.get.bind fun s s' hs => ?_
      have hclobbers : s'.clobbers = s.clobbers := by rw [hs.2]; rfl
      rw [hclobbers]
      have hintervals := @LiveInterval.ofCode_noted m text s.clobbers _ _ _ _ hfront hback
      refine (Lockstep.ofExcept (R := fun live live' => live' = live.map
        (Shift.past m front.length (Instruction.notes m text).length).interval) ?_).bind
          fun live live' hlive => ?_
      · rw [hintervals]
        cases (LiveInterval.ofCode s.clobbers (front ++ back)).toOption with
        | none => exact .none
        | some live => exact .some rfl
      · subst hlive
        exact Lockstep.draw (Scan.run_shift _ live)
    · subst ha
      refine Lockstep.read_bind ?_
      exact Lockstep.ofExcept (a.apply_noted (.intro hfront hback hseam))

end Frame
end PlanLowering
