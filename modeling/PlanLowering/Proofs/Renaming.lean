import PlanLowering.Proofs.StepNames

/-!
# A renaming rewrites ids and nothing else

What actions share that differ in their ids only is told without the renaming, one case for each
kind. Together with its ids this is all of an action, so there is one action only that a renaming
may lead to, and two renamings in turn are one by the composed map.
-/

namespace PlanLowering

namespace IdMap

variable {α : Type}

/-- The map that looks a key up in one map and what it finds there in the other one. -/
def comp (first : IdMap Id) (second : IdMap α) : IdMap α := first.filterMap second.get?

@[simp] theorem get?_comp (first : IdMap Id) (second : IdMap α) (key : Id) :
    (first.comp second).get? key = (first.get? key).bind second.get? :=
  get?_filterMap second.get? first key

end IdMap

inductive Address.SameButIds : Address → Address → Prop where
  | page (x y : Id) : SameButIds (.page x) (.page y)
  | symbol (x y : Id) : SameButIds (.symbol x) (.symbol y)
  | value (x y : Id) : SameButIds (.value x) (.value y)

structure Access.SameButIds (a b : Access) : Prop where
  offset : a.offset = b.offset
  memory : Option.Rel Address.SameButIds a.memory b.memory
  base : a.base.isSome = b.base.isSome
  size : a.size = b.size
  op : a.op = b.op

structure Arithmetic.SameButIds (a b : Arithmetic) : Prop where
  op : a.op = b.op
  src1 : a.src1.isSome = b.src1.isSome
  src2 : a.src2.isSome = b.src2.isSome
  imm : a.imm = b.imm

structure CsrWrite.SameButIds (w v : CsrWrite) : Prop where
  csr : w.csr = v.csr
  how : w.how = v.how
  value : w.value = v.value
  src : w.src.isSome = v.src.isSome
  direct : w.direct = v.direct

structure PteTarget.SameButIds (t u : PteTarget) : Prop where
  level : t.level = u.level
  src : t.src.isSome = u.src.isSome

/-- Operations that differ in the ids of their register fields only. Kinds that declare no such
field do not differ at all. -/
inductive Op.SameButIds : Op → Op → Prop where
  | arithmetic {a b : Arithmetic} (h : a.SameButIds b) : SameButIds (.arithmetic a) (.arithmetic b)
  | moveToT2 (x y : Id) : SameButIds (.moveToT2 x) (.moveToT2 y)
  | moveFromT2 (x y : Id) : SameButIds (.moveFromT2 x) (.moveFromT2 y)
  | load {a b : Access} (h : a.SameButIds b) : SameButIds (.load a) (.load b)
  | store {a b : Access} {x y : Option Id} (h : a.SameButIds b) (hvalue : x.isSome = y.isSome) :
      SameButIds (.store a x) (.store b y)
  | call (x y : Id) {base base' : Option Id} (hbase : base.isSome = base'.isSome) :
      SameButIds (.call x base) (.call y base')
  | csrWrite {w v : CsrWrite} (h : w.SameButIds v) : SameButIds (.csrWrite w) (.csrWrite v)
  | compare (relation : Relation) (lhs rhs lhs' rhs' : Id) (pass : Option String) :
      SameButIds (.compare relation lhs rhs pass) (.compare relation lhs' rhs' pass)
  | readPte {t u : PteTarget} (h : t.SameButIds u) : SameButIds (.readPte t) (.readPte u)
  | writePte {t u : PteTarget} (h : t.SameButIds u) : SameButIds (.writePte t) (.writePte u)
  | modifyPte (x y : Id) (level : UInt8) (recursive : Bool) :
      SameButIds (.modifyPte x level recursive) (.modifyPte y level recursive)
  | fieldless (op : Op) (h : op.fieldNames = []) : SameButIds op op

/-- Actions that differ in their own ids and the ids of their register fields only. -/
inductive Action.SameButIds : Action → Action → Prop where
  | simple (x y : Id) (expanded : Bool) {op op' : Op} (h : op.SameButIds op') :
      SameButIds (.simple x expanded op) (.simple y expanded op')
  | block (x y : Id) (expanded : Bool) (owner : Block) (code : List Action) :
      SameButIds (.block x expanded owner code) (.block y expanded owner code)

variable {f : Id → Id}

section Lists

variable {α : Type} {x y : Option α} {xs ys : List α}

theorem toList_append_inj (h : x.isSome = y.isSome) :
    x.toList ++ xs = y.toList ++ ys ↔ x = y ∧ xs = ys := by
  cases x <;> cases y <;> simp_all

theorem toList_inj : x.toList = y.toList ↔ x = y := by
  cases x <;> cases y <;> simp

end Lists

namespace Access

variable {a b : Access}

theorem sameButIds_mapIds (f : Id → Id) (a : Access) : a.SameButIds (a.mapIds f) where
  offset := rfl
  memory := by
    rw [mapIds]
    cases a.memory with
    | none => exact .none
    | some found => cases found <;> exact .some (by constructor)
  base := by simp [mapIds]
  size := rfl
  op := rfl

theorem SameButIds.eq_mapIds (h : a.SameButIds b) (hids : b.ids = a.ids.map f) :
    b = a.mapIds f := by
  obtain ⟨offset, memory, base, size, op⟩ := a
  obtain ⟨offset', memory', base', size', op'⟩ := b
  obtain ⟨rfl, hmemory, hbase, rfl, rfl⟩ := h
  cases hmemory with
  | none => simpa [ids, mapIds, ← Option.toList_map, toList_inj] using hids
  | some found =>
    cases found <;> simpa [ids, mapIds, Address.id, ← Option.toList_map, toList_inj] using hids

end Access

theorem Arithmetic.SameButIds.eq_map {a b : Arithmetic} (h : a.SameButIds b)
    (hsrc1 : b.src1 = a.src1.map f) (hsrc2 : b.src2 = a.src2.map f) :
    b = { a with src1 := a.src1.map f, src2 := a.src2.map f } := by
  cases a
  cases b
  cases h
  simp_all

theorem CsrWrite.SameButIds.eq_map {w v : CsrWrite} (h : w.SameButIds v)
    (hsrc : v.src = w.src.map f) : v = { w with src := w.src.map f } := by
  cases w
  cases v
  cases h
  simp_all

theorem PteTarget.SameButIds.eq_mapIds {t u : PteTarget} (h : t.SameButIds u)
    (hids : u.ids = t.ids.map f) : u = t.mapIds f := by
  obtain ⟨hmemory, hsrc⟩ := List.cons.inj hids
  rw [← Option.toList_map, toList_inj] at hsrc
  cases t
  cases u
  cases h
  simp_all [mapIds]

namespace Op

variable {op op' : Op}

theorem sameButIds_mapIds (f : Id → Id) (op : Op) : op.SameButIds (op.mapIds f) := by
  cases op with
  | arithmetic a => exact .arithmetic ⟨rfl, by simp, by simp, rfl⟩
  | moveToT2 src => exact .moveToT2 _ _
  | moveFromT2 src => exact .moveFromT2 _ _
  | load access => exact .load (access.sameButIds_mapIds f)
  | store access value => exact .store (access.sameButIds_mapIds f) (by simp)
  | call target base => exact .call _ _ (by simp)
  | csrWrite w => exact .csrWrite ⟨rfl, rfl, rfl, by simp, rfl⟩
  | compare relation lhs rhs pass => exact .compare _ _ _ _ _ _
  | readPte target => exact .readPte ⟨rfl, by simp [PteTarget.mapIds]⟩
  | writePte target => exact .writePte ⟨rfl, by simp [PteTarget.mapIds]⟩
  | modifyPte page level recursive => exact .modifyPte _ _ _ _
  | _ => exact .fieldless _ rfl

theorem mapIds_of_fieldless (h : op.fieldNames = []) : op.mapIds f = op := by
  cases op <;> simp_all [fieldNames, mapIds]

theorem SameButIds.eq_mapIds (h : op.SameButIds op') (hids : op'.ids = op.ids.map f) :
    op' = op.mapIds f := by
  cases h with
  | arithmetic h =>
    simp only [ids, List.map_append, ← Option.toList_map] at hids
    obtain ⟨hsrc1, hsrc2⟩ := (toList_append_inj (by simpa using h.src1.symm)).1 hids
    rw [h.eq_map hsrc1 (toList_inj.1 hsrc2), mapIds]
  | moveToT2 x y => simpa [ids, mapIds] using hids
  | moveFromT2 x y => simpa [ids, mapIds] using hids
  | load h => rw [h.eq_mapIds hids, mapIds]
  | store h hvalue =>
    simp only [ids, List.map_append, ← Option.toList_map] at hids
    obtain ⟨rfl, haccess⟩ := (toList_append_inj (by simpa using hvalue.symm)).1 hids
    rw [h.eq_mapIds haccess, mapIds]
  | call x y hbase =>
    simpa [ids, mapIds, ← Option.toList_map, toList_inj] using hids
  | csrWrite h =>
    rw [ids, ids, ← Option.toList_map, toList_inj] at hids
    rw [h.eq_map hids, mapIds]
  | compare relation lhs rhs lhs' rhs' pass => simpa [ids, mapIds] using hids
  | readPte h => rw [h.eq_mapIds hids, mapIds]
  | writePte h => rw [h.eq_mapIds hids, mapIds]
  | modifyPte x y level recursive => simpa [ids, mapIds] using hids
  | fieldless op hnames => rw [mapIds_of_fieldless hnames]

end Op

theorem get?_comp_renamed {first second : IdMap Id} {x : Id} (hfirst : first.contains x)
    (hsecond : second.contains (renamed first x)) :
    (first.comp second).get? x = some (renamed second (renamed first x)) := by
  rw [IdMap.get?_comp, get?_renamed hfirst, Option.bind_some, get?_renamed hsecond]

namespace Action

variable {f g h : Id → Id} {map first second : IdMap Id} {a b : Action}

def withId (id : Id) : Action → Action
  | .simple _ expanded op => .simple id expanded op
  | .block _ expanded owner code => .block id expanded owner code

/-- The action with other ids in its register fields. -/
def mapFields (f : Id → Id) : Action → Action
  | .simple id expanded op => .simple id expanded (op.mapIds f)
  | .block id expanded owner code => .block id expanded owner code

@[simp] theorem id_withId (id : Id) (a : Action) : (a.withId id).id = id := by
  cases a <;> rfl

@[simp] theorem ids_withId (id : Id) (a : Action) : (a.withId id).ids = a.ids := by
  cases a <;> rfl

@[simp] theorem id_mapFields (f : Id → Id) (a : Action) : (a.mapFields f).id = a.id := by
  cases a <;> rfl

@[simp] theorem ids_mapFields (f : Id → Id) (a : Action) :
    (a.mapFields f).ids = a.ids.map f := by
  cases a with
  | simple id expanded op => exact Op.ids_mapIds f op
  | block id expanded owner code => rfl

theorem rename_of_unknown (h : map.get? a.id = none) :
    a.rename map = .error (.undefinedId a.id a.describe) := by
  rw [rename, h]
  rfl

theorem rename_of_known (h : map.contains a.id) :
    a.rename map = .ok ((a.withId (renamed map a.id)).mapFields (renamed map)) := by
  cases a with
  | simple id expanded op => exact rename_simple h
  | block id expanded owner code => exact rename_block h

theorem sameButIds_mapFields (id : Id) (f : Id → Id) (a : Action) :
    a.SameButIds ((a.withId id).mapFields f) := by
  cases a with
  | simple own expanded op => exact .simple own id expanded (op.sameButIds_mapIds f)
  | block own expanded owner code => exact .block own id expanded owner code

theorem SameButIds.eq_mapFields (h : a.SameButIds b) (hids : b.ids = a.ids.map f) :
    b = (a.withId b.id).mapFields f := by
  cases h with
  | simple x y expanded hop =>
    rw [hop.eq_mapIds hids]
    rfl
  | block x y expanded owner code => rfl

theorem rename_ok_iff : a.rename map = .ok b ↔
    map.get? a.id = some b.id ∧ b.ids = a.ids.map (renamed map) ∧ a.SameButIds b := by
  constructor
  · intro h
    cases hnew : map.get? a.id with
    | none =>
      rw [rename_of_unknown hnew] at h
      cases h
    | some new =>
      rw [rename_of_known (IdMap.contains_iff.2 ⟨new, hnew⟩)] at h
      cases h
      exact ⟨by simp [renamed_of_get? hnew], by simp, sameButIds_mapFields _ _ a⟩
  · rintro ⟨hid, hids, hrest⟩
    rw [rename_of_known (IdMap.contains_iff.2 ⟨_, hid⟩), renamed_of_get? hid,
      ← hrest.eq_mapFields hids]

theorem mapFields_comp (x y : Id) (hagree : ∀ z ∈ a.ids, g (f z) = h z) :
    (((a.withId x).mapFields f).withId y).mapFields g = (a.withId y).mapFields h := by
  cases a with
  | simple id expanded op => simp [withId, mapFields, op.mapIds_comp hagree]
  | block id expanded owner code => rfl

theorem rename_rename
    (h : ∀ x ∈ a.id :: a.ids, first.contains x ∧ second.contains (renamed first x)) :
    (a.rename first).bind (·.rename second) = a.rename (first.comp second) := by
  have hget : ∀ x ∈ a.id :: a.ids,
      (first.comp second).get? x = some (renamed second (renamed first x)) :=
    fun x hx => get?_comp_renamed (h x hx).1 (h x hx).2
  have hagree : ∀ x ∈ a.id :: a.ids,
      renamed second (renamed first x) = renamed (first.comp second) x :=
    fun x hx => (renamed_of_get? (hget x hx)).symm
  obtain ⟨⟨hfirst, hsecond⟩, -⟩ := List.forall_mem_cons.1 h
  calc (a.rename first).bind (·.rename second)
      = ((a.withId (renamed first a.id)).mapFields (renamed first)).rename second := by
        rw [rename_of_known hfirst]
        rfl
    _ = .ok ((a.withId (renamed (first.comp second) a.id)).mapFields
          (renamed (first.comp second))) := by
        rw [rename_of_known (by simpa using hsecond),
          mapFields_comp _ _ fun x hx => hagree x (List.mem_cons_of_mem _ hx)]
        simp [hagree]
    _ = a.rename (first.comp second) :=
        (rename_of_known (IdMap.contains_iff.2 ⟨_, hget _ List.mem_cons_self⟩)).symm

/-- An action renamed where it stands: first its own id, then the ids in its fields. -/
def renameInPlace (map : IdMap Id) : EStateM LoweringError Action Unit := do
  let a ← get
  match map.get? a.id with
  | none => throw (.undefinedId a.id a.describe)
  | some id =>
    modify (withId id)
    modify (mapFields (renamed map))

theorem renameInPlace_of_unknown (h : map.get? a.id = none) :
    (renameInPlace map).run a = .error (.undefinedId a.id a.describe) a := by
  simp [renameInPlace, h]

theorem renameInPlace_of_known (h : map.contains a.id) : (renameInPlace map).run a =
    .ok () ((a.withId (renamed map a.id)).mapFields (renamed map)) := by
  simp [renameInPlace, get?_renamed h]

/-- Where the map does not hold the action's id, renaming fails for this reason and leaves the
action as it is. Where it does, renaming succeeds, and the result is the one action that has the
new id and the renamed references and shares all the rest. Maps that hold all ids they meet
compose. -/
theorem rename_rewrites_ids (map : IdMap Id) (a : Action) :
    (map.get? a.id = none →
      a.rename map = .error (.undefinedId a.id a.describe) ∧
      (renameInPlace map).run a = .error (.undefinedId a.id a.describe) a) ∧
    (∀ new, map.get? a.id = some new →
      ∃ b, a.rename map = .ok b ∧ (renameInPlace map).run a = .ok () b) ∧
    (∀ b, a.rename map = .ok b ↔
      map.get? a.id = some b.id ∧ b.ids = a.ids.map (renamed map) ∧ a.SameButIds b) ∧
    ∀ second : IdMap Id,
      (∀ x ∈ a.id :: a.ids, map.contains x ∧ second.contains (renamed map x)) →
        (a.rename map).bind (·.rename second) = a.rename (map.comp second) := by
  refine ⟨fun hnone => ⟨rename_of_unknown hnone, renameInPlace_of_unknown hnone⟩, ?_,
    fun b => rename_ok_iff, fun second => rename_rename⟩
  intro new hnew
  have hknown : map.contains a.id := IdMap.contains_iff.2 ⟨new, hnew⟩
  exact ⟨_, rename_of_known hknown, renameInPlace_of_known hknown⟩

/-- A store at an address held in a value, which is its base as well. -/
def sharedAddress : Action := .new "s" (.store (.to (some (.value "p")) 8) (some "v"))

theorem sharedAddress_renamed :
    let address := (({} : IdMap Id).insert "s" "r2").insert "p" "r0"
    let first := address.insert "v" "r1"
    let second := ((({} : IdMap Id).insert "r0" "r5").insert "r1" "r0").insert "r2" "r1"
    sharedAddress.rename {} = .error (.undefinedId "s" sharedAddress.describe) ∧
    (∃ b, sharedAddress.rename address = .ok b ∧ b.id = "r2" ∧ b.ids = ["v", "r0", "r0"]) ∧
    (sharedAddress.rename first).bind (·.rename second) =
      sharedAddress.rename (first.comp second) := by
  intro address first second
  refine ⟨((rename_rewrites_ids {} sharedAddress).1 rfl).1, ?_,
    (rename_rewrites_ids first sharedAddress).2.2.2 second (by decide)⟩
  obtain ⟨b, hb, -⟩ := (rename_rewrites_ids address sharedAddress).2.1 "r2" (by decide)
  obtain ⟨hid, hids, -⟩ := ((rename_rewrites_ids address sharedAddress).2.2.1 b).1 hb
  refine ⟨b, hb, ?_, hids.trans (by decide)⟩
  exact Option.some.inj (hid.symm.trans (by decide))

end Action
end PlanLowering
