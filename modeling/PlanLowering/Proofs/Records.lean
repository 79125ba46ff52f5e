import Mathlib.Data.List.Nodup
import PlanLowering.Json.Record

/-!
# The fields of a record are read back

A key that occurs once gives its value, whatever else the object holds. What is written into one
field by its own writer is read again by the reader for that field.
-/

namespace PlanLowering.Json

theorem mapM_eq_some_map {α β : Type} {f : α → Option β} {g : α → β} {list : List α}
    (h : ∀ a ∈ list, f a = some (g a)) : list.mapM f = some (list.map g) := by
  induction list with
  | nil => rfl
  | cons a list ih =>
    rw [List.mapM_cons, h a List.mem_cons_self, ih fun b hb => h b (List.mem_cons_of_mem _ hb)]
    rfl

section Fields

variable {fields part : List (String × Json)} {key : String} {value : Json}

theorem field?_of_mem (hkeys : (fields.map Prod.fst).Nodup) (h : (key, value) ∈ fields) :
    field? fields key = some (some value) := by
  obtain ⟨front, back, rfl⟩ := List.append_of_mem h
  have hothers : ∀ field ∈ front ++ back, field.1 ≠ key := by
    have hperm : (((key, value) :: (front ++ back)).map Prod.fst).Nodup :=
      (List.perm_middle.map Prod.fst).nodup hkeys
    rw [List.map_cons, List.nodup_cons] at hperm
    exact fun field hfield heq => hperm.1 (List.mem_map.2 ⟨field, hfield, heq⟩)
  rw [List.forall_mem_append] at hothers
  have hfront : front.filter (·.1 = key) = [] := by simpa using hothers.1
  have hback : back.filter (·.1 = key) = [] := by simpa using hothers.2
  rw [field?, List.filter_append, List.filter_cons_of_pos (by simp), hfront, hback]
  rfl

theorem mapM_field? (hkeys : (fields.map Prod.fst).Nodup) (hpart : part ⊆ fields) :
    (part.map Prod.fst).mapM (field? fields) = some (part.map fun field => some field.2) := by
  rw [List.mapM_map]
  exact mapM_eq_some_map fun field hfield => field?_of_mem hkeys (hpart hfield)

end Fields

section Values

@[simp] theorem str?_str (s : String) : (Json.str s).str? = some s := rfl

@[simp] theorem bool?_bool (b : Bool) : (Json.bool b).bool? = some b := rfl

theorem int?_of_mem {lo hi n : Int} (hlo : lo ≤ n) (hhi : n < hi) :
    (Json.int n).int? lo hi = some n :=
  if_pos ⟨hlo, hhi⟩

@[simp] theorem int64?_toInt (v : Int64) : (Json.int v.toInt).int64? = some v := by
  have hle := v.le_toInt
  have hlt := v.toInt_lt
  rw [int64?, int?_of_mem (by omega) (by omega), Option.map_some, Int64.ofInt_toInt]

@[simp] theorem uint64?_toNat (v : UInt64) : (Json.int v.toNat).uint64? = some v := by
  have hlt := v.toNat_lt
  rw [uint64?, int?_of_mem (by omega) (by omega), Option.map_some, Int.toNat_natCast,
    UInt64.ofNat_toNat]

@[simp] theorem uint32?_toNat (v : UInt32) : (Json.int v.toNat).uint32? = some v := by
  have hlt := v.toNat_lt
  rw [uint32?, int?_of_mem (by omega) (by omega), Option.map_some, Int.toNat_natCast,
    UInt32.ofNat_toNat]

@[simp] theorem uint8?_toNat (v : UInt8) : (Json.int v.toNat).uint8? = some v := by
  have hlt := v.toNat_lt
  rw [uint8?, int?_of_mem (by omega) (by omega), Option.map_some, Int.toNat_natCast,
    UInt8.ofNat_toNat]

variable {α : Type} {read? : Json → Option α} {value : Json} {v : α}

theorem required_some (h : read? value = some v) : required read? (some value) = some v := h

theorem withDefault_some (default : α) (h : read? value = some v) :
    withDefault default read? (some value) = some v :=
  h

theorem nullable_some (hvalue : value ≠ .null) (h : read? value = some v) :
    nullable read? (some value) = some (some v) := by
  rw [nullable, h]
  · rfl
  · exact hvalue

theorem list?_map {toJson : α → Json} (hread : ∀ v, read? (toJson v) = some v)
    (values : List α) : list? read? (.arr (values.map toJson)) = some values := by
  have hvalues := mapM_eq_some_map (f := read? ∘ toJson) fun v (_ : v ∈ values) => hread v
  rw [list?, List.mapM_map, hvalues, List.map_id']

end Values

end PlanLowering.Json
