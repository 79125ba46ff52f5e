import PlanLowering.Json.Basic

/-! # Reading records

A record has named fields in a fixed order. As an object it may hold other keys, but each of its
own keys at most once; as an array it holds the fields in order, and may end early.
-/

namespace PlanLowering.Json

def field? (fields : List (String × Json)) (key : String) : Option (Option Json) :=
  match fields.filter (·.1 = key) with
  | [] => some none
  | [(_, value)] => some (some value)
  | _ => none

def record? (keys : List String) : Json → Option (List (Option Json))
  | .obj fields => keys.mapM (field? fields)
  | .arr items =>
    if items.length ≤ keys.length then
      some (items.map some ++ List.replicate (keys.length - items.length) none)
    else none
  | _ => none

variable {α : Type}

def required (read? : Json → Option α) : Option Json → Option α
  | none => none
  | some value => read? value

def withDefault (default : α) (read? : Json → Option α) : Option Json → Option α
  | none => some default
  | some value => read? value

def nullable (read? : Json → Option α) : Option Json → Option (Option α)
  | none => some none
  | some .null => some none
  | some value => (read? value).map some

def str? : Json → Option String
  | .str s => some s
  | _ => none

def bool? : Json → Option Bool
  | .bool b => some b
  | _ => none

def int? (lo hi : Int) : Json → Option Int
  | .int n => if lo ≤ n ∧ n < hi then some n else none
  | _ => none

def int64? (value : Json) : Option Int64 :=
  (value.int? (-0x8000_0000_0000_0000) 0x8000_0000_0000_0000).map Int64.ofInt

def uint64? (value : Json) : Option UInt64 :=
  (value.int? 0 0x1_0000_0000_0000_0000).map fun n => UInt64.ofNat n.toNat

def uint32? (value : Json) : Option UInt32 :=
  (value.int? 0 0x1_0000_0000).map fun n => UInt32.ofNat n.toNat

def uint8? (value : Json) : Option UInt8 :=
  (value.int? 0 0x100).map fun n => UInt8.ofNat n.toNat

def list? (read? : Json → Option α) : Json → Option (List α)
  | .arr items => items.mapM read?
  | _ => none

/-- One of several names, also as the only key of an object that gives it null. -/
def choice? (choices : List (String × α)) : Json → Option α
  | .str s => choices.lookup s
  | .obj [(s, .null)] => choices.lookup s
  | _ => none

def looseChoice? (choices : List (String × α)) : Json → Option α
  | .obj [(s, .obj [])] => choices.lookup s
  | json => choice? choices json

end PlanLowering.Json
