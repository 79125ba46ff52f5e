/-! # JSON values

Numbers written as plain integers are integers. A number with a fraction, an exponent or a signed
zero is kept as it was written: it stands for no integer.

The grammar also admits text that holds half of a surrogate pair, numbers that no float reaches,
and arrays and objects inside any number of others. Such a part can be skipped but not read.
-/

namespace PlanLowering

inductive Json where
  | null
  | bool (b : Bool)
  | int (n : Int)
  | decimal (text : String)
  | str (s : String)
  | arr (items : List Json)
  | obj (fields : List (String × Json))
  /-- A part that follows the grammar and holds no value. -/
  | unreadable
  deriving Repr, BEq, Inhabited

namespace Json

mutual

def isReadable : Json → Bool
  | .unreadable => false
  | .arr items => areReadable items
  | .obj fields => haveReadable fields
  | _ => true

def areReadable : List Json → Bool
  | [] => true
  | item :: rest => item.isReadable && areReadable rest

def haveReadable : List (String × Json) → Bool
  | [] => true
  | (_, value) :: rest => value.isReadable && haveReadable rest

end

end Json

end PlanLowering
