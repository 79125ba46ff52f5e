import PlanLowering.Json.Token

/-! # Reading and writing JSON text

A value is written as its tokens without blanks. Reading runs the tokens over a stack of open
arrays and objects. What lies below a fixed depth of that stack is unreadable.
-/

namespace PlanLowering.Json

mutual

def tokens : Json → List Token
  | .str s => [.text s]
  | .arr items => .openArray :: itemTokens items ++ [.closeArray]
  | .obj fields => .openObject :: fieldTokens fields ++ [.closeObject]
  | value => [.literal value]

def itemTokens : List Json → List Token
  | [] => []
  | [item] => item.tokens
  | item :: rest => item.tokens ++ .comma :: itemTokens rest

def fieldTokens : List (String × Json) → List Token
  | [] => []
  | [(key, value)] => .text key :: .colon :: value.tokens
  | (key, value) :: rest => .text key :: .colon :: value.tokens ++ .comma :: fieldTokens rest

end

def render (value : Json) : String := String.join (value.tokens.map Token.render)

/-- An open array or object with what it holds so far, last first. An object has lost its fields
once one of its keys is unreadable. -/
inductive Frame where
  | array (items : List Json)
  | object (fields : Option (List (String × Json))) (key : String)
  deriving Repr, BEq

inductive Reading where
  | expectValue (frames : List Frame)
  /-- Behind an opening bracket: a value, or the closing one. -/
  | arrayStart (frames : List Frame)
  | objectStart (frames : List Frame)
  | expectKey (fields : Option (List (String × Json))) (frames : List Frame)
  | expectColon (fields : Option (List (String × Json))) (key : String) (frames : List Frame)
  | complete (value : Json) (frames : List Frame)
  deriving Repr, BEq

/-- Greatest number of readable arrays and objects that stand inside one another. -/
def maxNesting : Nat := 127

/-- An array or object is complete; `frames` are the ones around it. -/
def close (frames : List Frame) (value : Json) : Reading :=
  .complete (if frames.length < maxNesting then value else .unreadable) frames

def objectOf : Option (List (String × Json)) → Json
  | some fields => .obj fields.reverse
  | none => .unreadable

def startValue (frames : List Frame) : Token → Option Reading
  | .openArray => some (.arrayStart frames)
  | .openObject => some (.objectStart frames)
  | .text s => some (.complete (.str s) frames)
  | .brokenText => some (.complete .unreadable frames)
  | .literal value => some (.complete value frames)
  | _ => none

def Reading.step : Reading → Token → Option Reading
  | .expectValue frames, token => startValue frames token
  | .arrayStart frames, .closeArray => some (close frames (.arr []))
  | .arrayStart frames, token => startValue (.array [] :: frames) token
  | .objectStart frames, .closeObject => some (close frames (.obj []))
  | .objectStart frames, .text key => some (.expectColon (some []) key frames)
  | .objectStart frames, .brokenText => some (.expectColon none "" frames)
  | .expectKey fields frames, .text key => some (.expectColon fields key frames)
  | .expectKey _ frames, .brokenText => some (.expectColon none "" frames)
  | .expectColon fields key frames, .colon => some (.expectValue (.object fields key :: frames))
  | .complete value (.array items :: frames), .comma =>
    some (.expectValue (.array (value :: items) :: frames))
  | .complete value (.array items :: frames), .closeArray =>
    some (close frames (.arr (value :: items).reverse))
  | .complete value (.object fields key :: frames), .comma =>
    some (.expectKey (fields.map ((key, value) :: ·)) frames)
  | .complete value (.object fields key :: frames), .closeObject =>
    some (close frames (objectOf (fields.map ((key, value) :: ·))))
  | _, _ => none

def Reading.run (state : Reading) : List Token → Option Reading
  | [] => some state
  | token :: rest =>
    match state.step token with
    | none => none
    | some next => next.run rest

def ofTokens? (tokens : List Token) : Option Json :=
  match (Reading.expectValue []).run tokens with
  | some (.complete value []) => some value
  | _ => none

def parse? (s : String) : Option Json := (lex s).bind ofTokens?

end PlanLowering.Json
