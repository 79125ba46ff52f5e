import PlanLowering.Json.Basic
import PlanLowering.Json.Magnitude
import PlanLowering.Text.Numeral

/-! # JSON tokens

The text of each token, and the split of a text into tokens one character at a time.
-/

namespace PlanLowering.Json

inductive Token where
  | openArray | closeArray | openObject | closeObject | comma | colon
  | text (s : String)
  /-- Quoted text that holds half of a surrogate pair. -/
  | brokenText
  | literal (value : Json)
  deriving Repr, BEq

def escaped (c : Char) : List Char :=
  match c with
  | '"' => ['\\', '"']
  | '\\' => ['\\', '\\']
  | '\n' => ['\\', 'n']
  | '\r' => ['\\', 'r']
  | '\t' => ['\\', 't']
  | '\x08' => ['\\', 'b']
  | '\x0c' => ['\\', 'f']
  | c =>
    if c.toNat < 0x20 then
      ['\\', 'u', '0', '0', Nat.digitChar (c.toNat / 16), Nat.digitChar (c.toNat % 16)]
    else [c]

def literalText : Json → String
  | .null => "null"
  | .bool true => "true"
  | .bool false => "false"
  | .int n => toString n
  | .decimal text => text
  | _ => ""

def Token.render : Token → String
  | .openArray => "["
  | .closeArray => "]"
  | .openObject => "\x7b"
  | .closeObject => "\x7d"
  | .comma => ","
  | .colon => ":"
  | .text s => "\"" ++ String.ofList (s.toList.flatMap escaped) ++ "\""
  | .literal value => literalText value
  | .brokenText => "\"\""

/-- A fraction and an exponent behind the whole part of a number, each of which may be missing:
the digits of the fraction and the value of the exponent. -/
def numberTail? (cs : List Char) : Option (List Char × Int) :=
  let exponent? : List Char → Option Int
    | [] => some 0
    | e :: cs =>
      if e = 'e' ∨ e = 'E' then
        match cs with
        | '-' :: digits => (Text.digits? 10 digits).map fun n => -(n : Int)
        | digits => (Text.unsigned? 10 digits).map Int.ofNat
      else none
  match cs with
  | '.' :: rest =>
    let fraction := rest.takeWhile Char.isDigit
    if fraction = [] then none
    else (exponent? (rest.dropWhile Char.isDigit)).map fun e => (fraction, e)
  | rest => (exponent? rest).map fun e => ([], e)

/-- A zero is followed by no digit. A minus sign makes no integer of zero. -/
def number? (cs : List Char) : Option Json := do
  let (negative, digits) := match cs with
    | '-' :: rest => (true, rest)
    | rest => (false, rest)
  let whole := digits.takeWhile Char.isDigit
  let rest := digits.dropWhile Char.isDigit
  if whole.head? = some '0' ∧ whole.length ≠ 1 then none
  else
    let n ← Text.digits? 10 whole
    if rest = [] ∧ ¬(negative ∧ n = 0) then
      if (Magnitude.ofDigits whole [] 0).exceedsFloat then some .unreadable
      else some (.int (if negative then -n else n))
    else
      let (fraction, exponent) ← numberTail? rest
      if (Magnitude.ofDigits whole fraction exponent).exceedsFloat then some .unreadable
      else some (.decimal (String.ofList cs))

def literal? (cs : List Char) : Option Json :=
  if cs = ['n', 'u', 'l', 'l'] then some .null
  else if cs = ['t', 'r', 'u', 'e'] then some (.bool true)
  else if cs = ['f', 'a', 'l', 's', 'e'] then some (.bool false)
  else number? cs

/-- Where the split stands. Characters already seen are kept last first; inside a text they are
missing once it holds half of a surrogate pair. -/
inductive Lexing where
  | between
  | bare (seen : List Char)
  | text (seen : Option (List Char))
  | escape (seen : Option (List Char))
  /-- Inside a code of four digits; `high` is the first half of a pair. -/
  | code (seen : Option (List Char)) (high : Option Nat) (digits value : Nat)
  | secondHalf (seen : Option (List Char)) (high : Nat)
  | secondMark (seen : Option (List Char)) (high : Nat)
  deriving Repr, BEq

def isBare (c : Char) : Bool := c.isAlphanum || c = '-' || c = '+' || c = '.'

def startToken (c : Char) : Option (Lexing × List Token) :=
  match c with
  | ' ' => some (.between, [])
  | '\t' => some (.between, [])
  | '\n' => some (.between, [])
  | '\r' => some (.between, [])
  | '[' => some (.between, [.openArray])
  | ']' => some (.between, [.closeArray])
  | '\x7b' => some (.between, [.openObject])
  | '\x7d' => some (.between, [.closeObject])
  | ',' => some (.between, [.comma])
  | ':' => some (.between, [.colon])
  | '"' => some (.text (some []), [])
  | c => if isBare c then some (.bare [c], []) else none

/-- A code in the first half of the surrogate range needs its second half, which stands nowhere
else. -/
def codeChar (seen : Option (List Char)) (high : Option Nat) (code : Nat) : Lexing :=
  match high with
  | none =>
    if 0xD800 ≤ code ∧ code < 0xDC00 then .secondHalf seen code
    else if 0xDC00 ≤ code ∧ code < 0xE000 then .text none
    else .text (seen.map (Char.ofNat code :: ·))
  | some high =>
    if 0xDC00 ≤ code ∧ code < 0xE000 then
      .text (seen.map (Char.ofNat (0x10000 + (high - 0xD800) * 0x400 + (code - 0xDC00)) :: ·))
    else .text none

def unescape? : Char → Option Char
  | '"' => some '"'
  | '\\' => some '\\'
  | '/' => some '/'
  | 'b' => some '\x08'
  | 'f' => some '\x0c'
  | 'n' => some '\n'
  | 'r' => some '\r'
  | 't' => some '\t'
  | _ => none

def textToken : Option (List Char) → Token
  | some seen => .text (String.ofList seen.reverse)
  | none => .brokenText

def textStep (seen : Option (List Char)) (c : Char) : Option (Lexing × List Token) :=
  if c = '"' then some (.between, [textToken seen])
  else if c = '\\' then some (.escape seen, [])
  else if c.toNat < 0x20 then none
  else some (.text (seen.map (c :: ·)), [])

def escapeStep (seen : Option (List Char)) (c : Char) : Option (Lexing × List Token) :=
  if c = 'u' then some (.code seen none 0 0, [])
  else (unescape? c).map fun c => (.text (seen.map (c :: ·)), [])

def Lexing.step (c : Char) : Lexing → Option (Lexing × List Token)
  | .between => startToken c
  | .bare seen =>
    if isBare c then some (.bare (c :: seen), [])
    else do
      let value ← literal? seen.reverse
      let (next, tokens) ← startToken c
      return (next, .literal value :: tokens)
  | .text seen => textStep seen c
  | .escape seen => escapeStep seen c
  | .code seen high digits value => do
    let value := value * 16 + (← Text.digit? 16 c)
    if digits = 3 then return (codeChar seen high value, [])
    else return (.code seen high (digits + 1) value, [])
  | .secondHalf seen high =>
    if c = '\\' then some (.secondMark seen high, []) else textStep none c
  | .secondMark seen high =>
    if c = 'u' then some (.code seen (some high) 0 0, []) else escapeStep none c

def Lexing.finish : Lexing → Option (List Token)
  | .between => some []
  | .bare seen => (literal? seen.reverse).map fun value => [.literal value]
  | _ => none

/-- The tokens found so far are kept last first. -/
def lexFrom (state : Lexing) (found : List Token) : List Char → Option (List Token)
  | [] => state.finish.map fun last => found.reverse ++ last
  | c :: cs =>
    match state.step c with
    | none => none
    | some (next, tokens) => lexFrom next (tokens.reverse ++ found) cs

def lex (s : String) : Option (List Token) := lexFrom .between [] s.toList

end PlanLowering.Json
