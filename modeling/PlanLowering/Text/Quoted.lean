import PlanLowering.Text.Numeral
import PlanLowering.Text.Shapeless

/-! # Quoted text

A quoted text stands between double quotes. Quote, backslash and the common control characters
are escaped by one letter, characters without a shape of their own by their code point.
-/

namespace PlanLowering.Text

def escapeChar (c : Char) : String :=
  match c with
  | '"' => "\\\""
  | '\\' => "\\\\"
  | '\n' => "\\n"
  | '\r' => "\\r"
  | '\t' => "\\t"
  | '\x00' => "\\0"
  | c => if isShapeless c then "\\u\x7b" ++ hex c.toNat ++ "\x7d" else c.toString

def quoted (s : String) : String :=
  "\"" ++ String.join (s.toList.map escapeChar) ++ "\""

def quotedOption : Option String → String
  | none => "None"
  | some s => "Some(" ++ quoted s ++ ")"

end PlanLowering.Text
