/-
Texts between double quotes. Inside them a quote, a backslash and a character that is not
shown are written as escapes, so that a reader sees where the text begins and ends.
-/
import AdaptiveRadix.Text.Printable

namespace AdaptiveRadix.Text

/-- The digits of a number in base 16, in small letters. -/
def hexadecimal (n : Nat) : String :=
  String.ofList (Nat.toDigits 16 n)

/-- A byte as `0x` and two digits in base 16. -/
def hexadecimalByte (b : UInt8) : String :=
  (if b < 16 then "0x0" else "0x") ++ hexadecimal b.toNat

namespace Quoted

/-- One character as it stands between the quotes. -/
def escape (c : Char) : String :=
  match c with
  | '\x00' => "\\0"
  | '\t' => "\\t"
  | '\n' => "\\n"
  | '\r' => "\\r"
  | '"' => "\\\""
  | '\\' => "\\\\"
  | c => if isPrintable c then c.toString else "\\u\x7b" ++ hexadecimal c.toNat ++ "\x7d"

end Quoted

def quote (s : String) : String :=
  "\"" ++ String.join (s.toList.map Quoted.escape) ++ "\""

end AdaptiveRadix.Text
