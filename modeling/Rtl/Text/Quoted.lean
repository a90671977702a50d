import Rtl.Text.Printable

/-! # Quoted text

A quoted text stands on one line: quotes, backslashes and characters without a glyph of
their own are escaped.
-/

namespace Rtl.Text

/-- The code point of a character in hexadecimal, without leading zeros. -/
def hexadecimal (c : Char) : String :=
  String.ofList (Nat.toDigits 16 c.toNat)

def escape (c : Char) : String :=
  match c with
  | '\x00' => "\\0"
  | '\t' => "\\t"
  | '\n' => "\\n"
  | '\r' => "\\r"
  | '\"' => "\\\""
  | '\\' => "\\\\"
  | c => if isPrintable c then c.toString else "\\u\x7b" ++ hexadecimal c ++ "\x7d"

def quote (text : String) : String :=
  "\"" ++ String.join (text.toList.map escape) ++ "\""

end Rtl.Text
