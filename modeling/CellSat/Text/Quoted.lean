import CellSat.Text.Hidden
import CellSat.Text.Number
/-!
# Quoted text

Texts quoted inside messages: quotation marks around them, short escapes for the usual control
characters, and a hexadecimal number for every other character without a picture.

* `quote`: a string as it is shown in a message.
-/

namespace CellSat.Text

/-- How one character is written between quotation marks. -/
def quoteChar (c : Char) : String :=
  match c with
  | '"' => "\\\""
  | '\\' => "\\\\"
  | '\t' => "\\t"
  | '\n' => "\\n"
  | '\r' => "\\r"
  | _ =>
    if c.toNat = 0 then "\\0"
    else if isHidden c then "\\u\x7b" ++ hex c.toNat ++ "\x7d"
    else c.toString

/-- A string between quotation marks. -/
def quote (s : String) : String :=
  "\"" ++ String.join (s.toList.map quoteChar) ++ "\""

end CellSat.Text
