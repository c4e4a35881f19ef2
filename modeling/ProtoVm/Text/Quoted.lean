import ProtoVm.Text.Combining
import ProtoVm.Text.Numeral

/-!
# Quoted text

Text between double quotes. A quote, a backslash and four control characters have escapes of two
characters; whatever else would not be seen as a character of its own is written by its number.
-/

namespace ProtoVm.Text

def quoteChar (c : Char) : String :=
  match c with
  | '\x00' => "\\0"
  | '\t' => "\\t"
  | '\r' => "\\r"
  | '\n' => "\\n"
  | '\\' => "\\\\"
  | '"' => "\\\""
  | _ =>
    if isCombining c || !isPrintable c then "\\u\x7b" ++ hex c.toNat ++ "\x7d"
    else String.singleton c

def quote (s : String) : String := "\"" ++ String.join (s.toList.map quoteChar) ++ "\""

/-- Quoted texts between brackets. -/
def quoteList (texts : List String) : String := "[" ++ ", ".intercalate (texts.map quote) ++ "]"

end ProtoVm.Text
