import TreeGrammar.Text.Unprintable

/-!
This module contains the quoted form of a text, in which messages show names and values.
-/

namespace TreeGrammar.Text

/--
How a character is written between double quotes. Quote, backslash and the usual controls have a
two-character form, every other unprintable character is given by its code point in hexadecimal,
and the rest stand for themselves.
-/
def quotedChar (c : Char) : String :=
  match c with
  | '"' => "\\\""
  | '\\' => "\\\\"
  | '\n' => "\\n"
  | '\r' => "\\r"
  | '\t' => "\\t"
  | '\x00' => "\\0"
  | c =>
    if isUnprintable c then
      "\\u\x7b" ++ String.ofList (Nat.toDigits 16 c.toNat) ++ "\x7d"
    else
      c.toString

def quoted (s : String) : String :=
  "\"" ++ String.join (s.toList.map quotedChar) ++ "\""

end TreeGrammar.Text
