import Calculator.Text.Unprintable
import Calculator.Text.Combining

/-!
# Quoted text

A text between double quotes on one line.  Quotes and backslashes get a backslash, and a character
that cannot be seen on its own is written by a letter or by its code point.
-/

namespace Calculator.Text

/-- A natural number in lowercase hexadecimal. -/
def hexadecimal (n : Nat) : List Char := Nat.toDigits 16 n

/-- How a character is written between the quotes.  Printable ASCII needs no table. -/
def quotedChar (c : Char) : List Char :=
  if c = '"' then ['\\', '"']
  else if c = '\\' then ['\\', '\\']
  else if c = '\t' then ['\\', 't']
  else if c = '\r' then ['\\', 'r']
  else if c = '\n' then ['\\', 'n']
  else if c = '\x00' then ['\\', '0']
  else if ' ' ≤ c ∧ c ≤ '~' then [c]
  else if isCombining c || isUnprintable c then
    ['\\', 'u', '\x7b'] ++ hexadecimal c.toNat ++ ['\x7d']
  else [c]

/-- A text between double quotes. -/
def quoted (text : String) : String :=
  String.ofList ('"' :: (text.toList.flatMap quotedChar ++ ['"']))

example : quoted "it's \"\\\n\x07é\u0301" = "\"it's \\\"\\\\\\n\\u\x7b7\x7dé\\u\x7b301\x7d\"" := by
  decide +kernel

example : quoted "\u3164\uff9e" = "\"\\u\x7b3164\x7d\uff9e\"" := by decide +kernel

end Calculator.Text
