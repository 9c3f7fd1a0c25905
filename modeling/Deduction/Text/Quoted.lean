import Deduction.Text.Unprintable

/-!
# Quoted text

A text in double quotes. Quote, backslash and the common controls have short
escapes; every other character without a visible form is written by its code
point in lower-case hexadecimal digits.
-/

namespace Deduction.Text

/-- A code point between braces, after a backslash and the letter u. -/
def codePointEscape (c : Char) : String :=
  "\\u\x7b" ++ String.ofList (Nat.toDigits 16 c.toNat) ++ "\x7d"

/-- One character as it stands inside the quotes. -/
def escapeChar (c : Char) : String :=
  if c.toNat = 0x00 then "\\0"
  else if c.toNat = 0x09 then "\\t"
  else if c.toNat = 0x0a then "\\n"
  else if c.toNat = 0x0d then "\\r"
  else if c.toNat = 0x22 then "\\\""
  else if c.toNat = 0x5c then "\\\\"
  else if isUnprintable c then codePointEscape c
  else c.toString

/-- The text between double quotes, character by character. -/
def quoted (s : String) : String :=
  "\"" ++ String.join (s.toList.map escapeChar) ++ "\""

end Deduction.Text
