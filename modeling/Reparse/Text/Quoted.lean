/-!
# Quoted text

Texts and characters are shown between quotes, with a backslash in front of
the quote and of the backslash itself.  A tab, a line end and the null
character have escapes of one letter, and the other control characters are
written by their number.  Every other character stands for itself.
-/

namespace Reparse

namespace Quoted

/-- The lower case hexadecimal digits of a number. -/
def hexadecimal (number : Nat) : String := String.ofList (Nat.toDigits 16 number)

/-- A character as it stands between two given quotes. -/
def escape (quote char : Char) : String :=
  if char = quote ∨ char = '\\' then String.ofList ['\\', char]
  else if char = '\t' then "\\t"
  else if char = '\n' then "\\n"
  else if char = '\r' then "\\r"
  else if char.toNat = 0 then "\\0"
  else if char.toNat < 32 ∨ char.toNat = 127 then "\\u\x7b" ++ hexadecimal char.toNat ++ "\x7d"
  else String.singleton char

def text (content : String) : String :=
  "\"" ++ String.join (content.toList.map (escape '"')) ++ "\""

def char (content : Char) : String :=
  "'" ++ escape '\'' content ++ "'"

end Quoted

end Reparse
