import GramCensus.Text.Hidden

/-!
# Quoted texts

A text between double quotes, in which a backslash marks what does not stand for itself: quotes,
backslashes, the usual control characters by a letter, and all other characters that do not show by
their number.
-/

namespace GramCensus

/-- A character by its number in hexadecimal. -/
def numberEscape (c : Char) : List Char :=
  '\\' :: 'u' :: '\x7b' :: (Nat.toDigits 16 c.toNat ++ ['\x7d'])

/-- A character of a quoted text. -/
def quotedChar (c : Char) : List Char :=
  if c = '"' then ['\\', '"']
  else if c = '\\' then ['\\', '\\']
  else if c = '\n' then ['\\', 'n']
  else if c = '\r' then ['\\', 'r']
  else if c = '\t' then ['\\', 't']
  else if c = '\x00' then ['\\', '0']
  else if isHidden c then numberEscape c
  else [c]

/-- A text between quotes. -/
def quoted (text : List Char) : List Char :=
  '"' :: (text.flatMap quotedChar ++ ['"'])

end GramCensus
