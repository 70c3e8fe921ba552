import Acceptor.Text.Visible

/-!
# Escapes

How characters are written between quotes: five of them by a letter of their
own, the quote and the backslash behind a backslash, and what has no visible
form by its number in hexadecimal.
-/

namespace Acceptor.Text

/-- The escape that names a character by its number. -/
def numberEscape (c : Char) : List Char :=
  '\\' :: 'u' :: '{' :: (Nat.toDigits 16 c.toNat ++ ['}'])

/-- How `c` is written between two characters `quote`. -/
def escape (quote c : Char) : List Char :=
  if c = '\x00' then ['\\', '0']
  else if c = '\t' then ['\\', 't']
  else if c = '\n' then ['\\', 'n']
  else if c = '\r' then ['\\', 'r']
  else if c = '\\' ∨ c = quote then ['\\', c]
  else if isVisible c then [c]
  else numberEscape c

def quoteChar (c : Char) : String :=
  String.ofList ('\'' :: (escape '\'' c ++ ['\'']))

def quoteString (s : String) : String :=
  String.ofList ('"' :: (s.toList.flatMap (escape '"') ++ ['"']))

end Acceptor.Text
