import Acceptor.Pattern.Basic
import Acceptor.Text.Quoted

/-!
# Writing patterns

The text of a pattern: parts side by side for a concatenation, `|` for a choice,
`*` for a repetition, nothing at all for the empty pattern. A part stands in
brackets only if it binds looser than its place demands. Symbols are written as
they are, so a symbol that looks like an operator cannot be told from one.
-/

namespace Acceptor.Pattern

variable {α : Type} [Plain α]

/-- Puts brackets around what `write` writes, if they are needed. -/
def bracketed (needed : Bool) (write : List Char → List Char) (rest : List Char) :
    List Char :=
  if needed then '(' :: write (')' :: rest) else write rest

/-- The text of the pattern at a place that demands the precedence `place`, followed
by `rest`. -/
def writeOnto : Pattern α → Nat → List Char → List Char
  | empty, _, rest => rest
  | literal a, _, rest => plain a ++ rest
  | concat p q, place, rest =>
    bracketed (1 < place) (fun rest => p.writeOnto 1 (q.writeOnto 1 rest)) rest
  | choice p q, place, rest =>
    bracketed (0 < place) (fun rest => p.writeOnto 0 ('|' :: q.writeOnto 0 rest)) rest
  | star p, place, rest =>
    bracketed (2 < place) (fun rest => p.writeOnto 2 ('*' :: rest)) rest

def text (p : Pattern α) : String := String.ofList (p.writeOnto 0 [])

/-- The text of a pattern, in brackets if it binds looser than `place`. -/
def bracket (p : Pattern α) (place : Nat) : String :=
  if p.precedence < place then "(" ++ p.text ++ ")" else p.text

instance : Quoted (Pattern α) where
  quoted p := "/" ++ p.text ++ "/"

end Acceptor.Pattern
