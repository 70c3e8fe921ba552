import Acceptor.Pattern.Parse

/-!
# The grammar of pattern texts

What the text of a pattern is, said as a grammar: a choice is made of sequences
with bars between them, a sequence of factors side by side, a factor of an atom and
stars, and an atom is a group, an escaped character or a plain one. A text derives
its pattern together with it; choices and sequences grow to the right, so that they
are folded to the left.
-/

namespace Acceptor.Pattern

/-- The kinds of texts in the grammar. -/
inductive Phrase where
  /-- One or more sequences, with bars between them. -/
  | choice
  /-- Any number of factors. -/
  | sequence
  /-- One or more factors. -/
  | factors
  /-- An atom and any number of stars. -/
  | factor
  /-- A group or a character. -/
  | atom
deriving DecidableEq

/-- A text is a phrase of some kind and denotes a pattern. -/
inductive Derives : Phrase → List Char → Pattern Char → Prop
  | single {t : List Char} {p : Pattern Char} :
      Derives .sequence t p → Derives .choice t p
  | bar {t u : List Char} {p q : Pattern Char} :
      Derives .choice t p → Derives .sequence u q → Derives .choice (t ++ '|' :: u) (.choice p q)
  | nothing : Derives .sequence [] .empty
  | some {t : List Char} {p : Pattern Char} :
      Derives .factors t p → Derives .sequence t p
  | first {t : List Char} {p : Pattern Char} :
      Derives .factor t p → Derives .factors t p
  | next {t u : List Char} {p q : Pattern Char} :
      Derives .factors t p → Derives .factor u q → Derives .factors (t ++ u) (.concat p q)
  | once {t : List Char} {p : Pattern Char} : Derives .atom t p → Derives .factor t p
  | star {t : List Char} {p : Pattern Char} :
      Derives .factor t p → Derives .factor (t ++ ['*']) (.star p)
  | group {t : List Char} {p : Pattern Char} :
      Derives .choice t p → Derives .atom ('(' :: t ++ [')']) p
  | escaped {c : Char} : isMeta c → Derives .atom ['\\', c] (.literal c)
  | plain {c : Char} : isMeta c = false → Derives .atom [c] (.literal c)

end Acceptor.Pattern
