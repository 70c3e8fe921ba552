import Acceptor.Text.Quoted

/-!
# Labels

The states and symbols of automata that are given by hand. A state is an integer
or a text, integers first; a symbol is a character, an integer or a text, in this
order. The kinds never mix: the integer `1`, the character `'1'` and the text
`"1"` are three different symbols, although they are displayed alike.
-/

namespace Acceptor

/-- The name of a state: an integer or a text. -/
inductive StateLabel where
  | number (n : Int)
  | text (s : String)
deriving DecidableEq

namespace StateLabel

/-- The label as a member of a disjoint union, which carries its order. -/
def toSum : StateLabel → Int ⊕ String
  | number n => .inl n
  | text s => .inr s

theorem toSum_injective : ∀ a b : StateLabel, a.toSum = b.toSum → a = b
  | number _, number _, rfl => rfl
  | text _, text _, rfl => rfl

instance : Ordered StateLabel := .ofInjective toSum toSum_injective

instance : Quoted StateLabel where
  quoted
    | number n => quoted n
    | text s => quoted s

end StateLabel

/-- What an automaton reads: a character, an integer or a text. -/
inductive Symbol where
  | char (c : Char)
  | number (n : Int)
  | text (s : String)
deriving DecidableEq

namespace Symbol

def toSum : Symbol → Char ⊕ (Int ⊕ String)
  | char c => .inl c
  | number n => .inr (.inl n)
  | text s => .inr (.inr s)

theorem toSum_injective : ∀ a b : Symbol, a.toSum = b.toSum → a = b
  | char _, char _, rfl => rfl
  | number _, number _, rfl => rfl
  | text _, text _, rfl => rfl

instance : Ordered Symbol := .ofInjective toSum toSum_injective

instance : Quoted Symbol where
  quoted
    | char c => quoted c
    | number n => quoted n
    | text s => quoted s

instance : Plain Symbol where
  plain
    | char c => plain c
    | number n => plain n
    | text s => plain s

/-- The symbols of a text, one for each character. -/
def ofText (s : String) : List Symbol := s.toList.map char

end Symbol

end Acceptor
