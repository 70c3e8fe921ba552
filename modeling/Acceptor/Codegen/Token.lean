import Acceptor.Text.Escape

/-!
# Tokens of Rust source

Generated source is a flat list of tokens; brackets are tokens of their own. It is
laid out on one line with a single space between tokens, except on the inner side
of round and square brackets.
-/

namespace Acceptor.Codegen

inductive Bracket where
  | round
  | square
  | curly
deriving DecidableEq

/-- A token of Rust source. -/
inductive Token where
  /-- A name, a keyword, a number, a punctuation mark, or a literal of a kind that is not
  told apart, as it is spelled. -/
  | word (s : String)
  | char (c : Char)
  /-- A string literal. -/
  | text (s : String)
  | opening (b : Bracket)
  | closing (b : Bracket)
deriving DecidableEq

namespace Bracket

def openingChar : Bracket → Char
  | round => '('
  | square => '['
  | curly => '{'

def closingChar : Bracket → Char
  | round => ')'
  | square => ']'
  | curly => '}'

end Bracket

/-- What stands between the quotes of a string literal. The short escape of the
character zero must not be followed by an octal digit. -/
def literalBody : List Char → List Char
  | [] => []
  | c :: rest =>
    if c = '\x00' ∧ rest.head?.any (fun d => '0' ≤ d ∧ d ≤ '7') then
      '\\' :: 'x' :: '0' :: '0' :: literalBody rest
    else Text.escape '"' c ++ literalBody rest

namespace Token

def written : Token → List Char
  | word s => s.toList
  | char c => (Text.quoteChar c).toList
  | text s => '"' :: (literalBody s.toList ++ ['"'])
  | opening b => [b.openingChar]
  | closing b => [b.closingChar]

/-- Whether nothing stands between `left` and `right` when they follow each other. -/
def touches (left right : Token) : Bool :=
  left = opening .round || left = opening .square ||
    right = closing .round || right = closing .square

/-- Tokens laid out on one line. -/
def layout : List Token → List Char
  | [] => []
  | [t] => t.written
  | t :: u :: rest =>
    t.written ++ if t.touches u then layout (u :: rest) else ' ' :: layout (u :: rest)

def source (tokens : List Token) : String := String.ofList (layout tokens)

end Token

/-- Names and marks, one token each. -/
def words (l : List String) : List Token := l.map .word

def enclosed (b : Bracket) (tokens : List Token) : List Token :=
  .opening b :: (tokens ++ [.closing b])

def commas (items : List (List Token)) : List Token :=
  (items.intersperse [.word ","]).flatten

end Acceptor.Codegen
