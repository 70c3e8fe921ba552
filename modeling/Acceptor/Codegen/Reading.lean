import Acceptor.Codegen.Literal

/-!
# Reading tokens

Source text is cut into tokens from left to right: brackets, literals, names and
numbers as long as they go, and marks of one or two characters. Blanks and comments
separate tokens and mean nothing else, except for comments that document what
follows: each of them is read as an attribute that carries its text.
-/

namespace Acceptor.Codegen

/-- What follows a block comment from inside of it. Comments nest; as many as `depth`
are open around the innermost one. -/
def afterBlock? : Nat → List Char → Option (List Char)
  | _, [] => none
  | 0, '*' :: '/' :: rest => some rest
  | depth + 1, '*' :: '/' :: rest => afterBlock? depth rest
  | depth, '/' :: '*' :: rest => afterBlock? (depth + 1) rest
  | depth, _ :: rest => afterBlock? depth rest

/-- Whether a comment documents something, seen from behind the two characters that open
it, the second of which is `last`: an exclamation mark follows, or `last` once more but
not twice and without closing the comment. -/
def documents (last : Char) : List Char → Bool
  | [] => false
  | '!' :: _ => true
  | [c] => c = last
  | c :: d :: _ => c = last && d ≠ last && d ≠ '/'

/-- What follows the comment at the front of a text, if there is one that documents
nothing. -/
def afterComment? : List Char → Option (List Char)
  | '/' :: '/' :: rest =>
    if documents '/' rest then none else some (rest.dropWhile (· ≠ '\n'))
  | '/' :: '*' :: rest => if documents '*' rest then none else afterBlock? 0 rest
  | _ => none

/-- The attribute that a documenting comment stands for. The mark is the third
character of the comment: an exclamation mark documents what is around it. -/
def documentation (mark : Char) (body : List Char) : List Token :=
  words (if mark = '!' then ["#", "!"] else ["#"]) ++
    enclosed .square (words ["doc", "="] ++ [.text (String.ofList body)])

/-- The documenting comment at the front of a text, and the text behind it. -/
def readDocumentation? : List Char → Option (List Token × List Char)
  | '/' :: '/' :: mark :: rest =>
    if documents '/' (mark :: rest) then
      let inLine := fun c => c ≠ '\r' && c ≠ '\n'
      some (documentation mark (rest.takeWhile inLine), rest.dropWhile inLine)
    else none
  | '/' :: '*' :: mark :: rest =>
    if documents '*' (mark :: rest) then
      (afterBlock? 0 rest).map fun behind =>
        (documentation mark (rest.take (rest.length - behind.length - 2)), behind)
    else none
  | _ => none

def bracket? (c : Char) : Option Token :=
  if c = '(' then some (.opening .round)
  else if c = ')' then some (.closing .round)
  else if c = '[' then some (.opening .square)
  else if c = ']' then some (.closing .square)
  else if c = '{' then some (.opening .curly)
  else if c = '}' then some (.closing .curly)
  else none

def isMark (c : Char) : Bool := c ∈ "~!@#$%^&*-=+|;:,<.>/?'".toList

def isDoubleMark (c d : Char) : Bool :=
  c = ':' && d = ':' || c = '=' && d = '>' || c = '-' && d = '>'

/-- A mark: two characters that belong together, or one. -/
def readMark (c : Char) : List Char → Token × List Char
  | d :: rest =>
    if isDoubleMark c d then (.word (String.ofList [c, d]), rest)
    else (.word (String.singleton c), d :: rest)
  | [] => (.word (String.singleton c), [])

/-- A name, a keyword or a number, as long as it goes. -/
def readWord (text : List Char) : Token × List Char :=
  (.word (String.ofList (text.takeWhile isWordChar)), text.dropWhile isWordChar)

/-- A name that is marked as no keyword; the mark belongs to the name. -/
def readMarkedName? : List Char → Option (Token × List Char)
  | 'r' :: '#' :: c :: rest =>
    if isNameStart c then
      some (.word (String.ofList ('r' :: '#' :: c :: rest.takeWhile isWordChar)),
        rest.dropWhile isWordChar)
    else none
  | _ => none

/-- The token at the front of a text that begins with `c`, and the text behind it. -/
def readToken? (c : Char) (rest : List Char) : Option (Token × List Char) :=
  match bracket? c with
  | some t => some (t, rest)
  | none =>
    readLiteral? (c :: rest) <|> readMarkedName? (c :: rest) <|>
      if isWordChar c then some (readWord (c :: rest))
      else if isMark c then some (readMark c rest)
      else none

/-- The tokens that the front of a text that begins with `c` stands for, and the text
behind them. -/
def readFront? (c : Char) (rest : List Char) : Option (List Token × List Char) :=
  if Text.isBlank c then some ([], rest.dropWhile Text.isBlank)
  else
    ((afterComment? (c :: rest)).map fun rest => ([], rest)) <|>
      readDocumentation? (c :: rest) <|>
      (readToken? c rest).map fun (t, rest) => ([t], rest)

/-- The tokens of a text, if it consists of tokens, blanks and comments. -/
def readTokens? (text : List Char) : Option (List Token) :=
  match text with
  | [] => some []
  | c :: rest =>
    match readFront? c rest with
    | none => none
    | some (tokens, behind) =>
      if behind.length ≤ rest.length then (readTokens? behind).map (tokens ++ ·) else none
termination_by text.length

/-- A text without the byte order mark that may stand at its front. -/
def withoutByteOrderMark : List Char → List Char
  | '\uFEFF' :: rest => rest
  | text => text

/-- The tokens of a source text; none if it does not consist of tokens. -/
def Token.ofSource (source : String) : List Token :=
  (readTokens? (withoutByteOrderMark source.toList)).getD []

/-- The name that a source text consists of. -/
def nameOfSource? (source : String) : Option String :=
  match Token.ofSource source with
  | [.word name] => some name
  | _ => none

end Acceptor.Codegen
