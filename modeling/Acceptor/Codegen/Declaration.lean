import Acceptor.Codegen.Reading

/-!
# Declarations of matchers

A matcher is declared like a type: attributes, a visibility, the keyword `type`, a
name, an equals sign, the text of a pattern as a literal, and perhaps a semicolon.
Of all attributes only `#[graph = "path"]` has a meaning.
-/

namespace Acceptor.Codegen

inductive Attribute where
  /-- Asks for a drawing in the file at `path`. -/
  | graph (path : String)
  /-- Any other attribute; there is no use for it. -/
  | other
deriving DecidableEq

/-- The attribute with these tokens between its brackets. -/
def Attribute.ofContent : List Token → Attribute
  | [.word "graph", .word "=", .text path] => .graph path
  | _ => .other

/-- The tokens up to the bracket that closes a group, from inside of the group, and the
tokens behind that bracket. As many groups as `depth` are open inside of it. -/
def readGroup? : Nat → List Token → Option (List Token × List Token)
  | _, [] => none
  | depth, .opening b :: rest => prepend (.opening b) (readGroup? (depth + 1) rest)
  | 0, .closing _ :: rest => some ([], rest)
  | depth + 1, .closing b :: rest => prepend (.closing b) (readGroup? depth rest)
  | depth, t :: rest => prepend t (readGroup? depth rest)

/-- The attributes at the front of the tokens, and the tokens behind them. -/
def readAttributes (tokens : List Token) : List Attribute × List Token :=
  match tokens with
  | .word "#" :: .opening .square :: rest =>
    match readGroup? 0 rest with
    | none => ([], tokens)
    | some (content, behind) =>
      if behind.length ≤ rest.length then
        let (attributes, behind) := readAttributes behind
        (.ofContent content :: attributes, behind)
      else ([], tokens)
  | _ => ([], tokens)
termination_by tokens.length

/-- The declaration of a matcher. -/
structure Declaration where
  attributes : List Attribute
  visibility : List Token
  name : String
  text : String

namespace Declaration

def ofTokens? (tokens : List Token) : Option Declaration :=
  let (attributes, rest) := readAttributes tokens
  let isType := fun t => t = .word "type"
  match rest.dropWhile (!isType ·) with
  | _ :: .word name :: .word "=" :: .text text :: ending =>
    if ending = [] ∨ ending = words [";"] then
      some ⟨attributes, rest.takeWhile (!isType ·), name, text⟩
    else none
  | _ => none

/-- The declaration that pieces of source spell, each on lines of its own. -/
def ofSource? (pieces : List String) : Option Declaration :=
  (readTokens? (pieces.flatMap fun piece =>
    withoutByteOrderMark piece.toList ++ ['\n'])).bind ofTokens?

end Declaration

end Acceptor.Codegen
