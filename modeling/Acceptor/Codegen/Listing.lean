import Acceptor.Codegen.Token
import Acceptor.Pattern.Table

/-!
# Listings of matchers

A listing is the Rust source of a type that matches one pattern: the table of the
pattern, spelled out as the arms of three `match` expressions over the state. The
structure below keeps what varies from listing to listing; `tokens` writes out the
rest.
-/

namespace Acceptor.Codegen

/-- What varies in the source of a matcher. -/
structure Listing where
  visibility : List Token
  name : String
  /-- The messages of errors that the compiler shall report. -/
  errors : List String
  initial : Nat
  /-- For each state the symbols that can be read in it, with the next state. -/
  moves : List (Nat × List (Char × Nat))
  accepting : List (Nat × Bool)
  dead : List (Nat × Bool)
deriving DecidableEq

namespace Listing

def ofTable (t : Table Char) (visibility : List Token) (name : String)
    (errors : List String) : Listing where
  visibility := visibility
  name := name
  errors := errors
  initial := t.initial
  moves := t.states.toList.map fun q => (q, t.transitions q)
  accepting := t.states.toList.map fun q => (q, t.isAccepting q)
  dead := t.states.toList.map fun q => (q, t.isDead q)

/-- The number of a state as a literal. -/
def stateToken (q : Nat) : Token := .word (q.repr ++ "usize")

/-- The arm for every scrutinee that cannot occur. -/
def unreachableArm : List Token :=
  words ["_", "=>", "unreachable", "!"] ++ enclosed .round [] ++ words [","]

def matchState (arms : List Token) : List Token :=
  words ["match", "self", ".", "state"] ++ enclosed .curly (arms ++ unreachableArm)

def ifStuck (value : List Token) : List Token :=
  words ["if", "self", ".", "stuck"] ++
    enclosed .curly (words ["return"] ++ value ++ words [";"])

def assign (field : String) (value : Token) : List Token :=
  enclosed .curly (words ["self", ".", field, "="] ++ [value] ++ words [";"])

def moveArm (move : Char × Nat) : List Token :=
  .char move.1 :: .word "=>" :: assign "state" (stateToken move.2)

/-- The arm of one state when a symbol is read. -/
def moveArms (entry : Nat × List (Char × Nat)) : List Token :=
  stateToken entry.1 :: words ["=>", "match", "token"] ++
    enclosed .curly (commas (entry.2.map moveArm) ++ words ["_", "=>"] ++
      assign "stuck" (.word "true"))

/-- The arm of one state when a question about it is asked. -/
def answerArm (entry : Nat × Bool) : List Token :=
  stateToken entry.1 :: words ["=>", if entry.2 then "true" else "false", ","]

def question (name : String) (ifStuckAnswer : String) (arms : List (Nat × Bool)) : List Token :=
  words ["fn", name] ++ enclosed .round (words ["&", "self"]) ++ words ["->", "bool"] ++
    enclosed .curly (ifStuck (words [ifStuckAnswer]) ++ matchState (arms.flatMap answerArm))

def typeTokens (l : Listing) : List Token :=
  words ["#"] ++
    enclosed .square (words ["derive"] ++ enclosed .round (words ["Debug", ",", "Clone"])) ++
    l.visibility ++ words ["struct", l.name] ++
    enclosed .curly (words ["state", ":", "usize", ",", "stuck", ":", "bool", ","])

def newTokens (l : Listing) : List Token :=
  words ["impl", l.name] ++
    enclosed .curly (l.visibility ++ words ["fn", "new"] ++ enclosed .round [] ++
      words ["->", "Self"] ++
      enclosed .curly (words ["Self"] ++
        enclosed .curly (words ["state", ":"] ++ [stateToken l.initial] ++
          words [",", "stuck", ":", "false"])))

def acceptTokens (l : Listing) : List Token :=
  words ["fn", "accept"] ++
    enclosed .round (words ["&", "mut", "self", ",", "token", ":", "char"]) ++
    enclosed .curly (ifStuck [] ++ matchState (commas (l.moves.map moveArms)))

def matcherTokens (l : Listing) : List Token :=
  words ["impl", "::", "automata", "::", "PatternMatcher", "for", l.name] ++
    enclosed .curly (words ["type", "Alphabet", "=", "char", ";"] ++ l.acceptTokens ++
      question "is_accepting" "false" l.accepting ++ question "is_stuck" "true" l.dead)

/-- The source, where `render` writes the error with a message. -/
def tokens (render : String → List Token) (l : Listing) : List Token :=
  l.errors.flatMap render ++ l.typeTokens ++ l.newTokens ++ l.matcherTokens

end Listing

end Acceptor.Codegen
