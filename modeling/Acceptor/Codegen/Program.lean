import Acceptor.Codegen.Error
import Acceptor.Codegen.Spelling

/-!
# Programs

Source that declares a type of matchers is read as a program: the fields that a new
matcher has, and the code of the functions that read a symbol and answer questions.
A matcher is given by its fields. The functions of the program are called on it, and
those that read words call them symbol by symbol.
-/

namespace Acceptor.Codegen

/-- Who may use a declaration. -/
inductive Visibility where
  | inherited
  | everywhere
  /-- A module that is named by the words of a path. -/
  | within (path : List String)

def Visibility.tokens : Visibility → List Token
  | inherited => []
  | everywhere => words ["pub"]
  | within path => words ["pub"] ++ enclosed .round (words path)

/-- What stands behind the visibility at the front of the tokens. -/
def dropVisibility : List Token → List Token
  | .word "pub" :: .opening .round :: rest => (rest.dropWhile (· ≠ .closing .round)).tail
  | .word "pub" :: rest => rest
  | rest => rest

/-- The declared fields up to the bracket that closes them, each with its type. -/
def readFields? : List Token → Option (List (String × String) × List Token)
  | .closing .curly :: rest => some ([], rest)
  | .word field :: .word ":" :: .word type :: .word "," :: rest =>
    (readFields? rest).map fun (fields, rest) => ((field, type) :: fields, rest)
  | _ => none

/-- The literals for the fields of a new value, up to the bracket that closes them. -/
def readInitial? : List Token → Option (Fields × List Token)
  | .word field :: .word ":" :: t :: .word "," :: rest =>
    (valueOf? t).bind fun v =>
      (readInitial? rest).map fun (fields, rest) => ((field, v) :: fields, rest)
  | .word field :: .word ":" :: t :: .closing .curly :: rest =>
    (valueOf? t).map fun v => ([(field, v)], rest)
  | _ => none

/-- What the source of a matcher says. -/
structure Program where
  /-- The errors that the compiler reports. -/
  errors : List String
  name : String
  /-- The fields of a new matcher. -/
  initial : Fields
  /-- The parameter of the function that reads a symbol. -/
  parameter : String
  acceptBody : Code
  isAcceptingBody : Code
  isStuckBody : Code

namespace Program

/-- The declaration of the type: its name and its fields. -/
def readType? : List Token → Option ((String × List (String × String)) × List Token)
  | .word "#" :: .opening .square :: .word "derive" :: .opening .round :: .word "Debug" ::
      .word "," :: .word "Clone" :: .closing .round :: .closing .square :: rest =>
    match dropVisibility rest with
    | .word "struct" :: .word name :: .opening .curly :: rest =>
      (readFields? rest).map fun (fields, rest) => ((name, fields), rest)
    | _ => none
  | _ => none

/-- The function that makes a new value of the type. -/
def readNew? (name : String) : List Token → Option (Fields × List Token)
  | .word "impl" :: .word owner :: .opening .curly :: rest =>
    match dropVisibility rest with
    | .word "fn" :: .word "new" :: .opening .round :: .closing .round :: .word "->" ::
        .word "Self" :: .opening .curly :: .word "Self" :: .opening .curly :: rest =>
      match readInitial? rest with
      | some (initial, .closing .curly :: .closing .curly :: rest) =>
        if owner = name then some (initial, rest) else none
      | _ => none
    | _ => none
  | _ => none

/-- The function that reads a symbol: its parameter and its body. -/
def readAccept? : List Token → Option ((String × Code) × List Token)
  | .word "fn" :: .word "accept" :: .opening .round :: .word "&" :: .word "mut" :: .word "self" ::
      .word "," :: .word parameter :: .word ":" :: .word "char" :: .closing .round ::
      .opening .curly :: rest =>
    (readBody? rest).map fun (body, rest) => ((parameter, body), rest)
  | _ => none

/-- A function that answers a question. -/
def readQuestion? (question : String) : List Token → Option (Code × List Token)
  | .word "fn" :: .word name :: .opening .round :: .word "&" :: .word "self" ::
      .closing .round :: .word "->" :: .word "bool" :: .opening .curly :: rest =>
    if name = question then readBody? rest else none
  | _ => none

/-- The head of the functions that make the type a matcher of characters. -/
def readHead? (name : String) : List Token → Option (List Token)
  | .word "impl" :: .word "::" :: .word "automata" :: .word "::" :: .word "PatternMatcher" ::
      .word "for" :: .word owner :: .opening .curly :: .word "type" :: .word "Alphabet" ::
      .word "=" :: .word "char" :: .word ";" :: rest =>
    if owner = name then some rest else none
  | _ => none

/-- The program that the tokens spell. A new value has all the declared fields and no
other ones, of the declared types. -/
def read? (tokens : List Token) : Option Program := do
  let (errors, rest) := readErrors tokens
  let ((name, fields), rest) ← readType? rest
  let (initial, rest) ← readNew? name rest
  let rest ← readHead? name rest
  let ((parameter, acceptBody), rest) ← readAccept? rest
  let (isAcceptingBody, rest) ← readQuestion? "is_accepting" rest
  let (isStuckBody, rest) ← readQuestion? "is_stuck" rest
  if (initial.map fun (field, v) => (field, v.type)) = fields ∧ rest = [.closing .curly] then
    return ⟨errors, name, initial, parameter, acceptBody, isAcceptingBody, isStuckBody⟩
  else none

variable (program : Program)

/-- The matcher after it has read a symbol, which gives no result. -/
def accept? (fields : Fields) (a : Char) : Option Fields :=
  match (program.acceptBody.run? [(program.parameter, .char a)] fields).map Outcome.result with
  | some (fields, .unit) => some fields
  | _ => none

/-- The answer to a question, which must leave the matcher as it is. -/
def ask? (question : Code) (fields : Fields) : Option Bool :=
  match (question.run? [] fields).map Outcome.result with
  | some (after, .bool answer) => if after = fields then some answer else none
  | _ => none

def isAccepting? (fields : Fields) : Option Bool := ask? program.isAcceptingBody fields

def isStuck? (fields : Fields) : Option Bool := ask? program.isStuckBody fields

def acceptMany? (fields : Fields) (word : List Char) : Option Fields :=
  word.foldlM program.accept? fields

/-- Reads a word, but stops at the first symbol after which the matcher is stuck. -/
def accepts? (fields : Fields) : List Char → Option (Bool × Fields)
  | [] => (program.isAccepting? fields).map fun answer => (answer, fields)
  | a :: word => do
    let next ← program.accept? fields a
    if ← program.isStuck? next then return (false, next) else accepts? next word

end Program

end Acceptor.Codegen
