import Acceptor.Codegen.Code
import Acceptor.Codegen.Token

/-!
# How code is spelled

Code is read off the tokens of source. A block holds statements; a semicolon stands
behind each of them, but it may be missing behind one that ends with a block, and behind
the last one, whose value is that of the block. Likewise a comma stands behind each arm
of a `match` expression, but it may be missing behind one that ends with a block, and
behind the last one. Nothing but source of this shape is read.
-/

namespace Acceptor.Codegen

/-- The number that a literal of the type `usize` denotes. -/
def numberOf? (s : String) : Option Nat :=
  let digits := s.toList.takeWhile Char.isDigit
  if digits ≠ [] ∧ s.toList.dropWhile Char.isDigit = ['u', 's', 'i', 'z', 'e'] then
    some (Nat.ofDigitChars 10 digits 0)
  else none

/-- The value that a literal denotes. -/
def valueOf? : Token → Option Value
  | .char c => some (.char c)
  | .word "true" => some (.bool true)
  | .word "false" => some (.bool false)
  | .word s => (numberOf? s).map .number
  | _ => none

/-- What the pattern of an arm fits: one value, or every value. -/
def patternOf? : Token → Option (Option Value)
  | .word "_" => some none
  | t => (valueOf? t).map some

def readOperand? : List Token → Option (Operand × List Token)
  | .word "self" :: .word "." :: .word field :: rest => some (.field field, rest)
  | t :: rest =>
    match valueOf? t, t with
    | some v, _ => some (.literal v, rest)
    | none, .word name => some (.parameter name, rest)
    | none, _ => none
  | [] => none

/-- Whether the tokens begin an expression that ends with a block. -/
def beginsBlock (tokens : List Token) : Bool :=
  tokens.head? ∈ [some (.opening .curly), some (.word "if"), some (.word "match")]

mutual

/-- The code at the front of the tokens, and the tokens behind it. The first argument
bounds the number of calls inside of each other. -/
def readCode? : Nat → List Token → Option (Code × List Token)
  | 0, _ => none
  | n + 1, tokens =>
    match tokens with
    | .opening .curly :: rest => readBlock? n rest
    | .word "return" :: .word ";" :: rest => some (.leave (.literal .unit), .word ";" :: rest)
    | .word "return" :: rest => (readOperand? rest).map fun (x, rest) => (.leave x, rest)
    | .word "unreachable" :: .word "!" :: .opening .round :: .closing .round :: rest =>
      some (.unreachable, rest)
    | .word "self" :: .word "." :: .word field :: .word "=" :: rest =>
      (readOperand? rest).map fun (x, rest) => (.assign field x, rest)
    | .word "if" :: rest =>
      match readOperand? rest with
      | some (condition, .opening .curly :: rest) =>
        (readBlock? n rest).map fun (body, rest) => (.when condition body, rest)
      | _ => none
    | .word "match" :: rest =>
      match readOperand? rest with
      | some (scrutinee, .opening .curly :: rest) =>
        (readArms? n rest).map fun (arms, rest) => (.select scrutinee arms, rest)
      | _ => none
    | _ => (readOperand? tokens).map fun (x, rest) => (.operand x, rest)

/-- The statements up to the bracket that closes their block, and the tokens behind it. -/
def readBlock? : Nat → List Token → Option (Code × List Token)
  | 0, _ => none
  | n + 1, tokens =>
    if tokens.head? = some (.closing .curly) then some (.operand (.literal .unit), tokens.tail)
    else
      match readCode? n tokens with
      | none => none
      | some (first, .closing .curly :: rest) => some (first, rest)
      | some (first, .word ";" :: rest) =>
        (readBlock? n rest).map fun (others, rest) => (.sequence first others, rest)
      | some (first, rest) =>
        if beginsBlock tokens then
          (readBlock? n rest).map fun (others, rest) => (.sequence first others, rest)
        else none

/-- The arms up to the bracket that closes them, and the tokens behind it. -/
def readArms? : Nat → List Token → Option (List (Option Value × Code) × List Token)
  | 0, _ => none
  | n + 1, tokens =>
    if tokens.head? = some (.closing .curly) then some ([], tokens.tail)
    else
      match tokens with
      | t :: .word "=>" :: body =>
        match patternOf? t, readCode? n body with
        | some value?, some (code, .word "," :: rest) =>
          (readArms? n rest).map fun (arms, rest) => ((value?, code) :: arms, rest)
        | some value?, some (code, rest) =>
          if beginsBlock body || rest.head? = some (.closing .curly) then
            (readArms? n rest).map fun (arms, rest) => ((value?, code) :: arms, rest)
          else none
        | _, _ => none
      | _ => none

end

/-- The body of a function, from inside of its block, and the tokens behind it. -/
def readBody? (tokens : List Token) : Option (Code × List Token) :=
  readBlock? (2 * tokens.length + 1) tokens

end Acceptor.Codegen
