import Acceptor.Drawing

/-!
# Reading drawings

The text of a drawing is read as a graph description: it is cut into names, quoted
labels, arrows and marks, which blanks and the ends of lines may separate. A statement
`node[…]` together with the name behind it is one statement of a drawing, two names with
an arrow between them are another, with a label or without one.
-/

namespace Acceptor.Drawing

/-- What graph descriptions are made of. -/
inductive Word where
  | name (s : String)
  | label (text : String)
  | arrow
  | mark (c : Char)
deriving DecidableEq

def isNameChar (c : Char) : Bool := c.isAlphanum || c = '_' || 128 ≤ c.toNat

/-- The words of a text. -/
def readWords? (text : List Char) : Option (List Word) :=
  match text with
  | [] => some []
  | c :: rest =>
    if c = ' ' ∨ c = '\n' then readWords? rest
    else if c = '"' then
      match readLabel? rest with
      | none => none
      | some (label, behind) =>
        if behind.length ≤ rest.length then
          (readWords? behind).map (.label (String.ofList label) :: ·)
        else none
    else if isNameChar c then
      (readWords? (rest.dropWhile isNameChar)).map
        (.name (String.ofList (c :: rest.takeWhile isNameChar)) :: ·)
    else if c = '-' then
      if rest.head? = some '>' then (readWords? rest.tail).map (.arrow :: ·) else none
    else (readWords? rest).map (.mark c :: ·)
termination_by text.length
decreasing_by
  · exact Nat.lt_succ_self _
  · exact Nat.lt_succ_of_le ‹_›
  · exact Nat.lt_succ_of_le (List.dropWhile_sublist isNameChar).length_le
  · exact Nat.lt_succ_of_le (List.tail_sublist rest).length_le
  · exact Nat.lt_succ_self _

/-- The node that has the name. -/
def Node.ofName? (name : String) : Option Node :=
  if name = "start" then some .entry
  else
    match name.toList with
    | 'i' :: 'd' :: digits =>
      if digits ≠ [] ∧ digits.all Char.isDigit then
        some (.state (Nat.ofDigitChars 10 digits 0))
      else none
    | _ => none

def Attribute.ofEntry? (key : String) : Word → Option Attribute
  | .label text => if key = "label" then some (.label text) else none
  | .name name => if key = "shape" then some (.shape name) else none
  | _ => none

/-- The attributes up to a closing bracket, and the words behind it. Commas may stand
between the attributes. -/
def readAttributes? : List Word → Option (List Attribute × List Word)
  | .mark ']' :: rest => some ([], rest)
  | .name key :: .mark '=' :: value :: .mark ',' :: rest => do
    let first ← Attribute.ofEntry? key value
    let (others, rest) ← readAttributes? rest
    return (first :: others, rest)
  | .name key :: .mark '=' :: value :: rest => do
    let first ← Attribute.ofEntry? key value
    let (others, rest) ← readAttributes? rest
    return (first :: others, rest)
  | _ => none

/-- The label in brackets that may stand behind an arrow, and the words behind it. -/
def readArrowLabel? : List Word → Option (Option String × List Word)
  | .mark '[' :: rest =>
    match readAttributes? rest with
    | some ([.label text], rest) => some (some text, rest)
    | _ => none
  | rest => some (none, rest)

/-- The statement at the front of the words, and the words behind it. -/
def readStatement? : List Word → Option (Statement × List Word)
  | .name keyword :: .mark '[' :: rest =>
    if keyword = "node" then
      match readAttributes? rest with
      | some (defaults, .name name :: rest) =>
        (Node.ofName? name).map fun node => (.node defaults node, rest)
      | _ => none
    else none
  | .name source :: .arrow :: .name target :: rest => do
    let source ← Node.ofName? source
    let target ← Node.ofName? target
    let (label, rest) ← readArrowLabel? rest
    return (.arrow source target label, rest)
  | _ => none

/-- The statements up to the brace that closes the description. -/
def readStatements? (words : List Word) : Option (List Statement) :=
  if words = [.mark '}'] then some []
  else
    match readStatement? words with
    | none => none
    | some (statement, rest) =>
      if rest.length < words.length then (readStatements? rest).map (statement :: ·) else none
termination_by words.length

/-- The statements of a graph description. -/
def read? (text : String) : Option (List Statement) :=
  match readWords? text.toList with
  | some (.name keyword :: .mark '{' :: rest) =>
    if keyword = "digraph" then readStatements? rest else none
  | _ => none

end Acceptor.Drawing
