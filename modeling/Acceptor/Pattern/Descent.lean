import Acceptor.Pattern.Regroup
import Acceptor.Pattern.Parse

/-!
# Reading by descent

The grammar can be followed from above as well, with a function for each kind of phrase.
Each reads as much of a text as its kind allows, and hands on what is left. The phrase
inside of brackets is read by the first of the functions again, so groups may be nested
to any depth; the functions end because a part of the text is left that is shorter.
-/

namespace Acceptor.Pattern

/-- What is left of a text: the offset where it begins, and fewer than `bound`
characters. -/
structure Left (bound : Nat) where
  offset : Nat
  text : List Char
  length_lt : text.length < bound

namespace Descent

/-- Reads the stars that follow a factor. -/
def stars (p : Pattern Char) (offset : Nat) :
    (text : List Char) → Pattern Char × Left (text.length + 1)
  | '*' :: rest =>
    let (q, left) := stars (.star p) (offset + 1) rest
    (q, { left with length_lt := Nat.lt_succ_of_lt left.length_lt })
  | text => (p, ⟨offset, text, Nat.lt_succ_self _⟩)

mutual

/-- Reads sequences with bars between them, behind the alternatives `before`. -/
def choice (offset : Nat) (before : Option (Pattern Char)) (text : List Char) :
    Except ParseError (Pattern Char × Left (text.length + 1)) := do
  let (p, left) ← sequence offset none text
  match h : left.text with
  | '|' :: rest =>
    have hrest : rest.length < text.length := by
      have hleft := left.length_lt
      rw [h, List.length_cons] at hleft
      omega
    let (q, last) ← choice (left.offset + 1) (some (addAlternative before p)) rest
    return (q, { last with length_lt := by have := last.length_lt; omega })
  | _ => return (addAlternative before p, left)
termination_by (text.length, 3)

/-- Reads factors side by side, behind the factors `before`. -/
def sequence (offset : Nat) (before : Option (Pattern Char)) (text : List Char) :
    Except ParseError (Pattern Char × Left (text.length + 1)) := do
  match ← factor offset text with
  | none => return (before.getD .empty, ⟨offset, text, Nat.lt_succ_self _⟩)
  | some (p, left) =>
    have hleft := left.length_lt
    let (q, last) ← sequence left.offset (some (addFactor before p)) left.text
    return (q, { last with length_lt := by have := last.length_lt; omega })
termination_by (text.length, 2)

/-- Reads an atom and the stars behind it, if an atom stands here. -/
def factor (offset : Nat) (text : List Char) :
    Except ParseError (Option (Pattern Char × Left text.length)) := do
  match ← atom offset text with
  | none => return none
  | some (p, left) =>
    let (q, last) := stars p left.offset left.text
    return some (q, { last with
      length_lt := by have := last.length_lt; have := left.length_lt; omega })
termination_by (text.length, 1)

/-- Reads a group or a character, if one stands here. -/
def atom (offset : Nat) (text : List Char) :
    Except ParseError (Option (Pattern Char × Left text.length)) :=
  match text with
  | [] | ')' :: _ | '|' :: _ => return none
  | '*' :: _ => throw (.nothingToRepeat offset)
  | '(' :: rest => do
    let (p, left) ← choice (offset + 1) none rest
    match h : left.text with
    | ')' :: last =>
      return some (p, ⟨left.offset + 1, last, by
        have hleft := left.length_lt
        rw [h, List.length_cons] at hleft
        rw [List.length_cons]
        omega⟩)
    | _ => throw (.unclosedGroup offset)
  | ['\\'] => throw (.danglingEscape offset)
  | '\\' :: c :: rest =>
    if isMeta c then
      return some (.literal c, ⟨offset + 2, rest, by simp only [List.length_cons]; omega⟩)
    else throw (.unknownEscape c offset)
  | c :: rest => return some (.literal c, ⟨offset + 1, rest, Nat.lt_succ_self _⟩)
termination_by (text.length, 0)

end

end Descent

/-- The pattern that a text denotes, or the first fault in it, by descent. -/
def descend (text : String) : Except ParseError (Pattern Char) := do
  let (p, left) ← Descent.choice 0 none text.toList
  match left.text with
  | [] => return p
  | _ => throw (.unmatchedClose left.offset)

end Acceptor.Pattern
