import Acceptor.Pattern.Parse

/-!
# Scanning for faults

Whether a text is a pattern can be told without building one: it is enough to know
where the open groups begin and whether something stands before the current place
that a `*` could repeat. The first fault that such a scan meets is the fault of the
text.
-/

namespace Acceptor.Pattern

/-- The first fault from `offset` on, with the offsets of the groups that are open, the
innermost first, and whether a `*` could stand here. -/
def scanFrom (offset : Nat) (opened : List Nat) (repeatable : Bool) :
    List Char → Option ParseError
  | [] => opened.head?.map .unclosedGroup
  | '\\' :: [] => some (.danglingEscape offset)
  | '\\' :: c :: rest =>
    if c ∈ ['(', ')', '|', '*', '\\'] then scanFrom (offset + 2) opened true rest
    else some (.unknownEscape c offset)
  | '(' :: rest => scanFrom (offset + 1) (offset :: opened) false rest
  | ')' :: rest =>
    match opened with
    | [] => some (.unmatchedClose offset)
    | _ :: opened => scanFrom (offset + 1) opened true rest
  | '|' :: rest => scanFrom (offset + 1) opened false rest
  | '*' :: rest =>
    if repeatable then scanFrom (offset + 1) opened true rest
    else some (.nothingToRepeat offset)
  | _ :: rest => scanFrom (offset + 1) opened true rest

/-- The first fault in a text, if it has one. -/
def scan (text : String) : Option ParseError := scanFrom 0 [] false text.toList

end Acceptor.Pattern
