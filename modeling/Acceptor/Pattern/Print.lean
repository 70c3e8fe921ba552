import Acceptor.Pattern.Write

/-!
# Printing in one loop

The text of a pattern from left to right, without recursion. What is still to be written waits in
a list: patterns with the precedence that their places demand, and texts between and behind them.
The topmost operator of a pattern is not written when its turn comes, it joins the list with the
parts. An opening bracket is written at once and the closing one waits behind the parts.
-/

namespace Acceptor.Pattern

/-- What waits to be written. -/
inductive Piece (α : Type) where
  | node (p : Pattern α) (place : Nat)
  | text (s : String)

/-- The text so far, and what waits to be written behind it, the next piece first. -/
structure Printing (α : Type) where
  out : String := ""
  waiting : List (Piece α)

/-- Every node that waits stands for at most three pieces: itself, a sign and a bracket. -/
def Piece.weight {α : Type} : Piece α → Nat
  | node p _ => 3 * p.subpatterns.length
  | text _ => 1

namespace Printing

variable {α : Type}

def weight (w : Printing α) : Nat := w.waiting.foldr (fun piece n => piece.weight + n) 0

/-- Writes an opening bracket and lets the closing one wait, if they are needed. -/
def enclose (w : Printing α) (needed : Bool) : Printing α :=
  if needed then ⟨w.out ++ "(", .text ")" :: w.waiting⟩ else w

theorem weight_enclose_le (w : Printing α) (needed : Bool) :
    (w.enclose needed).weight ≤ w.weight + 1 := by
  cases needed with
  | false => exact Nat.le_succ _
  | true => simp [enclose, weight, Piece.weight, Nat.add_comm]

variable [Plain α]

/-- Writes a symbol. The parts of a pattern join the list, at the places that its topmost
operator gives them. -/
def visit (w : Printing α) (p : Pattern α) : Printing α :=
  let place := p.precedence
  match p with
  | .empty => w
  | .literal a => { w with out := w.out ++ String.ofList (plain a) }
  | .concat p q => { w with waiting := .node p place :: .node q place :: w.waiting }
  | .choice p q => { w with waiting := .node p place :: .text "|" :: .node q place :: w.waiting }
  | .star p => { w with waiting := .node p place :: .text "*" :: w.waiting }

/-- One round. -/
def next? (w : Printing α) : Option (Printing α) :=
  match w.waiting with
  | [] => none
  | .text s :: waiting => some ⟨w.out ++ s, waiting⟩
  | .node p place :: waiting =>
    some ((enclose ⟨w.out, waiting⟩ (p.precedence < place)).visit p)

theorem weight_visit_lt (w : Printing α) (p : Pattern α) :
    (w.visit p).weight + 1 < w.weight + (Piece.node p 0).weight := by
  cases p <;> simp [visit, weight, Piece.weight, subpatterns] <;> omega

theorem weight_lt_of_next? {w w' : Printing α} (h : w.next? = some w') :
    w'.weight < w.weight := by
  obtain ⟨out, waiting⟩ := w
  cases waiting with
  | nil => cases h
  | cons piece waiting =>
    cases piece with
    | text s =>
      cases h
      simp [weight, Piece.weight]
    | node p place =>
      cases h
      have henclose := weight_enclose_le ⟨out, waiting⟩ (p.precedence < place)
      have hvisit := weight_visit_lt (enclose ⟨out, waiting⟩ (p.precedence < place)) p
      simp only [weight, Piece.weight, List.foldr_cons] at henclose hvisit ⊢
      omega

/-- Goes on until nothing waits. -/
def run (w : Printing α) : String :=
  match _ : w.next? with
  | none => w.out
  | some next => next.run
termination_by w.weight
decreasing_by
  rename_i hnext
  exact weight_lt_of_next? hnext

end Printing

/-- The text of a pattern as the loop writes it. -/
def printed {α : Type} [Plain α] (p : Pattern α) : String :=
  Printing.run { waiting := [.node p 0] }

end Acceptor.Pattern
