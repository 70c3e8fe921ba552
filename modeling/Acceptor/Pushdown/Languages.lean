import Acceptor.Pushdown.Machine

/-!
# Two languages and their machines

Balanced brackets and evenly many letters: the two standard languages that need a
stack. Each is said twice, as a property of words that only counts, and as a
machine. The first machine keeps a `b` on its stack for each bracket that is open;
the second one keeps the letters by which one kind is ahead of the other.
-/

namespace Acceptor.Pushdown

/-- Nothing but brackets, and each closing bracket closes one before it. -/
def Balanced (w : List Char) : Prop :=
  (∀ c ∈ w, c = '(' ∨ c = ')') ∧ (∀ u v, w = u ++ v → u.count ')' ≤ u.count '(') ∧
    w.count '(' = w.count ')'

/-- Nothing but the letters `a` and `b`, and as many of one as of the other. -/
def Even (w : List Char) : Prop :=
  (∀ c ∈ w, c = 'a' ∨ c = 'b') ∧ w.count 'a' = w.count 'b'

/-- A rule that reads a symbol. -/
def Rule.reading {σ α : Type} (source : σ) (a : α) (target : σ) (pop : α) (push : List α) :
    Rule σ α :=
  ⟨source, some a, target, pop, push⟩

/-- A rule that reads nothing. -/
def Rule.free {σ α : Type} (source target : σ) (pop : α) (push : List α) : Rule σ α :=
  ⟨source, none, target, pop, push⟩

/-- The machine of balanced brackets. -/
def balancedMachine : Machine Nat Char where
  start := 1
  bottom := '$'
  accept := .singleton 1
  rules := [
    .reading 1 '(' 2 '$' ['b', '$'],
    .reading 2 '(' 2 'b' ['b', 'b'],
    .reading 2 ')' 2 'b' [],
    .free 2 1 '$' ['$']]

/-- The machine of as many `a` as `b`. -/
def evenMachine : Machine Nat Char where
  start := 1
  bottom := '$'
  accept := .singleton 1
  rules := [
    .reading 1 'a' 2 '$' ['a', '$'],
    .reading 1 'b' 2 '$' ['b', '$'],
    .reading 2 'a' 2 'a' ['a', 'a'],
    .reading 2 'b' 2 'b' ['b', 'b'],
    .reading 2 'a' 2 'b' [],
    .reading 2 'b' 2 'a' [],
    .free 2 1 '$' ['$']]

end Acceptor.Pushdown
