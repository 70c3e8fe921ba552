/-!
# Patterns

Regular expressions as trees. A tree can also be given bottom up, as the list of
its nodes with every node after its parts, the parts of the first child first.
`steps` writes that list and `ofSteps?` reads it back; the list is also the order
in which an automaton is assembled from a pattern.
-/

namespace Acceptor

/-- A regular expression over the symbols `α`. -/
inductive Pattern (α : Type) where
  /-- Only the empty word. -/
  | empty
  /-- Only the word of the one symbol. -/
  | literal (a : α)
  /-- A word of the first followed by a word of the second. -/
  | concat (first second : Pattern α)
  /-- A word of the first or of the second. -/
  | choice (first second : Pattern α)
  /-- Any number of words of the part, one after another. -/
  | star (part : Pattern α)
deriving DecidableEq

namespace Pattern

/-- A node of a pattern without its parts. -/
inductive Step (α : Type) where
  | empty
  | literal (a : α)
  | concat
  | choice
  | star
deriving DecidableEq

variable {α β : Type}

/-- How tightly the topmost operator binds; a higher number binds tighter. -/
def precedence : Pattern α → Nat
  | choice _ _ => 0
  | concat _ _ => 1
  | star _ => 2
  | empty | literal _ => 3

def map (f : α → β) : Pattern α → Pattern β
  | empty => .empty
  | literal a => .literal (f a)
  | concat p q => .concat (p.map f) (q.map f)
  | choice p q => .choice (p.map f) (q.map f)
  | star p => .star (p.map f)

/-- The pattern itself and all patterns that it is made of. -/
def subpatterns : Pattern α → List (Pattern α)
  | empty => [.empty]
  | literal a => [.literal a]
  | concat p q => .concat p q :: (p.subpatterns ++ q.subpatterns)
  | choice p q => .choice p q :: (p.subpatterns ++ q.subpatterns)
  | star p => .star p :: p.subpatterns

/-- The symbols of the literals, from left to right and with repetitions. -/
def symbols : Pattern α → List α
  | empty => []
  | literal a => [a]
  | concat p q => p.symbols ++ q.symbols
  | choice p q => p.symbols ++ q.symbols
  | star p => p.symbols

/-- The nodes of the pattern bottom up, followed by `rest`. -/
def stepsOnto : Pattern α → List (Step α) → List (Step α)
  | empty, rest => .empty :: rest
  | literal a, rest => .literal a :: rest
  | concat p q, rest => p.stepsOnto (q.stepsOnto (.concat :: rest))
  | choice p q, rest => p.stepsOnto (q.stepsOnto (.choice :: rest))
  | star p, rest => p.stepsOnto (.star :: rest)

/-- The nodes of the pattern, every node after its parts. -/
def steps (p : Pattern α) : List (Step α) := p.stepsOnto []

/-- Puts one node on top of the trees that are finished so far, the last one
first. -/
def grow? : List (Pattern α) → Step α → Option (List (Pattern α))
  | built, .empty => some (.empty :: built)
  | built, .literal a => some (.literal a :: built)
  | q :: p :: built, .concat => some (.concat p q :: built)
  | q :: p :: built, .choice => some (.choice p q :: built)
  | p :: built, .star => some (.star p :: built)
  | _, _ => none

/-- The tree whose nodes are listed bottom up, if they form one tree. -/
def ofSteps? (steps : List (Step α)) : Option (Pattern α) :=
  match steps.foldlM grow? [] with
  | some [p] => some p
  | _ => none

theorem foldlM_stepsOnto (p : Pattern α) (rest : List (Step α)) (built : List (Pattern α)) :
    (p.stepsOnto rest).foldlM grow? built = rest.foldlM grow? (p :: built) := by
  induction p generalizing rest built with
  | empty => rfl
  | literal a => rfl
  | concat p q ihp ihq => rw [stepsOnto, ihp, ihq]; rfl
  | choice p q ihp ihq => rw [stepsOnto, ihp, ihq]; rfl
  | star p ih => rw [stepsOnto, ih]; rfl

/-- Reading undoes listing. -/
@[simp] theorem ofSteps?_steps (p : Pattern α) : ofSteps? p.steps = some p := by
  rw [ofSteps?, steps, foldlM_stepsOnto]
  rfl

end Pattern

end Acceptor
