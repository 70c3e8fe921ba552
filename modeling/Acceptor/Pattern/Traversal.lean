import Acceptor.Pattern.Assembly

/-!
# Assembling in one loop

The automaton of a pattern without recursion. What is left to do waits in a list. A pattern that is
entered waits to be left, behind its parts, which are entered before, the first one first. So all
automata of its parts are finished when a pattern is left, and they are the last ones that were,
which is where its topmost node takes them from.
-/

namespace Acceptor

namespace Pattern

variable {α : Type}

/-- The topmost node. -/
def top : Pattern α → Step α
  | empty => .empty
  | literal a => .literal a
  | concat _ _ => .concat
  | choice _ _ => .choice
  | star _ => .star

/-- The patterns below the topmost node, from left to right. -/
def parts : Pattern α → List (Pattern α)
  | empty | literal _ => []
  | concat p q | choice p q => [p, q]
  | star p => [p]

end Pattern

/-- What can wait to be done in a walk over a pattern. -/
inductive Task (α : Type) where
  | enter (p : Pattern α)
  | leave (p : Pattern α)

/-- Every node below a pattern that waits to be entered will be entered and left. -/
def Task.weight {α : Type} : Task α → Nat
  | enter p => 2 * p.subpatterns.length
  | leave _ => 1

/-- A walk over a pattern: what is left to do, the next task first, and what is assembled so
far. -/
structure Traversal (α : Type) where
  tasks : List (Task α)
  assembly : Assembly α := {}

namespace Traversal

variable {α : Type}

/-- The walk over a pattern before its first round. -/
def start (p : Pattern α) : Traversal α := { tasks := [.enter p] }

/-- One round. -/
def next? (t : Traversal α) : Option (Traversal α) :=
  match t.tasks with
  | [] => none
  | .enter p :: tasks => some ⟨p.parts.map .enter ++ .leave p :: tasks, t.assembly⟩
  | .leave p :: tasks => some ⟨tasks, t.assembly.add p.top⟩

def weight (t : Traversal α) : Nat := t.tasks.foldr (fun task n => task.weight + n) 0

theorem weight_lt_of_next? {t u : Traversal α} (h : t.next? = some u) : u.weight < t.weight := by
  obtain ⟨tasks, w⟩ := t
  cases tasks with
  | nil => cases h
  | cons task tasks =>
    cases task with
    | enter p =>
      cases h
      cases p <;> simp [weight, Task.weight, Pattern.parts, Pattern.subpatterns] <;> omega
    | leave p =>
      cases h
      simp [weight, Task.weight]

/-- Goes on until nothing is left to do. -/
def run (t : Traversal α) : Assembly α :=
  match _ : t.next? with
  | none => t.assembly
  | some next => next.run
termination_by t.weight
decreasing_by
  rename_i hnext
  exact weight_lt_of_next? hnext

end Traversal

/-- The automaton of a pattern as the loop assembles it. -/
def Pattern.assembled {α : Type} (p : Pattern α) : Nfa Vertex α :=
  (Traversal.start p).run.take.1

end Acceptor
