import Acceptor.Dfa.Basic
import Acceptor.Search

/-!
# Numbering the states

The states that can be reached from the start get the numbers `0, 1, 2, …` in the
order in which a breadth-first search finds them, the start state first and the
targets of a state in the order of its rules. The numbered automaton lists its
rules state by state in that order; what cannot be reached is dropped. So neither
the names of the states nor the rules of unreachable states leave a trace.
-/

namespace Acceptor.Dfa

variable {σ α : Type} [Ordered σ]

/-- The states that rules of any kind reach from the start, as they are found. -/
def reachable (m : Dfa σ α) : List σ :=
  search m.successors ⟨_, m.finitelyMany_successors⟩ [m.start]

/-- The automaton on the places of its states in the list `order`, restricted to the
states of that list. -/
def numberAlong (m : Dfa σ α) (order : List σ) : Dfa Nat α where
  start := order.idxOf m.start
  accept := .ofList ((m.accept.toList.filter (· ∈ order)).map order.idxOf)
  rules := order.flatMap fun q => (m.rulesFrom q).map (Rule.mapStates order.idxOf)

def number (m : Dfa σ α) : Dfa Nat α := m.numberAlong m.reachable

end Acceptor.Dfa
