import Acceptor.Dfa.Basic
import Acceptor.Search

/-!
# Dead states

A state is dead if no path of rules leads from it to an accept state. Rules of
every kind count, also those that a deterministic run never uses. The search runs
backwards from the accept states.
-/

namespace Acceptor.Dfa

variable {σ α : Type} [Ordered σ]

def liveStates (m : Dfa σ α) : List σ :=
  search m.predecessors ⟨_, m.finitelyMany_predecessors⟩ m.accept.toList

/-- The states of the automaton from which no accept state can be reached. -/
def deadStates (m : Dfa σ α) : SortedSet σ :=
  let live := m.liveStates
  m.states.filter fun q => q ∉ live

end Acceptor.Dfa
