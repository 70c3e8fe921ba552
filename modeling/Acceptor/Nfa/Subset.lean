import Acceptor.Dfa.Basic
import Acceptor.Nfa.Basic
import Acceptor.SortedSet.Subsets

/-!
# Sets of states as states

The current states of a nondeterministic automaton determine how it goes on, so
sets of states can be the states of a deterministic one. Starting from given sets,
all sets that reading symbols of the alphabet leads to are discovered breadth
first. There are finitely many: each new one consists of targets of rules.
-/

namespace Acceptor.Nfa

variable {σ α : Type} [Ordered σ] [Ordered α]

/-- The sets that reading one symbol of the alphabet leads to, in the order of the
alphabet. -/
def advances (m : Nfa σ α) (S : SortedSet σ) : List (SortedSet σ) :=
  m.alphabet.toList.map (m.advance S)

/-- One rule for each symbol of the alphabet, leaving the set `S` as it is given. -/
def rulesOfSet (m : Nfa σ α) (S : SortedSet σ) : List (Rule (SortedSet σ) α) :=
  m.alphabet.toList.map fun a => ⟨S, some a, m.advance S a⟩

theorem finitelyMany_advances (m : Nfa σ α) (S : SortedSet σ) :
    ∀ T ∈ m.advances S, T ∈ m.targets.subsets := by
  intro T hT
  obtain ⟨a, _, rfl⟩ := List.mem_map.1 hT
  exact SortedSet.mem_subsets fun _ => mem_targets_of_mem_advance

/-- The sets that reading leads to from the sets of the family `X`, as they are
found; the family itself comes first, in order. -/
def discover (m : Nfa σ α) (X : SortedSet (SortedSet σ)) : List (SortedSet σ) :=
  search m.advances ⟨_, m.finitelyMany_advances⟩ X.toList

/-- The deterministic automaton whose states are the sets of states that can be
current together. -/
def toDfa (m : Nfa σ α) : Dfa (SortedSet σ) α :=
  let sets := m.discover (.singleton m.initial)
  { start := m.initial
    accept := .ofList (sets.filter m.accepting)
    rules := sets.flatMap m.rulesOfSet }

end Acceptor.Nfa
