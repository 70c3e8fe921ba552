import Acceptor.Dfa.Dead
import Acceptor.Dfa.Numbering
import Acceptor.Drawing
import Acceptor.Nfa.Subset
import Acceptor.Pattern.Assembly
import Acceptor.Pattern.Write

/-!
# Tables

A pattern that is ready for use: a deterministic automaton on the states
`0, 1, 2, …` together with the states that are dead. It comes out of the
nondeterministic automaton of the pattern by taking sets of states as states and
numbering them.
-/

namespace Acceptor

/-- A pattern with its numbered automaton and the dead states of that automaton. -/
structure Table (α : Type) where
  pattern : Pattern α
  automaton : Dfa Nat α
  dead : SortedSet Nat

def Pattern.table {α : Type} [Ordered α] (p : Pattern α) : Table α :=
  let automaton := p.toNfa.toDfa.number
  ⟨p, automaton, automaton.deadStates⟩

namespace Table

variable {α : Type}

def initial (t : Table α) : Nat := t.automaton.start

def states (t : Table α) : SortedSet Nat := t.automaton.states

/-- Whether a word that ends in the state `q` is accepted. -/
def isAccepting (t : Table α) (q : Nat) : Bool := q ∈ t.automaton.accept

/-- Whether no accept state can be reached from `q`. -/
def isDead (t : Table α) (q : Nat) : Bool := q ∈ t.dead

/-- The symbols that can be read in the state `q`, each with the state it leads to, in
the order of the rules. -/
def transitions (t : Table α) (q : Nat) : List (α × Nat) :=
  (t.automaton.rulesFrom q).filterMap fun rule => rule.label.map fun a => (a, rule.target)

def graph [Quoted α] (t : Table α) : String := t.automaton.graph

instance [Quoted α] : Quoted (Table α) where
  quoted t := Text.openRecord "CompiledPattern"
    [("design", Text.record "DFADesign"
        [("start_state", quoted t.automaton.start),
          ("accept_states", quoted t.automaton.accept),
          ("rulebook", Text.record "DFARulebook" [("rules", quoted t.automaton.rules)])]),
      ("dead_states", quoted t.dead)]

end Table

end Acceptor
