import Acceptor.Pattern.Table
import Acceptor.Recognizer

/-!
# Matchers

A matcher walks the table of a pattern as symbols come in. A symbol that the table
does not know makes it stuck for good: it leaves the table and has no state any
more. In a dead state it still has a state, but counts as stuck as well, since
nothing that follows can be accepted.
-/

namespace Acceptor

/-- A walk through a table: where it stands, and whether it has left the table. -/
structure Matcher (α : Type) where
  table : Table α
  state : Nat
  left : Bool

def Table.matcher {α : Type} (t : Table α) : Matcher α := ⟨t, t.initial, false⟩

namespace Matcher

variable {α : Type}

/-- Where the matcher stands, unless it has left the table. -/
def current? (m : Matcher α) : Option Nat := if m.left then none else some m.state

instance [DecidableEq α] : Recognizer (Matcher α) α where
  accept m a :=
    if m.left then m
    else
      match m.table.automaton.step m.state a with
      | .ok q => { m with state := q }
      | .error _ => { m with left := true }
  isAccepting m := !m.left && m.table.isAccepting m.state
  isStuck m := m.left || m.table.isDead m.state

end Matcher

end Acceptor
