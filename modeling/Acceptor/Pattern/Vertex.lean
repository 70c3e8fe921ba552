import Acceptor.Text.Quoted

/-!
# Vertices

The states of an automaton that is assembled from a pattern. Vertices are numbered
in the order in which they are made, and a `Supply` hands out the next unused one.
They have a type of their own, so that they cannot be mistaken for the states of
an automaton given by hand.
-/

namespace Acceptor

/-- A state that was made while assembling an automaton. -/
structure Vertex where
  index : Nat
deriving DecidableEq

namespace Vertex

theorem index_injective : ∀ a b : Vertex, a.index = b.index → a = b
  | ⟨_⟩, ⟨_⟩, rfl => rfl

instance : Ordered Vertex := .ofInjective index index_injective

instance : Quoted Vertex := ⟨fun v => "q" ++ v.index.repr⟩

end Vertex

/-- A supply of vertices, of which the first `used` ones are taken. -/
structure Supply where
  used : Nat := 0
deriving DecidableEq

namespace Supply

/-- The next vertex, and the supply without it. -/
def fresh (s : Supply) : Vertex × Supply := (⟨s.used⟩, ⟨s.used + 1⟩)

end Supply

end Acceptor
