import Acceptor.Pattern.Assembly

/-!
# Assembly part by part

The automaton of a pattern by recursion on the pattern: first the first part, then
the second one with the vertices that are left, then the node itself. Working off
the nodes bottom up comes to the same, so the stack of finished automata never runs
empty, and each part owns one block of consecutive vertices.
-/

namespace Acceptor

variable {α : Type}

/-- The automaton of a pattern with vertices from `supply`, and the vertices that are
left. -/
def Pattern.assemble : Pattern α → Supply → Nfa Vertex α × Supply
  | .empty, supply =>
    let (start, supply) := supply.fresh
    (.ofEmpty start, supply)
  | .literal a, supply =>
    let (start, supply) := supply.fresh
    let (stop, supply) := supply.fresh
    (.ofLiteral start stop a, supply)
  | .concat p q, supply =>
    let (first, supply) := p.assemble supply
    let (second, supply) := q.assemble supply
    (.concat first second, supply)
  | .choice p q, supply =>
    let (first, supply) := p.assemble supply
    let (second, supply) := q.assemble supply
    let (start, supply) := supply.fresh
    (.choice start first second, supply)
  | .star p, supply =>
    let (part, supply) := p.assemble supply
    let (start, supply) := supply.fresh
    (.star start part, supply)

theorem Assembly.foldl_add_stepsOnto (p : Pattern α) (rest : List (Pattern.Step α))
    (w : Assembly α) :
    (p.stepsOnto rest).foldl add w =
      rest.foldl add ⟨(p.assemble w.supply).2, (p.assemble w.supply).1 :: w.parts⟩ := by
  induction p generalizing rest w with
  | empty => rfl
  | literal a => rfl
  | concat p q ihp ihq => rw [Pattern.stepsOnto, ihp, ihq]; rfl
  | choice p q ihp ihq => rw [Pattern.stepsOnto, ihp, ihq]; rfl
  | star p ih => rw [Pattern.stepsOnto, ih]; rfl

/-- After the last node one automaton is finished, the one that recursion gives. -/
theorem Assembly.run_steps (p : Pattern α) :
    run p.steps = ⟨(p.assemble {}).2, [(p.assemble {}).1]⟩ :=
  foldl_add_stepsOnto p [] {}

/-- The automaton of a pattern is the one that recursion gives. -/
theorem Pattern.toNfa_eq (p : Pattern α) : p.toNfa = (p.assemble {}).1 := by
  rw [toNfa, Assembly.run_steps]
  rfl

end Acceptor
