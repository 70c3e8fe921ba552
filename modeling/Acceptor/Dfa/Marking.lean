import Acceptor.Dfa.Dead
import Acceptor.SortedSet.Lemmas

/-!
# Marking live states

The search for the states from which an accept state can be reached, with a work list that
may hold a state several times. A state that is taken from the list gets a mark unless it has
one, and all states with a rule into it join the end, with or without a mark. The loop ends
because a state joins the list only when a target of rules is marked.
-/

namespace Acceptor.Dfa

variable {σ α : Type} [Ordered σ]

/-- A state with a rule into it is a target. -/
theorem mem_targets_of_mem_predecessors {m : Dfa σ α} {q r : σ} (hr : r ∈ m.predecessors q) :
    q ∈ m.targets := by
  obtain ⟨rule, hrule, _⟩ := List.mem_map.1 hr
  obtain ⟨hmem, htarget⟩ := List.mem_filter.1 hrule
  exact SortedSet.mem_ofList.2 (List.mem_map.2 ⟨rule, hmem, of_decide_eq_true htarget⟩)

/-- Goes on until nothing waits. -/
def markFrom (m : Dfa σ α) (marked : SortedSet σ) (waiting : List σ) : SortedSet σ :=
  match waiting with
  | [] => marked
  | q :: waiting =>
    if q ∈ marked then m.markFrom marked waiting
    else m.markFrom (marked.insert q) (waiting ++ m.predecessors q)
termination_by ((remaining m.targets.toList marked.toList).length, waiting.length)
decreasing_by
  · exact Prod.Lex.right _ (Nat.lt_succ_self _)
  · rename_i hnew
    have hsub : marked.toList ⊆ (marked.insert q).toList :=
      fun r hr => SortedSet.mem_insert.2 (.inr hr)
    cases hpred : m.predecessors q with
    | nil =>
      rcases Nat.lt_or_eq_of_le (length_remaining_le hsub) with h | h
      · exact Prod.Lex.left _ _ h
      · rw [h]
        exact Prod.Lex.right _ (by simp)
    | cons r l =>
      have hq : q ∈ m.targets := mem_targets_of_mem_predecessors (hpred ▸ List.mem_cons_self)
      exact Prod.Lex.left _ _
        (length_remaining_lt hsub hq hnew (SortedSet.mem_insert.2 (.inl rfl)))

def marked (m : Dfa σ α) : SortedSet σ := m.markFrom .empty m.accept.toList

/-- The states of the automaton that get no mark. -/
def unmarked (m : Dfa σ α) : SortedSet σ :=
  let marked := m.marked
  m.states.filter fun q => q ∉ marked

end Acceptor.Dfa
