import Acceptor.Dfa.Dead
import Acceptor.Proofs.Dfa.Functional
import Acceptor.SortedSet.Lemmas

/-!
# What dead states are

The search backwards from the accept states finds the states from which a path leads
to an accept state (`mem_liveStates`), so the dead states are those from which no path
does. Where the rules are functional paths are runs, and no word whatsoever can be
accepted from a dead state.
-/

namespace Acceptor.Dfa

variable {σ α : Type} [Ordered σ] {m : Dfa σ α}

theorem mem_predecessors {q r : σ} :
    q ∈ m.predecessors r ↔ ∃ label, ⟨q, label, r⟩ ∈ m.rules := by
  rw [Diagram.predecessors, List.mem_map]
  constructor
  · intro hpred
    obtain ⟨⟨source, label, target⟩, hrule, rfl⟩ := hpred
    obtain ⟨hmem, htarget⟩ := List.mem_filter.1 hrule
    obtain rfl : target = r := by simpa using htarget
    exact ⟨label, hmem⟩
  · intro hrule
    obtain ⟨label, hmem⟩ := hrule
    exact ⟨_, List.mem_filter.2 ⟨hmem, by simp⟩, rfl⟩

theorem mem_liveStates {q : σ} :
    q ∈ m.liveStates ↔ ∃ w r, r ∈ m.accept ∧ m.toDiagram.Path q w r := by
  rw [liveStates, mem_search]
  constructor
  · intro h
    induction h with
    | seed hq => exact ⟨[], _, hq, .nil _⟩
    | step _ hrule ih =>
      obtain ⟨label, hmem⟩ := mem_predecessors.1 hrule
      obtain ⟨w, r, hr, hpath⟩ := ih
      exact ⟨label.toList ++ w, r, hr, (Diagram.Path.of_rule hmem).append hpath⟩
  · intro hlive
    obtain ⟨w, r, hr, hpath⟩ := hlive
    induction hpath with
    | nil q => exact .seed hr
    | free hrule _ ih => exact (ih hr).step (mem_predecessors.2 ⟨_, hrule⟩)
    | read hrule _ ih => exact (ih hr).step (mem_predecessors.2 ⟨_, hrule⟩)

theorem mem_deadStates {q : σ} :
    q ∈ m.deadStates ↔ q ∈ m.states ∧ ∀ w r, m.toDiagram.Path q w r → r ∉ m.accept := by
  rw [deadStates, SortedSet.mem_filter, decide_eq_true_eq, mem_liveStates]
  constructor
  · intro h
    obtain ⟨hstates, hlive⟩ := h
    exact ⟨hstates, fun w r hpath hr => hlive ⟨w, r, hr, hpath⟩⟩
  · intro h
    obtain ⟨hstates, hdead⟩ := h
    exact ⟨hstates, fun ⟨w, r, hr, hpath⟩ => hdead w r hpath hr⟩

theorem not_mem_deadStates_of_mem_accept {q : σ} (hq : q ∈ m.accept) : q ∉ m.deadStates :=
  fun hdead => (mem_deadStates.1 hdead).2 [] q (.nil q) hq

/-- With functional rules a state is dead if no run from it is accepted. -/
theorem Functional.mem_deadStates [DecidableEq α] (hm : m.Functional) {q : σ} :
    q ∈ m.deadStates ↔ q ∈ m.states ∧ ∀ w r, m.run q w = .ok r → r ∉ m.accept := by
  simp only [Dfa.mem_deadStates, hm.path_iff_run]

end Acceptor.Dfa
