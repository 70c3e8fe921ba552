import Acceptor.Nfa.Path
import Acceptor.Proofs.Diagram

/-!
# Recognized words

A nondeterministic automaton recognizes a word if some path that spells the word
leads from the start state to an accept state; running the automaton decides just
that (`accepts_iff_recognizes`). What is current are states of the automaton, as long as
it starts in such states (`within_advance`).
-/

namespace Acceptor

namespace Nfa

variable {σ α : Type} [Ordered σ]

/-- Some path from the start state to an accept state spells the word. -/
def Recognizes (m : Nfa σ α) (w : List α) : Prop :=
  ∃ q, q ∈ m.accept ∧ m.toDiagram.Path m.start w q

/-- All states of the set are states of the automaton. -/
abbrev Within (m : Nfa σ α) (S : SortedSet σ) : Prop := ∀ q, q ∈ S → q ∈ m.states

variable [DecidableEq α] {m : Nfa σ α}

theorem within_closure {S : SortedSet σ} (hS : m.Within S) : m.Within (m.closure S) := by
  intro r hr
  obtain ⟨q, hq, hpath⟩ := mem_closure_iff_path.1 hr
  exact hpath.mem_states (hS q hq)

theorem within_advance {S : SortedSet σ} (hS : m.Within S) (a : α) :
    m.Within (m.advance S a) := by
  intro r hr
  obtain ⟨q, hq, hpath⟩ := mem_advance.1 hr
  exact hpath.mem_states (hS q hq)

/-- Closing the current states under free moves once more adds nothing. -/
theorem mem_closure_run {S : SortedSet σ} {w : List α} {r : σ} :
    r ∈ m.closure (m.run S w) ↔ r ∈ m.run S w := by
  simp only [mem_closure_iff_path, mem_run]
  constructor
  · intro hclosed
    obtain ⟨q, ⟨s, hs, hpath⟩, hfree⟩ := hclosed
    exact ⟨s, hs, by simpa using hpath.append hfree⟩
  · intro hends
    obtain ⟨s, hs, hpath⟩ := hends
    exact ⟨r, ⟨s, hs, hpath⟩, .nil r⟩

@[simp] theorem closure_closure (m : Nfa σ α) (S : SortedSet σ) :
    m.closure (m.closure S) = m.closure S := by
  rw [← run_nil m S]
  exact SortedSet.ext fun _ => mem_closure_run

/-- Running an automaton decides which words it recognizes. -/
theorem accepts_iff_recognizes {w : List α} : m.accepts w = true ↔ m.Recognizes w := by
  have hends : ∀ q, q ∈ m.run (.singleton m.start) w ↔ m.toDiagram.Path m.start w q := by
    intro q
    simp [mem_run]
  rw [accepts, accepting, SortedSet.meets_iff]
  simp only [mem_closure_run, hends]
  constructor
  · intro hmeets
    obtain ⟨q, hpath, hq⟩ := hmeets
    exact ⟨q, hq, hpath⟩
  · intro hw
    obtain ⟨q, hq, hpath⟩ := hw
    exact ⟨q, hpath, hq⟩

end Nfa

end Acceptor
