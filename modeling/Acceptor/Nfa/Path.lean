import Acceptor.Nfa.Basic
import Acceptor.Path

/-!
# Runs and paths

The current states of a nondeterministic automaton are the ends of the paths that
spell the word read so far (`mem_run`). Closing a set under free moves is the case
of the empty word (`mem_closure_iff_path`).
-/

namespace Acceptor.Nfa

variable {σ α : Type} [Ordered σ] [DecidableEq α] {m : Nfa σ α} {S : SortedSet σ}

theorem mem_follow {a : Option α} {q r : σ} : r ∈ m.follow q a ↔ ⟨q, a, r⟩ ∈ m.rules := by
  simp only [Diagram.follow, Diagram.rulesFor, List.mem_map, List.mem_filter,
    decide_eq_true_eq]
  constructor
  · rintro ⟨⟨_, _, _⟩, ⟨hrule, rfl, rfl⟩, rfl⟩
    exact hrule
  · intro hrule
    exact ⟨_, ⟨hrule, rfl, rfl⟩, rfl⟩

theorem mem_closure_iff_path {r : σ} :
    r ∈ m.closure S ↔ ∃ q, q ∈ S ∧ m.toDiagram.Path q [] r := by
  rw [mem_closure]
  constructor
  · intro h
    induction h with
    | seed hq => exact ⟨_, hq, .nil _⟩
    | step _ hr ih =>
      obtain ⟨q, hq, hpath⟩ := ih
      exact ⟨q, hq, hpath.append (.of_rule (mem_follow.1 hr))⟩
  · rintro ⟨q, hq, hpath⟩
    have key : ∀ {q w r}, m.toDiagram.Path q w r → w = [] →
        Reachable (fun q => m.follow q none) S.toList q →
        Reachable (fun q => m.follow q none) S.toList r := by
      intro q w r h hw hq
      induction h with
      | nil => exact hq
      | free hrule _ ih => exact ih hw (hq.step (mem_follow.2 hrule))
      | read => cases hw
    exact key hpath rfl (.seed hq)

theorem mem_advance {a : α} {s : σ} :
    s ∈ m.advance S a ↔ ∃ q, q ∈ S ∧ m.toDiagram.Path q [a] s := by
  simp only [advance, mem_closure_iff_path, mem_next, Diagram.path_singleton]
  constructor
  · rintro ⟨t, ⟨r, ⟨q, hq, hr⟩, hmove⟩, ht⟩
    exact ⟨q, hq, r, t, hr, hmove, ht⟩
  · rintro ⟨q, hq, r, t, hr, hmove, ht⟩
    exact ⟨t, ⟨r, ⟨q, hq, hr⟩, hmove⟩, ht⟩

/-- The current states are the ends of the paths that spell the word. -/
theorem mem_run {w : List α} {r : σ} :
    r ∈ m.run S w ↔ ∃ q, q ∈ S ∧ m.toDiagram.Path q w r := by
  have key : ∀ (w : List α) (T : SortedSet σ) (v : List α),
      (∀ r, r ∈ T ↔ ∃ q, q ∈ S ∧ m.toDiagram.Path q v r) →
      ∀ r, r ∈ w.foldl m.advance T ↔ ∃ q, q ∈ S ∧ m.toDiagram.Path q (v ++ w) r := by
    intro w
    induction w with
    | nil =>
      intro T v hT r
      rw [List.append_nil]
      exact hT r
    | cons a w ih =>
      intro T v hT r
      rw [List.foldl_cons, ih (m.advance T a) (v ++ [a])]
      · rw [List.append_assoc, List.singleton_append]
      · intro s
        simp only [mem_advance, Diagram.path_append (u := v), hT]
        constructor
        · rintro ⟨r, ⟨q, hq, hqr⟩, hrs⟩
          exact ⟨q, hq, r, hqr, hrs⟩
        · rintro ⟨q, hq, r, hqr, hrs⟩
          exact ⟨r, ⟨q, hq, hqr⟩, hrs⟩
  exact key w (m.closure S) [] (fun _ => mem_closure_iff_path) r

end Acceptor.Nfa
