import Acceptor.Pattern.Matcher
import Acceptor.Proofs.Dfa.Dead
import Acceptor.Proofs.Dfa.Numbering
import Acceptor.Proofs.Nfa.Lockstep
import Acceptor.Proofs.Pattern.Recognition
import Acceptor.Proofs.Recognizer

/-!
# Matchers are exact

The table of a pattern accepts the language of the pattern: assembling, taking sets of
states as states, and numbering them all keep it (`accepts_table`). A matcher reads
its table as the automaton does, and leaves it where the automaton fails. It is stuck
outside of the table and in dead states, which are the two ways to lose all hope: a
symbol that the table does not know, and a state that no run to an accept state leaves.
-/

namespace Acceptor

variable {α : Type}

section Table

variable [Ordered α]

theorem Pattern.functional_table (p : Pattern α) : p.table.automaton.Functional :=
  p.toNfa.functional_toDfa.number

theorem Pattern.accepts_table (p : Pattern α) (w : List α) :
    p.table.automaton.accepts w = true ↔ p.Matches w := by
  have hnumber : p.table.automaton.accepts w = p.toNfa.toDfa.accepts w :=
    p.toNfa.toDfa.accepts_number w
  rw [hnumber, Nfa.accepts_toDfa, Nfa.accepts_iff_recognizes, toNfa_eq, recognizes_assemble]

end Table

namespace Matcher

open Recognizer

section

variable [DecidableEq α]

theorem isAccepting_iff {m : Matcher α} :
    isAccepting m = true ↔ m.left = false ∧ m.state ∈ m.table.automaton.accept := by
  simp [isAccepting, Table.isAccepting]

theorem isStuck_iff {m : Matcher α} :
    isStuck m = true ↔ m.left = true ∨ m.state ∈ m.table.dead := by
  simp [isStuck, Table.isDead]

theorem accept_of_step_ok {m : Matcher α} {a : α} {q : Nat} (hleft : m.left = false)
    (hstep : m.table.automaton.step m.state a = .ok q) : accept m a = { m with state := q } := by
  simp [accept, hleft, hstep]

theorem accept_of_step_error {m : Matcher α} {a : α} {failure : NoApplicableRule Nat α}
    (hleft : m.left = false) (hstep : m.table.automaton.step m.state a = .error failure) :
    accept m a = { m with left := true } := by
  simp [accept, hleft, hstep]

/-- Outside of the table nothing is read any more. -/
theorem acceptMany_of_left {m : Matcher α} (hleft : m.left = true) (w : List α) :
    acceptMany m w = m := by
  induction w with
  | nil => rfl
  | cons a w ih =>
    have hstay : accept m a = m := by simp [accept, hleft]
    rw [acceptMany, List.foldl_cons, hstay]
    exact ih

theorem acceptMany_of_run_ok {m : Matcher α} {w : List α} {q : Nat} (hleft : m.left = false)
    (hrun : m.table.automaton.run m.state w = .ok q) :
    acceptMany m w = { m with state := q } := by
  induction w generalizing m with
  | nil =>
    cases hrun
    rfl
  | cons a w ih =>
    obtain ⟨r, hstep, hrest⟩ := Dfa.run_cons_eq_ok.1 hrun
    rw [acceptMany, List.foldl_cons, accept_of_step_ok hleft hstep]
    exact ih hleft hrest

theorem left_acceptMany_of_run_error {m : Matcher α} {w : List α}
    {failure : NoApplicableRule Nat α} (hleft : m.left = false)
    (hrun : m.table.automaton.run m.state w = .error failure) :
    (acceptMany m w).left = true := by
  induction w generalizing m with
  | nil => cases hrun
  | cons a w ih =>
    rw [Dfa.run_cons] at hrun
    rw [acceptMany, List.foldl_cons]
    cases hstep : m.table.automaton.step m.state a with
    | error failure =>
      rw [accept_of_step_error hleft hstep]
      change (acceptMany { m with left := true } w).left = true
      rw [acceptMany_of_left rfl]
    | ok r =>
      rw [hstep] at hrun
      rw [accept_of_step_ok hleft hstep]
      exact ih hleft hrun

/-- The matcher of a table with functional rules is exact for the words that the
automaton of the table accepts, if the dead states are those of the automaton. -/
theorem exact_of_functional {t : Table α} (hfunctional : t.automaton.Functional)
    (hdead : t.dead = t.automaton.deadStates) :
    Exact t.matcher fun w => t.automaton.accepts w = true := by
  intro w
  cases hrun : t.automaton.run t.initial w with
  | error failure =>
    -- the matcher has left the table, and no run goes on behind a failure
    have hleft : (acceptMany t.matcher w).left = true := left_acceptMany_of_run_error rfl hrun
    have hfail : ∀ v, ¬ t.automaton.accepts (w ++ v) = true := by
      intro v haccepts
      obtain ⟨q, hq, _⟩ := Dfa.accepts_iff.1 haccepts
      obtain ⟨s, hs, _⟩ := Dfa.run_append_eq_ok.1 hq
      have habsurd := hrun.symm.trans hs
      cases habsurd
    have hword := hfail []
    rw [List.append_nil] at hword
    constructor
    · simp [isAccepting_iff, hleft, hword]
    · simpa [isStuck_iff, hleft] using hfail
  | ok q =>
    have hstate : acceptMany t.matcher w = { t.matcher with state := q } :=
      acceptMany_of_run_ok rfl hrun
    have hq : q ∈ t.automaton.states :=
      t.automaton.closed_states.mem_of_run Diagram.start_mem_states hrun
    have haccepts : ∀ v, t.automaton.accepts (w ++ v) = true ↔
        ∃ r, t.automaton.run q v = .ok r ∧ r ∈ t.automaton.accept := by
      intro v
      have hstart : t.automaton.run t.automaton.start w = .ok q := hrun
      simp [Dfa.accepts_iff, Dfa.run_append_eq_ok, hstart]
    rw [isAccepting_iff, isStuck_iff, hstate]
    constructor
    · have hword := haccepts []
      rw [List.append_nil] at hword
      simp [Table.matcher, hword]
    · have hstuck : q ∈ t.dead ↔ ∀ v r, t.automaton.run q v = .ok r → r ∉ t.automaton.accept := by
        rw [hdead, hfunctional.mem_deadStates]
        exact and_iff_right hq
      simp [Table.matcher, haccepts, hstuck]

end

/-- The matcher of a pattern is exact for the language of the pattern. -/
theorem exact_matcher [Ordered α] (p : Pattern α) : Exact p.table.matcher p.Matches := by
  have hexact := exact_of_functional p.functional_table rfl
  simpa only [p.accepts_table] using hexact

/-- After any calls a matcher accepts just if the word that was offered matches the
pattern, it is stuck just if no word that begins with it does, and the question about
another word is answered by whether the two words together match. -/
theorem answers_after_calls [Ordered α] (p : Pattern α) (calls : List (Call α)) :
    let m := performAll p.table.matcher calls
    let word := calls.flatMap Call.offered
    (isAccepting m = true ↔ p.Matches word) ∧
      (isStuck m = true ↔ ∀ v, ¬ p.Matches (word ++ v)) ∧
        ∀ v, (accepts m v).1 = true ↔ p.Matches (word ++ v) := by
  intro m word
  have hexact : Exact m fun w => p.Matches (word ++ w) := (exact_matcher p).performAll calls
  have haccepting := hexact.isAccepting_iff
  rw [List.append_nil] at haccepting
  exact ⟨haccepting, hexact.isStuck_iff, fun v => hexact.accepts_iff v⟩

end Matcher

end Acceptor
