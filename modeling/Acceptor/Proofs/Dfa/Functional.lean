import Acceptor.Dfa.Basic
import Acceptor.Path

/-!
# Functional rules

The rules of a deterministic automaton are functional if each of them is the one that
is used: it reads a symbol, and no earlier rule reads the same symbol in the same
state. Runs of such an automaton are its paths, so nothing that is said about paths
depends on the order of its rules.
-/

namespace Acceptor.Dfa

variable {σ α : Type} [Ordered σ] [DecidableEq α] {m : Dfa σ α}

theorem mem_rules_of_step {q r : σ} {a : α} (h : m.step q a = .ok r) :
    ⟨q, some a, r⟩ ∈ m.rules := by
  rw [step, ruleFor?] at h
  cases hfind : m.rules.find? fun rule => rule.AppliesTo q (some a) with
  | none =>
    rw [hfind] at h
    cases h
  | some rule =>
    rw [hfind] at h
    cases h
    have happlies : rule.AppliesTo q (some a) := by simpa using List.find?_some hfind
    obtain ⟨rfl, hlabel⟩ := happlies
    rw [← hlabel]
    exact List.mem_of_find?_eq_some hfind

/-- Only the rules that leave a state matter to what is used in it. -/
theorem ruleFor?_eq_find?_rulesFrom (m : Dfa σ α) (q : σ) (a : α) :
    m.ruleFor? q a = (m.rulesFrom q).find? fun rule => rule.label = some a := by
  rw [ruleFor?, Diagram.rulesFrom, List.find?_filter]
  simp only [decide_eq_true_eq, Rule.AppliesTo]

/-- The rule that is used is the only one, if there is only one. -/
theorem step_eq_ok {q r : σ} {a : α} (hrule : ⟨q, some a, r⟩ ∈ m.rules)
    (hunique : ∀ s, ⟨q, some a, s⟩ ∈ m.rules → s = r) : m.step q a = .ok r := by
  cases hstep : m.step q a with
  | ok s => rw [hunique s (mem_rules_of_step hstep)]
  | error failure =>
    rw [step, ruleFor?] at hstep
    have hsome : (m.rules.find? fun rule => rule.AppliesTo q (some a)).isSome := by
      rw [List.find?_isSome]
      exact ⟨_, hrule, by simp⟩
    obtain ⟨rule, hfind⟩ := Option.isSome_iff_exists.1 hsome
    rw [hfind] at hstep
    cases hstep

theorem step_eq_error {q : σ} {a : α} (hnone : ∀ r, ⟨q, some a, r⟩ ∉ m.rules) :
    m.step q a = .error ⟨q, some a⟩ := by
  have hfind : m.ruleFor? q a = none := by
    rw [ruleFor?, List.find?_eq_none]
    intro rule hrule happlies
    have happlies : rule.AppliesTo q (some a) := by simpa using happlies
    obtain ⟨rfl, hlabel⟩ := happlies
    have hmem : ⟨rule.source, some a, rule.target⟩ ∈ m.rules := by
      rw [← hlabel]
      exact hrule
    exact hnone _ hmem
  rw [step, hfind]

/-- A run that does not fail begins with a step that does not fail. -/
theorem run_cons_eq_ok {q r : σ} {a : α} {w : List α} :
    m.run q (a :: w) = .ok r ↔ ∃ s, m.step q a = .ok s ∧ m.run s w = .ok r := by
  rw [run_cons]
  cases m.step q a with
  | ok s => simp [Except.bind]
  | error failure => simp [Except.bind]

theorem run_append_eq_ok {q r : σ} {u v : List α} :
    m.run q (u ++ v) = .ok r ↔ ∃ s, m.run q u = .ok s ∧ m.run s v = .ok r := by
  rw [run_append]
  cases m.run q u with
  | ok s => simp [Except.bind]
  | error failure => simp [Except.bind]

/-- A run that fails has read what comes before some symbol and found no rule for it. -/
theorem exists_of_run_error {q : σ} {w : List α} {failure : NoApplicableRule σ α}
    (h : m.run q w = .error failure) :
    ∃ u c v r, w = u ++ c :: v ∧ m.run q u = .ok r ∧ failure = ⟨r, some c⟩ := by
  induction w generalizing q with
  | nil => cases h
  | cons a w ih =>
    rw [run_cons] at h
    cases hstep : m.step q a with
    | error failure' =>
      rw [hstep] at h
      cases h
      refine ⟨[], a, w, q, rfl, rfl, ?_⟩
      rw [step] at hstep
      split at hstep
      · cases hstep
      · cases hstep
        rfl
    | ok s =>
      rw [hstep] at h
      obtain ⟨u, c, v, r, rfl, hrun, rfl⟩ := ih h
      exact ⟨a :: u, c, v, r, rfl, run_cons_eq_ok.2 ⟨s, hstep, hrun⟩, rfl⟩

theorem accepts_iff {w : List α} :
    m.accepts w = true ↔ ∃ q, m.run m.start w = .ok q ∧ q ∈ m.accept := by
  rw [accepts, verdict]
  cases hrun : m.run m.start w with
  | ok q => simp [Except.map]
  | error failure => simp [Except.map]

theorem path_of_run {q r : σ} {w : List α} (h : m.run q w = .ok r) :
    m.toDiagram.Path q w r := by
  induction w generalizing q with
  | nil =>
    cases h
    exact .nil _
  | cons a w ih =>
    obtain ⟨s, hstep, hrest⟩ := run_cons_eq_ok.1 h
    exact .read (mem_rules_of_step hstep) (ih hrest)

/-- Every rule reads a symbol and is the one that is used in its state for it. -/
def Functional (m : Dfa σ α) : Prop :=
  ∀ rule ∈ m.rules, ∃ a, rule.label = some a ∧ m.step rule.source a = .ok rule.target

theorem Functional.step_eq_ok (hm : m.Functional) {q r : σ} {a : α}
    (hrule : ⟨q, some a, r⟩ ∈ m.rules) : m.step q a = .ok r := by
  obtain ⟨b, hlabel, hstep⟩ := hm _ hrule
  cases hlabel
  exact hstep

/-- Runs with functional rules are paths. -/
theorem Functional.path_iff_run (hm : m.Functional) {q r : σ} {w : List α} :
    m.toDiagram.Path q w r ↔ m.run q w = .ok r := by
  constructor
  · intro hpath
    induction hpath with
    | nil q => rfl
    | free hrule _ _ =>
      obtain ⟨a, hlabel, _⟩ := hm _ hrule
      cases hlabel
    | read hrule _ ih =>
      rw [run_cons, hm.step_eq_ok hrule]
      exact ih
  · exact path_of_run

end Acceptor.Dfa
