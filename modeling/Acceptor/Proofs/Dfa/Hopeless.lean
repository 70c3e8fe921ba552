import Mathlib.Data.List.Basic
import Acceptor.Dfa.Marking
import Acceptor.Proofs.Dfa.Dead
import Acceptor.Proofs.Diagram

/-!
# Dead states are hopeless

Marking with a work list finds what the search backwards finds (`mem_marked`): only states
from which an accept state can be reached get a mark, and what is marked in the end is closed
under going backwards. So nothing that is read in a dead state helps (`reached_not_mem_accept`).
The converse needs rules that are used: rules that are shadowed by earlier ones and rules
without a symbol make paths, but no runs.
-/

namespace Acceptor.Dfa

variable {σ α : Type} [Ordered σ] {m : Dfa σ α}

section marking

variable {marked : SortedSet σ} {waiting : List σ} {q r : σ}

/-- What holds of the states to begin with and goes backwards along rules holds of all that
are marked. -/
theorem markFrom_induction {P : σ → Prop} (hback : ∀ q, P q → ∀ r ∈ m.predecessors q, P r)
    (hmarked : ∀ q, q ∈ marked → P q) (hwaiting : ∀ q ∈ waiting, P q) :
    ∀ q, q ∈ m.markFrom marked waiting → P q := by
  fun_induction markFrom m marked waiting with
  | case1 marked => exact hmarked
  | case2 marked q waiting _ ih => exact ih hmarked (List.forall_mem_cons.1 hwaiting).2
  | case3 marked q waiting _ ih =>
    obtain ⟨hq, hwaiting⟩ := List.forall_mem_cons.1 hwaiting
    refine ih (fun r hr => ?_) fun r hr => ?_
    · rcases SortedSet.mem_insert.1 hr with rfl | hr
      · exact hq
      · exact hmarked r hr
    · rcases List.mem_append.1 hr with hr | hr
      · exact hwaiting r hr
      · exact hback q hq r hr

/-- No mark is taken away, and what waits gets one. -/
theorem mem_markFrom_of_mem (h : q ∈ marked ∨ q ∈ waiting) : q ∈ m.markFrom marked waiting := by
  fun_induction markFrom m marked waiting with
  | case1 marked => exact h.resolve_right List.not_mem_nil
  | case2 marked p waiting hp ih =>
    refine ih (h.elim .inl fun hq => ?_)
    rcases List.mem_cons.1 hq with rfl | hq
    · exact .inl hp
    · exact .inr hq
  | case3 marked p waiting _ ih =>
    refine ih ?_
    rw [SortedSet.mem_insert, List.mem_append]
    rcases h with hq | hq
    · exact .inl (.inr hq)
    · exact (List.mem_cons.1 hq).imp .inl .inl

/-- While states wait, what comes before a marked state is marked or waits. In the end nothing
waits. -/
theorem closed_markFrom
    (h : ∀ q, q ∈ marked → ∀ r ∈ m.predecessors q, r ∈ marked ∨ r ∈ waiting) :
    ∀ q, q ∈ m.markFrom marked waiting → ∀ r ∈ m.predecessors q,
      r ∈ m.markFrom marked waiting := by
  fun_induction markFrom m marked waiting with
  | case1 marked =>
    intro q hq r hr
    exact (h q hq r hr).resolve_right List.not_mem_nil
  | case2 marked p waiting hp ih =>
    refine ih fun q hq r hr => ?_
    rcases h q hq r hr with hr | hr
    · exact .inl hr
    · rcases List.mem_cons.1 hr with rfl | hr
      · exact .inl hp
      · exact .inr hr
  | case3 marked p waiting _ ih =>
    refine ih fun q hq r hr => ?_
    rw [SortedSet.mem_insert, List.mem_append]
    rcases SortedSet.mem_insert.1 hq with rfl | hq
    · exact .inr (.inr hr)
    · rcases h q hq r hr with hr | hr
      · exact .inl (.inr hr)
      · exact (List.mem_cons.1 hr).imp .inl .inl

theorem mem_marked : q ∈ m.marked ↔ q ∈ m.liveStates := by
  rw [liveStates, mem_search]
  constructor
  · intro hq
    exact markFrom_induction (fun _ hp _ hr => hp.step hr)
      (fun p hp => absurd hp (SortedSet.not_mem_empty p)) (fun _ hp => .seed hp) q hq
  · intro hq
    induction hq with
    | seed hq => exact mem_markFrom_of_mem (.inr hq)
    | step _ hr ih =>
      exact closed_markFrom (fun p hp => absurd hp (SortedSet.not_mem_empty p)) _ ih _ hr

/-- The states without a mark are the dead ones. -/
theorem unmarked_eq_deadStates (m : Dfa σ α) : m.unmarked = m.deadStates := by
  refine SortedSet.ext fun q => ?_
  simp only [unmarked, deadStates, SortedSet.mem_filter, mem_marked]

end marking

/-- Rules lead from dead states to dead states. -/
theorem target_mem_deadStates {rule : Rule σ α} (hrule : rule ∈ m.rules)
    (hsource : rule.source ∈ m.deadStates) : rule.target ∈ m.deadStates := by
  refine mem_deadStates.2 ⟨Diagram.target_mem_states hrule, fun w r path => ?_⟩
  exact (mem_deadStates.1 hsource).2 _ r ((Diagram.Path.of_rule hrule).append path)

variable [DecidableEq α] {q r : σ}

/-- A machine stands at the end of a path, also after a failure. -/
theorem exists_path_reached (m : Dfa σ α) (q : σ) (w : List α) :
    ∃ u, m.toDiagram.Path q u (m.reached q w) := by
  rw [reached]
  cases hrun : m.run q w with
  | ok r => exact ⟨w, path_of_run hrun⟩
  | error failure =>
    obtain ⟨u, _, _, r, _, hread, rfl⟩ := exists_of_run_error hrun
    exact ⟨u, path_of_run hread⟩

/-- Whatever is read in a dead state, an accept state is not reached. -/
theorem reached_not_mem_accept (hq : q ∈ m.deadStates) (w : List α) :
    m.reached q w ∉ m.accept := by
  obtain ⟨u, path⟩ := m.exists_path_reached q w
  exact (mem_deadStates.1 hq).2 u _ path

/-- Rules that all read a symbol, no two of them the same one in the same state, are all
used. -/
theorem functional_of_deterministic (hread : ∀ rule ∈ m.rules, rule.isFree = false)
    (hunique : ∀ rule ∈ m.rules, ∀ rule' ∈ m.rules, rule.source = rule'.source →
      rule.label = rule'.label → rule = rule') : m.Functional := by
  rintro ⟨q, label, r⟩ hrule
  cases label with
  | none => cases hread _ hrule
  | some a =>
    refine ⟨a, rfl, step_eq_ok hrule fun s hs => ?_⟩
    exact congrArg Rule.target (hunique _ hs _ hrule rfl rfl)

/-- The dead states are exactly the hopeless ones. They are the states that get no mark when
the live ones are marked with a work list, and they are the states from which no path leads to
an accept state. Rules lead from dead states to dead states, and a machine that reads in a
dead state does not come to an accept state. If each rule reads a symbol and is the only one
for it in its state, some word leads from every other state to an accept state. -/
theorem deadStates_hopeless (m : Dfa σ α) :
    m.unmarked = m.deadStates ∧
      (∀ q, q ∈ m.deadStates ↔
        q ∈ m.states ∧ ∀ w r, m.toDiagram.Path q w r → r ∉ m.accept) ∧
      (∀ rule ∈ m.rules, rule.source ∈ m.deadStates → rule.target ∈ m.deadStates) ∧
      (∀ q, q ∈ m.deadStates → ∀ w, m.reached q w ∉ m.accept ∧
        ∀ r, m.run q w = .ok r → r ∉ m.accept) ∧
      ((∀ rule ∈ m.rules, rule.isFree = false) →
        (∀ rule ∈ m.rules, ∀ rule' ∈ m.rules, rule.source = rule'.source →
          rule.label = rule'.label → rule = rule') →
        ∀ q, q ∈ m.states → q ∉ m.deadStates → ∃ w r, m.run q w = .ok r ∧ r ∈ m.accept) := by
  refine ⟨m.unmarked_eq_deadStates, fun q => mem_deadStates,
    fun rule hrule => target_mem_deadStates hrule, ?_, ?_⟩
  · intro q hq w
    refine ⟨reached_not_mem_accept hq w, fun r hrun => ?_⟩
    exact (mem_deadStates.1 hq).2 w r (path_of_run hrun)
  · intro hread hunique q hq hlive
    have hm : m.Functional := functional_of_deterministic hread hunique
    have hmem : q ∈ m.liveStates := Decidable.of_not_not fun hnot =>
      hlive (SortedSet.mem_filter.2 ⟨hq, decide_eq_true hnot⟩)
    obtain ⟨w, r, hr, path⟩ := mem_liveStates.1 hmem
    exact ⟨w, r, hm.path_iff_run.1 path, hr⟩

/-- Two cycles, one of them dead, and an accept state that no rule mentions. -/
theorem deadStates_hopeless_of_cycles :
    let m : Dfa Nat Char :=
      { start := 0
        accept := .ofList [3, 9]
        rules := [⟨0, some 'a', 1⟩, ⟨1, some 'a', 0⟩, ⟨1, some 'b', 3⟩, ⟨0, some 'b', 4⟩,
          ⟨4, some 'a', 5⟩, ⟨5, some 'a', 4⟩] }
    (4 ∈ m.deadStates ∧ 5 ∈ m.deadStates ∧
        m.reached 4 ['a', 'b'] ∉ m.accept ∧ ∀ r, m.run 4 ['a', 'a'] = .ok r → r ∉ m.accept) ∧
      (∀ rule ∈ m.rules, rule.isFree = false) ∧
      (∀ rule ∈ m.rules, ∀ rule' ∈ m.rules, rule.source = rule'.source →
        rule.label = rule'.label → rule = rule') ∧
      0 ∈ m.states ∧ 0 ∉ m.deadStates ∧ ∃ w r, m.run 0 w = .ok r ∧ r ∈ m.accept := by
  intro m
  have hdead : m.deadStates = .ofList [4, 5] := by cbv
  have hfour : 4 ∈ m.deadStates := by
    rw [hdead]
    decide
  have hlive : 0 ∉ m.deadStates := by
    rw [hdead]
    decide
  have hrule : ⟨4, some 'a', 5⟩ ∈ m.rules := by decide
  have hread : ∀ rule ∈ m.rules, rule.isFree = false := by decide
  have hunique : ∀ rule ∈ m.rules, ∀ rule' ∈ m.rules, rule.source = rule'.source →
      rule.label = rule'.label → rule = rule' := by decide
  have hstates : 0 ∈ m.states := Diagram.start_mem_states
  obtain ⟨_, _, hclosed, hnever, hruns⟩ := deadStates_hopeless m
  exact ⟨⟨hfour, hclosed _ hrule hfour, (hnever 4 hfour _).1, (hnever 4 hfour _).2⟩, hread, hunique,
    hstates, hlive, hruns hread hunique 0 hstates hlive⟩

end Acceptor.Dfa
