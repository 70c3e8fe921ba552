import Acceptor.Nfa.Subset
import Acceptor.Dfa.Numbering
import Acceptor.Proofs.Dfa.Functional
import Acceptor.Proofs.Nfa.Recognized

/-!
# Determinization in lockstep

The deterministic automaton of a nondeterministic one is, after every word over the
alphabet, in the state that is the set of current states. Every set that it can come
to has been discovered, so it has a rule for every symbol of the alphabet
(`step_toDfa`), and only one; a symbol from outside of the alphabet has no rule and
ends the run, as it ends all paths.
-/

namespace Acceptor.Nfa

variable {σ α : Type} [Ordered σ] [Ordered α] {m : Nfa σ α}

/-- The sets that are states of the deterministic automaton. -/
def stateSets (m : Nfa σ α) : List (SortedSet σ) := m.discover (.singleton m.initial)

theorem initial_mem_stateSets : m.initial ∈ m.stateSets :=
  mem_search.2 (.seed (List.mem_singleton.2 rfl))

theorem advance_mem_stateSets {S : SortedSet σ} {a : α} (hS : S ∈ m.stateSets)
    (ha : a ∈ m.alphabet) : m.advance S a ∈ m.stateSets :=
  mem_search.2 (.step (mem_search.1 hS) (List.mem_map.2 ⟨a, ha, rfl⟩))

theorem within_of_mem_stateSets {S : SortedSet σ} (hS : S ∈ m.stateSets) : m.Within S := by
  have hreachable := mem_search.1 hS
  induction hreachable with
  | seed hseed =>
    rw [List.mem_singleton.1 hseed]
    refine within_closure fun q hq => ?_
    rw [SortedSet.mem_singleton.1 hq]
    exact Diagram.start_mem_states
  | step hT hnext ih =>
    obtain ⟨a, _, rfl⟩ := List.mem_map.1 hnext
    exact within_advance (ih (mem_search.2 hT)) a

theorem closure_of_mem_stateSets {S : SortedSet σ} (hS : S ∈ m.stateSets) :
    m.closure S = S := by
  cases mem_search.1 hS with
  | seed hseed =>
    rw [List.mem_singleton.1 hseed]
    exact m.closure_closure _
  | step _ hnext =>
    obtain ⟨a, _, rfl⟩ := List.mem_map.1 hnext
    exact m.closure_closure _

theorem mem_rules_toDfa {S T : SortedSet σ} {label : Option α} :
    ⟨S, label, T⟩ ∈ m.toDfa.rules ↔
      S ∈ m.stateSets ∧ ∃ a, a ∈ m.alphabet ∧ label = some a ∧ T = m.advance S a := by
  have hrules : m.toDfa.rules = m.stateSets.flatMap m.rulesOfSet := rfl
  rw [hrules, List.mem_flatMap]
  constructor
  · intro hrule
    obtain ⟨U, hU, hrule⟩ := hrule
    obtain ⟨a, ha, heq⟩ := List.mem_map.1 hrule
    cases heq
    exact ⟨hU, a, ha, rfl, rfl⟩
  · intro h
    obtain ⟨hS, a, ha, rfl, rfl⟩ := h
    exact ⟨S, hS, List.mem_map.2 ⟨a, ha, rfl⟩⟩

theorem mem_stateSets_of_mem_reachable {S : SortedSet σ} (hS : S ∈ m.toDfa.reachable) :
    S ∈ m.stateSets := by
  have hreachable := mem_search.1 hS
  induction hreachable with
  | seed hseed =>
    rw [List.mem_singleton.1 hseed]
    exact initial_mem_stateSets
  | step hT hnext ih =>
    obtain ⟨⟨T, label, U⟩, hrule, rfl⟩ := List.mem_map.1 hnext
    obtain ⟨hmem, hsource⟩ := List.mem_filter.1 hrule
    obtain ⟨hT, a, ha, _, rfl⟩ := mem_rules_toDfa.1 hmem
    exact advance_mem_stateSets hT ha

/-- The rules that leave a discovered set are those that were written for it. -/
theorem rulesFrom_toDfa {S : SortedSet σ} (hS : S ∈ m.stateSets) :
    m.toDfa.rulesFrom S = m.rulesOfSet S := by
  refine Diagram.rulesFrom_of_listed id rfl nodup_search hS (fun _ _ heq => heq) ?_
  intro T _ rule hrule
  obtain ⟨a, _, rfl⟩ := List.mem_map.1 hrule
  rfl

/-- The rules of a reachable set under its number. -/
theorem rulesFrom_toDfa_of_mem_reachable {S : SortedSet σ} (hS : S ∈ m.toDfa.reachable) :
    (m.toDfa.rulesFrom S).map (Rule.mapStates m.toDfa.reachable.idxOf) =
      m.alphabet.toList.map fun a =>
        ⟨m.toDfa.reachable.idxOf S, some a, m.toDfa.reachable.idxOf (m.advance S a)⟩ := by
  rw [rulesFrom_toDfa (mem_stateSets_of_mem_reachable hS), rulesOfSet, List.map_map]
  rfl

theorem mem_accept_toDfa {S : SortedSet σ} :
    S ∈ m.toDfa.accept ↔ S ∈ m.stateSets ∧ m.accepting S = true := by
  have haccept : m.toDfa.accept = .ofList (m.stateSets.filter m.accepting) := rfl
  rw [haccept, SortedSet.mem_ofList, List.mem_filter]

/-- The table of sets is complete over the alphabet. -/
theorem step_toDfa {S : SortedSet σ} {a : α} (hS : S ∈ m.stateSets) (ha : a ∈ m.alphabet) :
    m.toDfa.step S a = .ok (m.advance S a) := by
  apply Dfa.step_eq_ok
  · exact mem_rules_toDfa.2 ⟨hS, a, ha, rfl, rfl⟩
  · intro T hT
    obtain ⟨_, b, _, hlabel, rfl⟩ := mem_rules_toDfa.1 hT
    cases hlabel
    rfl

/-- The table of sets knows no other symbols. -/
theorem step_toDfa_of_not_mem_alphabet {S : SortedSet σ} {a : α} (ha : a ∉ m.alphabet) :
    m.toDfa.step S a = .error ⟨S, some a⟩ := by
  apply Dfa.step_eq_error
  intro T hT
  obtain ⟨_, b, hb, hlabel, _⟩ := mem_rules_toDfa.1 hT
  cases hlabel
  exact ha hb

theorem functional_toDfa (m : Nfa σ α) : m.toDfa.Functional := by
  rintro ⟨S, label, T⟩ hrule
  obtain ⟨hS, a, ha, rfl, rfl⟩ := mem_rules_toDfa.1 hrule
  exact ⟨a, rfl, step_toDfa hS ha⟩

theorem foldl_advance_mem_stateSets {S : SortedSet σ} {w : List α} (hS : S ∈ m.stateSets)
    (hw : ∀ a ∈ w, a ∈ m.alphabet) : w.foldl m.advance S ∈ m.stateSets := by
  induction w generalizing S with
  | nil => exact hS
  | cons a w ih =>
    obtain ⟨ha, hw⟩ := List.forall_mem_cons.1 hw
    exact ih (advance_mem_stateSets hS ha) hw

theorem run_toDfa_from {S : SortedSet σ} {w : List α} (hS : S ∈ m.stateSets)
    (hw : ∀ a ∈ w, a ∈ m.alphabet) : m.toDfa.run S w = .ok (w.foldl m.advance S) := by
  induction w generalizing S with
  | nil => rfl
  | cons a w ih =>
    obtain ⟨ha, hw⟩ := List.forall_mem_cons.1 hw
    rw [Dfa.run_cons, step_toDfa hS ha]
    exact ih (advance_mem_stateSets hS ha) hw

/-- Over the alphabet the deterministic automaton never fails, and it is in the set of
current states. -/
theorem run_toDfa {w : List α} (hw : ∀ a ∈ w, a ∈ m.alphabet) :
    m.toDfa.run m.toDfa.start w = .ok (m.run (.singleton m.start) w) :=
  run_toDfa_from initial_mem_stateSets hw

theorem run_mem_stateSets {w : List α} (hw : ∀ a ∈ w, a ∈ m.alphabet) :
    m.run (.singleton m.start) w ∈ m.stateSets :=
  foldl_advance_mem_stateSets initial_mem_stateSets hw

/-- The first symbol from outside of the alphabet ends the run. -/
theorem run_toDfa_of_not_mem_alphabet {u v : List α} {c : α} (hu : ∀ a ∈ u, a ∈ m.alphabet)
    (hc : c ∉ m.alphabet) :
    m.toDfa.run m.toDfa.start (u ++ c :: v) =
      .error ⟨m.run (.singleton m.start) u, some c⟩ := by
  rw [Dfa.run_append, run_toDfa hu]
  change m.toDfa.run (m.run (.singleton m.start) u) (c :: v) = _
  rw [Dfa.run_cons, step_toDfa_of_not_mem_alphabet hc]
  rfl

/-- A word with a symbol from outside of the alphabet is not accepted. -/
theorem accepts_eq_false_of_not_mem_alphabet {w : List α} {c : α} (hmem : c ∈ w)
    (hc : c ∉ m.alphabet) : m.accepts w = false := by
  rw [Bool.eq_false_iff]
  intro haccepts
  obtain ⟨q, _, hpath⟩ := accepts_iff_recognizes.1 haccepts
  exact hc (hpath.mem_alphabet c hmem)

theorem verdict_toDfa {w : List α} (hw : ∀ a ∈ w, a ∈ m.alphabet) :
    m.toDfa.verdict w = .ok (m.accepts w) := by
  have haccept : m.run (.singleton m.start) w ∈ m.toDfa.accept ↔ m.accepts w = true := by
    rw [mem_accept_toDfa]
    exact and_iff_right (run_mem_stateSets hw)
  rw [Dfa.verdict, run_toDfa hw]
  simp [Except.map, haccept]

theorem mem_alphabet_of_run_toDfa {S T : SortedSet σ} {w : List α}
    (h : m.toDfa.run S w = .ok T) : ∀ a ∈ w, a ∈ m.alphabet := by
  intro a ha
  have hlabel : a ∈ m.toDfa.alphabet := (Dfa.path_of_run h).mem_alphabet a ha
  obtain ⟨⟨U, label, V⟩, hrule, heq⟩ := Diagram.mem_alphabet.1 hlabel
  obtain ⟨_, b, hb, hlabel, _⟩ := mem_rules_toDfa.1 hrule
  cases hlabel
  cases heq
  exact hb

/-- The two automata accept the same words. -/
theorem accepts_toDfa (m : Nfa σ α) (w : List α) : m.toDfa.accepts w = m.accepts w := by
  by_cases hw : ∀ a ∈ w, a ∈ m.alphabet
  · rw [Dfa.accepts, verdict_toDfa hw]
  · have hdeterministic : m.toDfa.accepts w = false := by
      rw [Bool.eq_false_iff]
      intro haccepts
      obtain ⟨S, hrun, _⟩ := Dfa.accepts_iff.1 haccepts
      exact hw (mem_alphabet_of_run_toDfa hrun)
    obtain ⟨c, hmem, hc⟩ : ∃ c, c ∈ w ∧ c ∉ m.alphabet := by simpa using hw
    rw [hdeterministic, accepts_eq_false_of_not_mem_alphabet hmem hc]

/-- The deterministic automaton runs in lockstep with the nondeterministic one. Over
the alphabet it never fails, it is in the set of current states after every prefix,
and its verdict is whether the word is accepted. At the first symbol `c` from outside
of the alphabet it fails in the set of current states, and both automata reject. -/
theorem toDfa_lockstep (m : Nfa σ α) (w : List α) :
    ((∀ a ∈ w, a ∈ m.alphabet) →
      (∀ u, u <+: w → m.toDfa.run m.toDfa.start u = .ok (m.run (.singleton m.start) u)) ∧
        m.toDfa.verdict w = .ok (m.accepts w)) ∧
    (∀ u c v, w = u ++ c :: v → (∀ a ∈ u, a ∈ m.alphabet) → c ∉ m.alphabet →
      m.toDfa.verdict w = .error ⟨m.run (.singleton m.start) u, some c⟩ ∧
        m.accepts w = false ∧ m.toDfa.accepts w = false) := by
  constructor
  · intro hw
    constructor
    · intro u hu
      exact run_toDfa fun a ha => hw a (hu.subset ha)
    · exact verdict_toDfa hw
  · rintro u c v rfl hu hc
    have hverdict : m.toDfa.verdict (u ++ c :: v) =
        .error ⟨m.run (.singleton m.start) u, some c⟩ := by
      rw [Dfa.verdict, run_toDfa_of_not_mem_alphabet hu hc]
      rfl
    refine ⟨hverdict, accepts_eq_false_of_not_mem_alphabet (by simp) hc, ?_⟩
    rw [Dfa.accepts, hverdict]

/-- An automaton with a cycle of free moves and a rule that is listed twice, on a word over
its alphabet and on one that leaves the alphabet. -/
theorem toDfa_lockstep_of_cycle :
    let m : Nfa Nat Char :=
      { start := 0
        accept := .singleton 1
        rules := [.free 0 1, .free 1 0, ⟨0, some 'a', 1⟩, ⟨0, some 'a', 1⟩] }
    ((∀ a ∈ ['a', 'a'], a ∈ m.alphabet) ∧ m.toDfa.verdict ['a', 'a'] = .ok (m.accepts ['a', 'a'])) ∧
      'b' ∉ m.alphabet ∧
        m.toDfa.verdict ['a', 'b'] = .error ⟨m.run (.singleton m.start) ['a'], some 'b'⟩ := by
  intro m
  have hletter : 'a' ∈ m.alphabet := by decide
  have hunknown : 'b' ∉ m.alphabet := by decide
  have hread : ∀ a ∈ ['a'], a ∈ m.alphabet := by simp [hletter]
  have hknown : ∀ a ∈ ['a', 'a'], a ∈ m.alphabet := by simp [hletter]
  exact ⟨⟨hknown, ((toDfa_lockstep m ['a', 'a']).1 hknown).2⟩, hunknown,
    ((toDfa_lockstep m ['a', 'b']).2 ['a'] 'b' [] rfl hread hunknown).1⟩

end Acceptor.Nfa
