import Mathlib.Data.List.Nodup
import Mathlib.Data.Set.Card
import Acceptor.Proofs.Dfa.Renaming
import Acceptor.Proofs.SearchOrder

/-!
# The numbered automaton

Numbering is a renaming: the number of a state is its place among the reachable states, and
the numbered automaton does with the numbers what the automaton does with the states
(`renames_number`). Which of several rules for one state and symbol comes first does not
change, since the rules of a state keep their order and stand together. So the two run in
lockstep, on every word, and the dead states of one are the dead reachable states of the
other (`number_bisimulates`).
-/

namespace Acceptor.Dfa

variable {σ α : Type} [Ordered σ]

theorem nodup_reachable (m : Dfa σ α) : m.reachable.Nodup := nodup_search

theorem injOn_idxOf_reachable (m : Dfa σ α) :
    Set.InjOn m.reachable.idxOf {q | q ∈ m.reachable} :=
  fun _ hq _ _ heq => (List.idxOf_inj hq).1 heq

theorem renames_number (m : Dfa σ α) : Renames m.reachable.idxOf m m.number where
  injOn := m.injOn_idxOf_reachable
  start := rfl
  accept := by
    intro q hq
    rw [number, numberAlong, SortedSet.mem_ofList, List.mem_map]
    constructor
    · intro hnumber
      obtain ⟨r, hr, heq⟩ := hnumber
      obtain ⟨haccept, _⟩ := List.mem_filter.1 hr
      rw [← (List.idxOf_inj hq).1 heq.symm] at haccept
      exact haccept
    · intro haccept
      exact ⟨q, List.mem_filter.2 ⟨haccept, by simpa using hq⟩, rfl⟩
  rulesFrom := by
    intro q hq
    have hlisted : m.number.rules = m.reachable.flatMap fun r =>
        (m.rulesFrom r).map (Rule.mapStates m.reachable.idxOf) := rfl
    refine Diagram.rulesFrom_of_listed m.reachable.idxOf hlisted m.nodup_reachable hq ?_ ?_
    · intro r hr heq
      exact (List.idxOf_inj hr).1 heq
    · intro r _ rule hrule
      obtain ⟨rule, hfrom, rfl⟩ := List.mem_map.1 hrule
      obtain ⟨_, rfl⟩ := mem_rulesFrom.1 hfrom
      rfl

/-- Every rule of the numbered automaton is the rule of a reachable state under its
number. -/
theorem exists_of_mem_rules_number {m : Dfa σ α} {rule : Rule Nat α}
    (hrule : rule ∈ m.number.rules) :
    ∃ original ∈ m.rules, original.source ∈ m.reachable ∧
      rule = original.mapStates m.reachable.idxOf := by
  rw [number, numberAlong, List.mem_flatMap] at hrule
  obtain ⟨q, hq, hrule⟩ := hrule
  obtain ⟨original, hfrom, rfl⟩ := List.mem_map.1 hrule
  obtain ⟨hmem, rfl⟩ := mem_rulesFrom.1 hfrom
  exact ⟨original, hmem, hq, rfl⟩

theorem Functional.number [DecidableEq α] {m : Dfa σ α} (hm : m.Functional) :
    m.number.Functional := by
  intro rule hrule
  obtain ⟨original, hmem, hsource, rfl⟩ := exists_of_mem_rules_number hrule
  obtain ⟨a, hlabel, hstep⟩ := hm _ hmem
  refine ⟨a, hlabel, ?_⟩
  change m.number.step (m.reachable.idxOf original.source) a = _
  rw [m.renames_number.step_eq hsource, hstep]
  rfl

theorem accepts_number [DecidableEq α] (m : Dfa σ α) (w : List α) :
    m.number.accepts w = m.accepts w :=
  m.renames_number.accepts_eq w

theorem mem_states_number {m : Dfa σ α} {i : Nat} :
    i ∈ m.number.states ↔ ∃ q ∈ m.reachable, m.reachable.idxOf q = i := by
  constructor
  · intro hi
    rcases Diagram.mem_states.1 hi with rfl | haccept | ⟨rule, hrule, hend⟩
    · exact ⟨m.start, m.closed_reachable.start_mem, rfl⟩
    · obtain ⟨q, hq, rfl⟩ := List.mem_map.1 (SortedSet.mem_ofList.1 haccept)
      exact ⟨q, by simpa using (List.mem_filter.1 hq).2, rfl⟩
    · obtain ⟨original, hmem, hsource, rfl⟩ := exists_of_mem_rules_number hrule
      rcases hend with rfl | rfl
      · exact ⟨_, hsource, rfl⟩
      · exact ⟨_, m.closed_reachable.target_mem original hmem hsource, rfl⟩
  · intro hplace
    obtain ⟨q, hq, rfl⟩ := hplace
    exact m.renames_number.image_mem_states hq

/-- The search finds the start state first. -/
theorem reachable_eq_start_cons (m : Dfa σ α) :
    m.reachable = m.start :: unseen [m.start] (m.reachable.flatMap m.successors) := by
  have horder : m.reachable = unseen [] ([m.start] ++ m.reachable.flatMap m.successors) :=
    search_eq_unseen
  rw [List.singleton_append, unseen, if_neg List.not_mem_nil] at horder
  exact horder

theorem idxOf_start (m : Dfa σ α) : m.reachable.idxOf m.start = 0 := by
  rw [reachable_eq_start_cons, List.idxOf_cons_self]

/-- The states of the numbered automaton are the numbers below the number of reachable
states. -/
theorem mem_states_number_iff_lt {m : Dfa σ α} {i : Nat} :
    i ∈ m.number.states ↔ i < m.reachable.length := by
  rw [mem_states_number]
  constructor
  · intro hplace
    obtain ⟨q, hq, rfl⟩ := hplace
    exact List.idxOf_lt_length_of_mem hq
  · intro hi
    exact ⟨m.reachable[i], List.getElem_mem hi, m.nodup_reachable.idxOf_getElem i hi⟩

theorem ncard_reachable (m : Dfa σ α) :
    {q | ∃ w, m.toDiagram.Path m.start w q}.ncard = m.reachable.length := by
  have hlist : {q | ∃ w, m.toDiagram.Path m.start w q} = ↑m.reachable.toFinset := by
    ext q
    rw [List.coe_toFinset]
    exact mem_reachable_iff_path.symm
  rw [hlist, Set.ncard_coe_finset, List.toFinset_card_of_nodup m.nodup_reachable]

theorem bijOn_idxOf_reachable (m : Dfa σ α) :
    Set.BijOn m.reachable.idxOf {q | q ∈ m.reachable} {i | i < m.reachable.length} := by
  refine ⟨fun q hq => List.idxOf_lt_length_of_mem hq, m.injOn_idxOf_reachable, ?_⟩
  intro i hi
  exact mem_states_number.1 (mem_states_number_iff_lt.2 hi)

/-- Numbering is a bisimulation. It numbers the states `R` that rules of any kind reach from
the start, without gaps and the start as `0`. The automaton and the numbered one read every
word alike and stand in states that correspond after it, so after each of its prefixes; both
accept there or neither, and they give the same verdicts. The dead states of the numbered
automaton are the numbers of the dead states in `R`. -/
theorem number_bisimulates [DecidableEq α] (m : Dfa σ α) :
    let R := {q | ∃ w, m.toDiagram.Path m.start w q}
    ∃ place : σ → Nat, Set.BijOn place R {i | i < R.ncard} ∧
      place m.start = 0 ∧ m.number.start = 0 ∧ (∀ i, i ∈ m.number.states ↔ i < R.ncard) ∧
      (∀ w, ReadAlike place m m.number w ∧
        m.number.reached m.number.start w = place (m.reached m.start w) ∧
        (m.number.reached m.number.start w ∈ m.number.accept ↔
          m.reached m.start w ∈ m.accept) ∧
        ∀ accepted, m.number.verdict w = .ok accepted ↔ m.verdict w = .ok accepted) ∧
      ∀ i, i ∈ m.number.deadStates ↔ ∃ q ∈ R, q ∈ m.deadStates ∧ place q = i := by
  intro R
  have hR : R = {q | q ∈ m.reachable} := Set.ext fun q => mem_reachable_iff_path.symm
  have hcard : R.ncard = m.reachable.length := m.ncard_reachable
  have h := m.renames_number
  have hstart : m.reachable.idxOf m.start = 0 := m.idxOf_start
  refine ⟨m.reachable.idxOf, ?_, hstart, hstart, ?_, fun w => ⟨h.readAlike w, h.reached_eq w, ?_,
    fun accepted => h.verdict_eq_ok_iff⟩, ?_⟩
  · rw [hcard, hR]
    exact m.bijOn_idxOf_reachable
  · intro i
    rw [hcard, mem_states_number_iff_lt]
  · rw [h.reached_eq]
    exact h.accept _ (m.reached_mem_reachable w)
  · intro i
    rw [hR]
    constructor
    · intro hdead
      obtain ⟨q, hq, rfl⟩ := mem_states_number.1 (mem_deadStates.1 hdead).1
      exact ⟨q, hq, (h.mem_deadStates_iff hq).1 hdead, rfl⟩
    · intro hplace
      obtain ⟨q, hq, hdead, rfl⟩ := hplace
      exact (h.mem_deadStates_iff hq).2 hdead

end Acceptor.Dfa
