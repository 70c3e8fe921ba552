import Acceptor.Nfa.Discovery
import Acceptor.Proofs.Dfa.Numbering
import Acceptor.Proofs.Nfa.Lockstep

/-!
# Determinizing a table

A deterministic automaton can be read as a nondeterministic one. Suppose that each state that
can be reached has one rule for each symbol of the alphabet, in the order of the alphabet, and
no other rule (`Dfa.Tabular`). Then there is nothing to determinize: one state is current at a
time, and the sets of states are discovered as the singletons of the reachable states, in the
order of the search (`Dfa.Tabular.stateSets_toNfa`). The result is the automaton with
singletons for names. What determinization makes of any automaton is a table, so doing it
again changes nothing (`Nfa.number_toDfa_idempotent`).
-/

namespace Acceptor

namespace SortedSet

variable {α : Type} [Ordered α]

theorem singleton_injective : Function.Injective (singleton : α → SortedSet α) :=
  fun _ _ heq => List.singleton_inj.1 (congrArg toList heq)

end SortedSet

namespace Dfa

variable {σ α : Type} [Ordered σ] [Ordered α] {m : Dfa σ α} {q : σ}

/-- The automaton with the same diagram, all of whose applicable rules count. -/
def toNfa (m : Dfa σ α) : Nfa σ α := ⟨m.toDiagram⟩

/-- A state that can be reached has one rule for each symbol of the alphabet, in the order of
the alphabet, and no other rule. -/
def Tabular (m : Dfa σ α) : Prop :=
  ∀ q ∈ m.reachable, ∃ row : α → σ,
    m.rulesFrom q = m.alphabet.toList.map fun a => ⟨q, some a, row a⟩

namespace Tabular

theorem mem_rules {row : α → σ}
    (hrow : m.rulesFrom q = m.alphabet.toList.map fun a => ⟨q, some a, row a⟩)
    {label : Option α} {r : σ} :
    ⟨q, label, r⟩ ∈ m.rules ↔ ∃ a, a ∈ m.alphabet ∧ some a = label ∧ row a = r := by
  have hfrom : ⟨q, label, r⟩ ∈ m.rules ↔ ⟨q, label, r⟩ ∈ m.rulesFrom q := by
    rw [mem_rulesFrom]
    exact (and_iff_left rfl).symm
  rw [hfrom, hrow, List.mem_map]
  simp [SortedSet.mem_toList]

/-- There are no free moves to follow. -/
theorem closure_singleton (h : m.Tabular) (hq : q ∈ m.reachable) :
    m.toNfa.closure (.singleton q) = .singleton q := by
  obtain ⟨row, hrow⟩ := h q hq
  refine SortedSet.ext fun r => ?_
  rw [Nfa.mem_closure_iff_path]
  constructor
  · intro hpath
    obtain ⟨s, hs, path⟩ := hpath
    rw [SortedSet.mem_singleton.1 hs] at path
    cases path with
    | nil => exact SortedSet.mem_singleton.2 rfl
    | free hrule _ =>
      obtain ⟨a, _, hlabel, _⟩ := (mem_rules hrow).1 hrule
      cases hlabel
  · intro hr
    rw [SortedSet.mem_singleton.1 hr]
    exact ⟨q, SortedSet.mem_singleton.2 rfl, .nil q⟩

theorem advance_singleton (h : m.Tabular) (hq : q ∈ m.reachable) {row : α → σ}
    (hrow : m.rulesFrom q = m.alphabet.toList.map fun a => ⟨q, some a, row a⟩) {a : α}
    (ha : a ∈ m.alphabet) : m.toNfa.advance (.singleton q) a = .singleton (row a) := by
  have hrule : ⟨q, some a, row a⟩ ∈ m.rules := (mem_rules hrow).2 ⟨a, ha, rfl, rfl⟩
  have hnext : m.toNfa.next (.singleton q) (some a) = .singleton (row a) := by
    refine SortedSet.ext fun r => ?_
    rw [Nfa.mem_next, SortedSet.mem_singleton]
    constructor
    · intro hmem
      obtain ⟨s, hs, hmem⟩ := hmem
      rw [SortedSet.mem_singleton.1 hs] at hmem
      obtain ⟨b, _, hlabel, rfl⟩ := (mem_rules hrow).1 hmem
      cases hlabel
      rfl
    · intro hr
      rw [hr]
      exact ⟨q, SortedSet.mem_singleton.2 rfl, hrule⟩
  rw [Nfa.advance, h.closure_singleton hq, hnext]
  exact h.closure_singleton (m.closed_reachable.target_mem _ hrule hq)

/-- The rules that leave a singleton are those that leave its state. -/
theorem rulesOfSet_singleton (h : m.Tabular) (hq : q ∈ m.reachable) :
    m.toNfa.rulesOfSet (.singleton q) =
      (m.rulesFrom q).map (Rule.mapStates SortedSet.singleton) := by
  obtain ⟨row, hrow⟩ := h q hq
  have halphabet : m.toNfa.alphabet = m.alphabet := rfl
  rw [hrow, Nfa.rulesOfSet, halphabet, List.map_map]
  refine List.map_congr_left fun a ha => ?_
  rw [h.advance_singleton hq hrow ha]
  rfl

theorem initial_toNfa (h : m.Tabular) : m.toNfa.initial = .singleton m.start :=
  h.closure_singleton m.closed_reachable.start_mem

/-- Singletons are discovered, in the order in which their states are reached. -/
theorem stateSets_toNfa (h : m.Tabular) :
    m.toNfa.stateSets = m.reachable.map SortedSet.singleton := by
  have hseeds : (SortedSet.singleton m.toNfa.initial).toList =
      [m.start].map SortedSet.singleton := by
    rw [h.initial_toNfa]
    rfl
  have hinjOn : Set.InjOn SortedSet.singleton {q | q ∈ m.reachable} :=
    SortedSet.singleton_injective.injOn
  rw [Nfa.stateSets, Nfa.discover, hseeds]
  refine search_map hinjOn ?_ ?_ ?_
  · intro q hq r hr
    exact mem_reachable_of_mem_successors hq hr
  · intro q hq
    rw [← Nfa.map_target_rulesOfSet, h.rulesOfSet_singleton hq, Diagram.successors,
      List.map_map, List.map_map]
    rfl
  · intro q hq
    rw [List.mem_singleton.1 hq]
    exact m.closed_reachable.start_mem

theorem accepting_singleton (h : m.Tabular) (hq : q ∈ m.reachable) :
    m.toNfa.accepting (.singleton q) = true ↔ q ∈ m.accept := by
  rw [Nfa.accepting, h.closure_singleton hq, SortedSet.meets_iff]
  simp only [SortedSet.mem_singleton, exists_eq_left]
  rfl

/-- Determinization gives the states their singletons for names. -/
theorem renames_toDfa_toNfa (h : m.Tabular) :
    Renames SortedSet.singleton m m.toNfa.toDfa := by
  have hsets : ∀ q ∈ m.reachable, SortedSet.singleton q ∈ m.toNfa.stateSets := by
    intro q hq
    rw [h.stateSets_toNfa]
    exact List.mem_map_of_mem hq
  exact
    { injOn := SortedSet.singleton_injective.injOn
      start := h.initial_toNfa
      accept := by
        intro q hq
        rw [Nfa.mem_accept_toDfa, h.accepting_singleton hq]
        exact and_iff_right (hsets q hq)
      rulesFrom := by
        intro q hq
        rw [Nfa.rulesFrom_toDfa (hsets q hq), h.rulesOfSet_singleton hq] }

/-- Determinizing a table leaves no trace in the numbered automaton. -/
theorem number_toDfa_toNfa (h : m.Tabular) : m.toNfa.toDfa.number = m.number :=
  h.renames_toDfa_toNfa.number_eq

end Tabular

end Dfa

namespace Nfa

variable {σ α : Type} [Ordered σ] [Ordered α] {m : Nfa σ α}

theorem rulesFrom_number_toDfa {S : SortedSet σ} (hS : S ∈ m.toDfa.reachable) :
    m.toDfa.number.rulesFrom (m.toDfa.reachable.idxOf S) = m.alphabet.toList.map fun a =>
      ⟨m.toDfa.reachable.idxOf S, some a, m.toDfa.reachable.idxOf (m.advance S a)⟩ := by
  rw [m.toDfa.renames_number.rulesFrom S hS, rulesFrom_toDfa_of_mem_reachable hS]

/-- No symbol gets lost: the start has a rule for each of them. -/
theorem alphabet_number_toDfa (m : Nfa σ α) : m.toDfa.number.alphabet = m.alphabet := by
  refine SortedSet.ext fun a => ?_
  rw [Diagram.mem_alphabet]
  constructor
  · intro hlabel
    obtain ⟨_, hrule, ha⟩ := hlabel
    obtain ⟨original, hmem, _, rfl⟩ := Dfa.exists_of_mem_rules_number hrule
    obtain ⟨_, b, hb, hlabel, _⟩ := mem_rules_toDfa.1 hmem
    cases hlabel.symm.trans ha
    exact hb
  · intro ha
    have hrow := rulesFrom_number_toDfa m.toDfa.closed_reachable.start_mem
    have hrule := hrow ▸ List.mem_map.2 ⟨a, ha, rfl⟩
    exact ⟨_, (Dfa.mem_rulesFrom.1 hrule).1, rfl⟩

/-- The numbered deterministic automaton is a table. -/
theorem tabular_number_toDfa (m : Nfa σ α) : m.toDfa.number.Tabular := by
  intro i hi
  rw [m.toDfa.renames_number.reachable_eq] at hi
  obtain ⟨S, hS, rfl⟩ := List.mem_map.1 hi
  refine ⟨fun a => m.toDfa.reachable.idxOf (m.advance S a), ?_⟩
  rw [rulesFrom_number_toDfa hS, alphabet_number_toDfa]

/-- Determinizing twice changes nothing, not even the order of the rules. -/
theorem number_toDfa_idempotent (m : Nfa σ α) :
    m.toDfa.number.toNfa.toDfa.number = m.toDfa.number := by
  calc m.toDfa.number.toNfa.toDfa.number
      = m.toDfa.number.number := m.tabular_number_toDfa.number_toDfa_toNfa
    _ = m.toDfa.number := m.toDfa.renames_number.number_eq

end Nfa

end Acceptor
