import Acceptor.Proofs.Dfa.Renaming
import Acceptor.Proofs.Nfa.Lockstep
import Acceptor.SortedSet.Image

/-!
# Determinization forgets names

The rules of a nondeterministic automaton are a set: their order and their repetitions
make no difference, and neither do the names of the states. Renamed states have the same
paths (`Renamed.path_iff`), so closing and reading commute with renaming, and the sets of
states are discovered in the same order although the order of the states themselves may be
any other. What is left of the names in the deterministic automaton disappears when its
states are numbered (`number_toDfa_of_renamed`).
-/

namespace Acceptor.Nfa

variable {σ τ α : Type} [Ordered σ] [Ordered τ]

/-- Up to the order and the repetitions of rules the automaton `n` is the automaton `m`
with the states renamed by `f`, which tells the states of `m` apart. -/
structure Renamed (f : σ → τ) (m : Nfa σ α) (n : Nfa τ α) : Prop where
  injOn : Set.InjOn f {q | q ∈ m.states}
  start : n.start = f m.start
  accept : n.accept = m.accept.image f
  rules : ∀ rule, rule ∈ n.rules ↔ rule ∈ m.rules.map (Rule.mapStates f)

namespace Renamed

variable {f : σ → τ} {m : Nfa σ α} {n : Nfa τ α}

theorem mem_rules (h : Renamed f m n) {q : σ} (hq : q ∈ m.states) {label : Option α} {r' : τ} :
    ⟨f q, label, r'⟩ ∈ n.rules ↔ ∃ r, ⟨q, label, r⟩ ∈ m.rules ∧ f r = r' := by
  rw [h.rules, List.mem_map]
  constructor
  · intro hrule
    obtain ⟨⟨source, label, target⟩, hmem, heq⟩ := hrule
    have hsource : source = q :=
      h.injOn (Diagram.source_mem_states hmem) hq (congrArg Rule.source heq)
    subst hsource
    cases heq
    exact ⟨target, hmem, rfl⟩
  · intro hrule
    obtain ⟨r, hmem, rfl⟩ := hrule
    exact ⟨_, hmem, rfl⟩

/-- Renaming the states of a path gives a path, and every path comes from one. -/
theorem path_iff (h : Renamed f m n) {q : σ} (hq : q ∈ m.states) {w : List α} {r' : τ} :
    n.toDiagram.Path (f q) w r' ↔ ∃ r, m.toDiagram.Path q w r ∧ f r = r' :=
  Diagram.path_rename_iff (· ∈ m.states) (fun _ hrule _ => Diagram.target_mem_states hrule)
    (fun hq => h.mem_rules hq) hq

/-- The ends of the paths from renamed states are the renamed ends of the paths. -/
theorem exists_path_iff (h : Renamed f m n) {S : SortedSet σ} (hS : m.Within S) {w : List α}
    {r' : τ} :
    (∃ q', q' ∈ S.image f ∧ n.toDiagram.Path q' w r') ↔
      ∃ r, (∃ q, q ∈ S ∧ m.toDiagram.Path q w r) ∧ f r = r' := by
  constructor
  · intro hpath
    obtain ⟨_, hq', hpath⟩ := hpath
    obtain ⟨q, hq, rfl⟩ := SortedSet.mem_image.1 hq'
    obtain ⟨r, hpath, hr⟩ := (h.path_iff (hS q hq)).1 hpath
    exact ⟨r, ⟨q, hq, hpath⟩, hr⟩
  · intro himage
    obtain ⟨r, ⟨q, hq, hpath⟩, hr⟩ := himage
    exact ⟨f q, SortedSet.mem_image.2 ⟨q, hq, rfl⟩, (h.path_iff (hS q hq)).2 ⟨r, hpath, hr⟩⟩

section

variable [DecidableEq α] {S : SortedSet σ}

theorem closure_image (h : Renamed f m n) (hS : m.Within S) :
    n.closure (S.image f) = (m.closure S).image f := by
  refine SortedSet.ext fun r' => ?_
  rw [mem_closure_iff_path, h.exists_path_iff hS, SortedSet.mem_image]
  simp only [mem_closure_iff_path]

theorem advance_image (h : Renamed f m n) (hS : m.Within S) (a : α) :
    n.advance (S.image f) a = (m.advance S a).image f := by
  refine SortedSet.ext fun r' => ?_
  rw [mem_advance, h.exists_path_iff hS, SortedSet.mem_image]
  simp only [mem_advance]

theorem initial_eq (h : Renamed f m n) : n.initial = m.initial.image f := by
  have hstart : m.Within (.singleton m.start) := by
    intro q hq
    rw [SortedSet.mem_singleton.1 hq]
    exact Diagram.start_mem_states
  rw [initial, initial, h.start, ← SortedSet.image_singleton, h.closure_image hstart]

theorem accepting_image (h : Renamed f m n) (hS : m.Within S) :
    n.accepting (S.image f) = m.accepting S := by
  rw [accepting, accepting, h.closure_image hS, h.accept]
  exact SortedSet.meets_image h.injOn (within_closure hS) fun _ =>
    Diagram.mem_states_of_mem_accept

end

variable [Ordered α] {S : SortedSet σ}

theorem alphabet_eq (h : Renamed f m n) : n.alphabet = m.alphabet := by
  refine SortedSet.ext fun a => ?_
  simp only [Diagram.mem_alphabet, h.rules, List.mem_map]
  constructor
  · intro hlabel
    obtain ⟨_, ⟨rule, hmem, rfl⟩, ha⟩ := hlabel
    exact ⟨rule, hmem, ha⟩
  · intro hlabel
    obtain ⟨rule, hmem, ha⟩ := hlabel
    exact ⟨_, ⟨rule, hmem, rfl⟩, ha⟩

theorem advances_image (h : Renamed f m n) (hS : m.Within S) :
    n.advances (S.image f) = (m.advances S).map (SortedSet.image f) := by
  rw [advances, advances, h.alphabet_eq, List.map_map]
  exact List.map_congr_left fun a _ => h.advance_image hS a

theorem rulesOfSet_image (h : Renamed f m n) (hS : m.Within S) :
    n.rulesOfSet (S.image f) =
      (m.rulesOfSet S).map (Rule.mapStates (SortedSet.image f)) := by
  rw [rulesOfSet, rulesOfSet, h.alphabet_eq, List.map_map]
  refine List.map_congr_left fun a _ => ?_
  rw [h.advance_image hS]
  rfl

/-- The sets of states are discovered in the same order. -/
theorem stateSets_eq (h : Renamed f m n) :
    n.stateSets = m.stateSets.map (SortedSet.image f) := by
  have hinitial : m.Within m.initial := within_of_mem_stateSets initial_mem_stateSets
  have hseeds : (SortedSet.singleton n.initial).toList =
      (SortedSet.singleton m.initial).toList.map (SortedSet.image f) := by
    rw [h.initial_eq]
    rfl
  rw [stateSets, stateSets, discover, discover, hseeds]
  refine search_map (SortedSet.injOn_image h.injOn) ?_ ?_ ?_
  · intro S hS T hT
    obtain ⟨a, _, rfl⟩ := List.mem_map.1 hT
    exact within_advance hS a
  · intro S hS
    exact h.advances_image hS
  · intro S hS
    rw [List.mem_singleton.1 hS]
    exact hinitial

theorem image_mem_stateSets (h : Renamed f m n) (hS : S ∈ m.stateSets) :
    S.image f ∈ n.stateSets := by
  rw [h.stateSets_eq]
  exact List.mem_map_of_mem hS

/-- The deterministic automata differ by the renaming of the sets. -/
theorem renames_toDfa (h : Renamed f m n) : Dfa.Renames (SortedSet.image f) m.toDfa n.toDfa where
  injOn := by
    refine (SortedSet.injOn_image h.injOn).mono fun S hS => ?_
    exact within_of_mem_stateSets (mem_stateSets_of_mem_reachable hS)
  start := h.initial_eq
  accept := by
    intro S hS
    have hmem := mem_stateSets_of_mem_reachable hS
    have himage := h.image_mem_stateSets hmem
    rw [mem_accept_toDfa, mem_accept_toDfa, h.accepting_image (within_of_mem_stateSets hmem)]
    exact and_congr_left fun _ => iff_of_true himage hmem
  rulesFrom := by
    intro S hS
    have hmem := mem_stateSets_of_mem_reachable hS
    have himage := h.image_mem_stateSets hmem
    rw [rulesFrom_toDfa himage, rulesFrom_toDfa hmem,
      h.rulesOfSet_image (within_of_mem_stateSets hmem)]

end Renamed

variable [Ordered α]

/-- Two automata that differ in the names of their states and in the order and the
repetitions of their rules have the same numbered deterministic automaton, with the same
rules in the same order. -/
theorem number_toDfa_of_renamed {f : σ → τ} {m : Nfa σ α} {n : Nfa τ α} (h : Renamed f m n) :
    n.toDfa.number = m.toDfa.number :=
  h.renames_toDfa.number_eq

/-- The new names turn the order of the states around and tell no other states apart; the
rules stand in another order, one of them twice. -/
theorem number_toDfa_of_reversed_names :
    let f : Nat → Int := fun q => (2 - q : Nat)
    let m : Nfa Nat Char :=
      { start := 0
        accept := .singleton 2
        rules := [.free 0 1, ⟨0, some 'a', 0⟩, ⟨1, some 'b', 2⟩, ⟨2, some 'a', 1⟩] }
    let n : Nfa Int Char :=
      { start := 2
        accept := .singleton 0
        rules := [⟨0, some 'a', 1⟩, ⟨1, some 'b', 0⟩, ⟨2, some 'a', 2⟩, ⟨1, some 'b', 0⟩,
          .free 2 1] }
    Renamed f m n ∧ n.toDfa.number = m.toDfa.number := by
  intro f m n
  have hstates : ∀ q ∈ m.states.toList, q ≤ 2 := by decide
  have hinjOn : Set.InjOn f {q | q ∈ m.states} := by
    intro q hq r hr heq
    have heq : ((2 - q : Nat) : Int) = (2 - r : Nat) := heq
    have hqr := And.intro (hstates q hq) (hstates r hr)
    omega
  have hold : ∀ rule ∈ n.rules, rule ∈ m.rules.map (Rule.mapStates f) := by decide
  have hnew : ∀ rule ∈ m.rules.map (Rule.mapStates f), rule ∈ n.rules := by decide
  have hrenamed : Renamed f m n :=
    { injOn := hinjOn
      start := rfl
      accept := by decide
      rules := fun rule => ⟨hold rule, hnew rule⟩ }
  exact ⟨hrenamed, number_toDfa_of_renamed hrenamed⟩

end Acceptor.Nfa
