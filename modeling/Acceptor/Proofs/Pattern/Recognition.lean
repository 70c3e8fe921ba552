import Acceptor.Pattern.Language
import Acceptor.Proofs.Pattern.Blocks

/-!
# What assembled automata recognize

One lemma for each way of gluing says which words the glued automaton recognizes, in
terms of the words that its parts recognize. The parts must not share states. By
induction on the pattern an assembled automaton recognizes the language of the
pattern (`recognizes_assemble`), and running it decides that language.

A part may have several accept states, and rules may leave them. This makes no
trouble, since the only moves out of a part start in its accept states: the word
that was spelled inside of the part is recognized by it at every such move.
-/

namespace Acceptor

namespace Nfa

variable {α : Type}

theorem recognizes_ofEmpty {start : Vertex} {w : List α} :
    (ofEmpty start).Recognizes w ↔ w = [] := by
  constructor
  · intro hw
    obtain ⟨q, _, hpath⟩ := hw
    cases hpath with
    | nil => rfl
    | free hrule _ => exact absurd hrule List.not_mem_nil
    | read hrule _ => exact absurd hrule List.not_mem_nil
  · intro hw
    rw [hw]
    exact ⟨start, SortedSet.mem_singleton.2 rfl, .nil start⟩

theorem recognizes_ofLiteral {start stop : Vertex} (hne : start ≠ stop) {a : α} {w : List α} :
    (ofLiteral start stop a).Recognizes w ↔ w = [a] := by
  have hrules : ∀ {q r : Vertex} {label : Option α},
      ⟨q, label, r⟩ ∈ (ofLiteral start stop a).rules → q = start ∧ label = some a ∧ r = stop := by
    intro q r label hrule
    simpa [ofLiteral] using hrule
  constructor
  · intro hw
    obtain ⟨q, hq, hpath⟩ := hw
    obtain rfl : q = stop := SortedSet.mem_singleton.1 hq
    change (ofLiteral start q a).toDiagram.Path start w q at hpath
    cases hpath with
    | nil => exact absurd rfl hne
    | free hrule _ => cases (hrules hrule).2.1
    | read hrule hrest =>
      obtain ⟨_, hlabel, rfl⟩ := hrules hrule
      cases hlabel
      -- no rule leaves the accept state, so the rest of the path is empty
      cases hrest with
      | nil => rfl
      | free hrule _ => exact absurd (hrules hrule).1.symm hne
      | read hrule _ => exact absurd (hrules hrule).1.symm hne
  · intro hw
    rw [hw]
    refine ⟨stop, SortedSet.mem_singleton.2 rfl, ?_⟩
    exact .read (List.mem_singleton.2 rfl) (.nil stop)

theorem recognizes_concat {first second : Nfa Vertex α}
    (hdisjoint : ∀ q ∈ first.states, q ∉ second.states) {w : List α} :
    (concat first second).Recognizes w ↔
      ∃ u v, w = u ++ v ∧ first.Recognizes u ∧ second.Recognizes v := by
  have hfirst : ∀ rule ∈ (concat first second).rules, rule.source ∈ first.states →
      rule ∈ first.rules ∧ rule.target ∈ first.states ∨
        rule.label = none ∧ rule.source ∈ first.accept ∧ rule.target = second.start := by
    intro rule hrule hsource
    rcases mem_rules_concat.1 hrule with h | h | ⟨q, hq, rfl⟩
    · exact .inl ⟨h, Diagram.target_mem_states h⟩
    · exact absurd (Diagram.source_mem_states h) (hdisjoint _ hsource)
    · exact .inr ⟨rfl, hq, rfl⟩
  have hsecond : ∀ rule ∈ (concat first second).rules, rule.source ∈ second.states →
      rule ∈ second.rules ∧ rule.target ∈ second.states := by
    intro rule hrule hsource
    rcases mem_rules_concat.1 hrule with h | h | ⟨q, hq, rfl⟩
    · exact absurd hsource (hdisjoint _ (Diagram.source_mem_states h))
    · exact ⟨h, Diagram.target_mem_states h⟩
    · exact absurd hsource (hdisjoint _ (Diagram.mem_states_of_mem_accept hq))
  constructor
  · intro hw
    obtain ⟨q, hq, hpath⟩ := hw
    change q ∈ second.accept at hq
    rcases Diagram.Path.leaves (· ∈ first.states) (· ∈ first.accept) hfirst hpath
        Diagram.start_mem_states with ⟨_, hstay⟩ | ⟨u, v, s, rfl, hu, hs, hv⟩
    · exact absurd (Diagram.mem_states_of_mem_accept hq) (hdisjoint q hstay)
    · have hinner := Diagram.Path.confined (· ∈ second.states) hsecond hv
        Diagram.start_mem_states
      exact ⟨u, v, rfl, ⟨s, hs, hu⟩, ⟨q, hq, hinner.1⟩⟩
  · intro hparts
    obtain ⟨u, v, rfl, ⟨s, hs, hu⟩, ⟨q, hq, hv⟩⟩ := hparts
    have hbefore : (concat first second).toDiagram.Path first.start u s :=
      hu.mono fun rule h => mem_rules_concat.2 (.inl h)
    have hafter : (concat first second).toDiagram.Path second.start v q :=
      hv.mono fun rule h => mem_rules_concat.2 (.inr (.inl h))
    have hbridge : Rule.free s second.start ∈ (concat first second).rules :=
      mem_rules_concat.2 (.inr (.inr ⟨s, hs, rfl⟩))
    exact ⟨q, hq, hbefore.append (.free hbridge hafter)⟩

/-- From a start state of its own a choice moves to the start of one of its parts. -/
theorem recognizes_choice {start : Vertex} {first second : Nfa Vertex α}
    (hdisjoint : ∀ q ∈ first.states, q ∉ second.states)
    (hfresh : start ∉ first.states ∧ start ∉ second.states) {w : List α} :
    (choice start first second).Recognizes w ↔ first.Recognizes w ∨ second.Recognizes w := by
  have hfirst : ∀ rule ∈ (choice start first second).rules, rule.source ∈ first.states →
      rule ∈ first.rules ∧ rule.target ∈ first.states := by
    intro rule hrule hsource
    rcases mem_rules_choice.1 hrule with h | h | rfl | rfl
    · exact ⟨h, Diagram.target_mem_states h⟩
    · exact absurd (Diagram.source_mem_states h) (hdisjoint _ hsource)
    · exact absurd hsource hfresh.1
    · exact absurd hsource hfresh.1
  have hsecond : ∀ rule ∈ (choice start first second).rules, rule.source ∈ second.states →
      rule ∈ second.rules ∧ rule.target ∈ second.states := by
    intro rule hrule hsource
    rcases mem_rules_choice.1 hrule with h | h | rfl | rfl
    · exact absurd hsource (hdisjoint _ (Diagram.source_mem_states h))
    · exact ⟨h, Diagram.target_mem_states h⟩
    · exact absurd hsource hfresh.2
    · exact absurd hsource hfresh.2
  have hmoves : ∀ {label : Option α} {r : Vertex},
      ⟨start, label, r⟩ ∈ (choice start first second).rules →
        label = none ∧ (r = first.start ∨ r = second.start) := by
    intro label r hrule
    rcases mem_rules_choice.1 hrule with h | h | h | h
    · exact absurd (Diagram.source_mem_states h) hfresh.1
    · exact absurd (Diagram.source_mem_states h) hfresh.2
    · cases h
      exact ⟨rfl, .inl rfl⟩
    · cases h
      exact ⟨rfl, .inr rfl⟩
  constructor
  · intro hw
    obtain ⟨q, hq, hpath⟩ := hw
    have haccept : q ∈ first.accept ∨ q ∈ second.accept := SortedSet.mem_union.1 hq
    change (choice start first second).toDiagram.Path start w q at hpath
    cases hpath with
    | nil =>
      rcases haccept with h | h
      · exact absurd (Diagram.mem_states_of_mem_accept h) hfresh.1
      · exact absurd (Diagram.mem_states_of_mem_accept h) hfresh.2
    | read hrule _ => cases (hmoves hrule).1
    | free hrule hrest =>
      rcases (hmoves hrule).2 with rfl | rfl
      · obtain ⟨hinner, hstay⟩ := Diagram.Path.confined (· ∈ first.states) hfirst hrest
          Diagram.start_mem_states
        rcases haccept with h | h
        · exact .inl ⟨q, h, hinner⟩
        · exact absurd (Diagram.mem_states_of_mem_accept h) (hdisjoint q hstay)
      · obtain ⟨hinner, hstay⟩ := Diagram.Path.confined (· ∈ second.states) hsecond hrest
          Diagram.start_mem_states
        rcases haccept with h | h
        · exact absurd hstay (hdisjoint q (Diagram.mem_states_of_mem_accept h))
        · exact .inr ⟨q, h, hinner⟩
  · rintro (⟨q, hq, hpath⟩ | ⟨q, hq, hpath⟩)
    · have hmove : Rule.free start first.start ∈ (choice start first second).rules :=
        mem_rules_choice.2 (.inr (.inr (.inl rfl)))
      have hrest : (choice start first second).toDiagram.Path first.start w q :=
        hpath.mono fun rule h => mem_rules_choice.2 (.inl h)
      exact ⟨q, SortedSet.mem_union.2 (.inl hq), .free hmove hrest⟩
    · have hmove : Rule.free start second.start ∈ (choice start first second).rules :=
        mem_rules_choice.2 (.inr (.inr (.inr rfl)))
      have hrest : (choice start first second).toDiagram.Path second.start w q :=
        hpath.mono fun rule h => mem_rules_choice.2 (.inr (.inl h))
      exact ⟨q, SortedSet.mem_union.2 (.inr hq), .free hmove hrest⟩

/-- Within the part of a repetition every path to an accept state is cut by the moves
back to the start into a first piece, which ends the word that is going on, and
further pieces, which the part recognizes. -/
theorem path_star {start : Vertex} {part : Nfa Vertex α} (hfresh : start ∉ part.states)
    {q r : Vertex} {w : List α} (hpath : (star start part).toDiagram.Path q w r)
    (hq : q ∈ part.states) (hr : r ∈ (star start part).accept) :
    ∃ u parts, w = u ++ List.flatten parts ∧
      (∃ s, s ∈ part.accept ∧ part.toDiagram.Path q u s) ∧
        ∀ v ∈ parts, part.Recognizes v := by
  induction hpath with
  | nil q =>
    have haccept : q ∈ part.accept := by
      rcases SortedSet.mem_insert.1 hr with rfl | h
      · exact absurd hq hfresh
      · exact h
    exact ⟨[], [], rfl, ⟨q, haccept, .nil q⟩, by simp⟩
  | free hrule _ ih =>
    rcases mem_rules_star.1 hrule with h | ⟨t, ht, h⟩ | h
    · obtain ⟨u, parts, rfl, ⟨s, hs, hu⟩, hparts⟩ := ih (Diagram.target_mem_states h) hr
      exact ⟨u, parts, rfl, ⟨s, hs, .free h hu⟩, hparts⟩
    · -- the move back to the start begins a new piece
      cases h
      obtain ⟨u, parts, rfl, hu, hparts⟩ := ih Diagram.start_mem_states hr
      exact ⟨[], u :: parts, rfl, ⟨_, ht, .nil _⟩, List.forall_mem_cons.2 ⟨hu, hparts⟩⟩
    · cases h
      exact absurd hq hfresh
  | read hrule _ ih =>
    rcases mem_rules_star.1 hrule with h | ⟨s, _, h⟩ | h
    · obtain ⟨u, parts, rfl, ⟨s, hs, hu⟩, hparts⟩ := ih (Diagram.target_mem_states h) hr
      exact ⟨_ :: u, parts, rfl, ⟨s, hs, .read h hu⟩, hparts⟩
    · cases h
    · cases h

/-- Pieces that the part recognizes are strung together by the moves back to its
start. -/
theorem path_star_of_pieces (start : Vertex) {part : Nfa Vertex α} {u : List α}
    {parts : List (List α)} (hu : part.Recognizes u) (hparts : ∀ v ∈ parts, part.Recognizes v) :
    ∃ q, q ∈ part.accept ∧
      (star start part).toDiagram.Path part.start (u ++ parts.flatten) q := by
  have hlift : ∀ {q r : Vertex} {v : List α}, part.toDiagram.Path q v r →
      (star start part).toDiagram.Path q v r := fun hpath =>
    hpath.mono fun rule h => mem_rules_star.2 (.inl h)
  induction parts generalizing u with
  | nil =>
    obtain ⟨q, hq, hpath⟩ := hu
    exact ⟨q, hq, by simpa using hlift hpath⟩
  | cons v parts ih =>
    obtain ⟨hv, hrest⟩ := List.forall_mem_cons.1 hparts
    obtain ⟨s, hs, hpath⟩ := hu
    obtain ⟨q, hq, htail⟩ := ih hv hrest
    have hback : Rule.free s part.start ∈ (star start part).rules :=
      mem_rules_star.2 (.inr (.inl ⟨s, hs, rfl⟩))
    exact ⟨q, hq, (hlift hpath).append (.free hback htail)⟩

theorem recognizes_star {start : Vertex} {part : Nfa Vertex α} (hfresh : start ∉ part.states)
    {w : List α} :
    (star start part).Recognizes w ↔
      ∃ parts : List (List α), w = parts.flatten ∧ ∀ u ∈ parts, part.Recognizes u := by
  have hmoves : ∀ {label : Option α} {r : Vertex},
      ⟨start, label, r⟩ ∈ (star start part).rules → label = none ∧ r = part.start := by
    intro label r hrule
    rcases mem_rules_star.1 hrule with h | ⟨s, hs, h⟩ | h
    · exact absurd (Diagram.source_mem_states h) hfresh
    · cases h
      exact absurd (Diagram.mem_states_of_mem_accept hs) hfresh
    · cases h
      exact ⟨rfl, rfl⟩
  constructor
  · intro hw
    obtain ⟨q, hq, hpath⟩ := hw
    change (star start part).toDiagram.Path start w q at hpath
    cases hpath with
    | nil => exact ⟨[], rfl, by simp⟩
    | read hrule _ => cases (hmoves hrule).1
    | free hrule hrest =>
      obtain ⟨_, rfl⟩ := hmoves hrule
      obtain ⟨u, parts, rfl, hu, hparts⟩ := path_star hfresh hrest Diagram.start_mem_states hq
      exact ⟨u :: parts, rfl, List.forall_mem_cons.2 ⟨hu, hparts⟩⟩
  · intro hw
    obtain ⟨parts, rfl, hparts⟩ := hw
    cases parts with
    | nil => exact ⟨start, SortedSet.mem_insert.2 (.inl rfl), .nil start⟩
    | cons u parts =>
      obtain ⟨hu, hrest⟩ := List.forall_mem_cons.1 hparts
      obtain ⟨q, hq, hpath⟩ := path_star_of_pieces start hu hrest
      have hmove : Rule.free start part.start ∈ (star start part).rules :=
        mem_rules_star.2 (.inr (.inr rfl))
      exact ⟨q, SortedSet.mem_insert.2 (.inr hq), .free hmove hpath⟩

end Nfa

namespace Pattern

variable {α : Type}

/-- The automaton that is assembled for a pattern, from whatever vertices, recognizes
the language of the pattern. -/
theorem recognizes_assemble (p : Pattern α) (supply : Supply) (w : List α) :
    (p.assemble supply).1.Recognizes w ↔ p.Matches w := by
  induction p generalizing supply w with
  | empty =>
    rw [matches_empty]
    exact Nfa.recognizes_ofEmpty
  | literal a =>
    rw [matches_literal]
    exact Nfa.recognizes_ofLiteral (by simp)
  | concat p q ihp ihq =>
    have hglued := Nfa.recognizes_concat (w := w) (not_mem_states_assemble p q supply)
    rw [matches_concat, assemble, hglued]
    simp only [ihp, ihq]
  | choice p q ihp ihq =>
    have hused := used_assemble q (p.assemble supply).2
    have hfirst : (q.assemble (p.assemble supply).2).2.fresh.1 ∉
        (p.assemble supply).1.states := fresh_not_mem_states_assemble p (by omega)
    have hsecond := fresh_not_mem_states_assemble q (Nat.le_refl
      (q.assemble (p.assemble supply).2).2.used)
    have hglued := Nfa.recognizes_choice (w := w) (not_mem_states_assemble p q supply)
      ⟨hfirst, hsecond⟩
    rw [matches_choice, assemble, hglued, ihp, ihq]
  | star p ih =>
    have hfresh := fresh_not_mem_states_assemble p (Nat.le_refl (p.assemble supply).2.used)
    rw [matches_star, assemble, Nfa.recognizes_star hfresh]
    simp only [ih]

/-- Running the automaton of a pattern tells which words match the pattern. -/
theorem accepts_iff_matches [DecidableEq α] (p : Pattern α) (w : List α) :
    p.accepts w = true ↔ p.Matches w := by
  rw [accepts, toNfa_eq, Nfa.accepts_iff_recognizes, recognizes_assemble]

end Pattern

end Acceptor
