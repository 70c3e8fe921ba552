import Acceptor.Pattern.Blocks
import Acceptor.Proofs.Nfa.Recognized

/-!
# Blocks of vertices

Every part of a pattern owns one block of consecutive vertices: the states of the
automaton that is assembled for it are among the vertices that were taken from the
supply meanwhile (`mem_states_assemble`). Blocks of different parts therefore have
no vertex in common, and a start state that is made afterwards is in none of them.
-/

namespace Acceptor

namespace Nfa

variable {α : Type}

@[simp] theorem mem_mergeRules {first second : List (Rule Vertex α)} {rule : Rule Vertex α} :
    rule ∈ mergeRules first second ↔ rule ∈ first ∨ rule ∈ second := by
  by_cases h : second.length ≤ first.length
  · simp [mergeRules, h]
  · simp [mergeRules, h, or_comm]

@[simp] theorem mem_exits {m : Nfa Vertex α} {target : Vertex} {rule : Rule Vertex α} :
    rule ∈ m.exits target ↔ ∃ q, q ∈ m.accept ∧ rule = .free q target := by
  simp [exits, SortedSet.mem_toList, eq_comm]

theorem mem_rules_concat {first second : Nfa Vertex α} {rule : Rule Vertex α} :
    rule ∈ (concat first second).rules ↔
      rule ∈ first.rules ∨ rule ∈ second.rules ∨
        ∃ q, q ∈ first.accept ∧ rule = .free q second.start := by
  simp [concat, or_assoc]

theorem mem_rules_choice {start : Vertex} {first second : Nfa Vertex α} {rule : Rule Vertex α} :
    rule ∈ (choice start first second).rules ↔
      rule ∈ first.rules ∨ rule ∈ second.rules ∨
        rule = .free start first.start ∨ rule = .free start second.start := by
  simp [choice, or_assoc]

theorem mem_rules_star {start : Vertex} {part : Nfa Vertex α} {rule : Rule Vertex α} :
    rule ∈ (star start part).rules ↔
      rule ∈ part.rules ∨ (∃ q, q ∈ part.accept ∧ rule = .free q part.start) ∨
        rule = .free start part.start := by
  simp [star]

theorem mem_states_ofEmpty {start q : Vertex} (hq : q ∈ (ofEmpty (α := α) start).states) :
    q = start := by
  simpa [Diagram.mem_states, ofEmpty] using hq

theorem mem_states_ofLiteral {start stop q : Vertex} {a : α}
    (hq : q ∈ (ofLiteral start stop a).states) : q = start ∨ q = stop := by
  have h : q = start ∨ q = stop ∨ q = start ∨ q = stop := by
    simpa [Diagram.mem_states, ofLiteral] using hq
  rcases h with h | h | h | h <;> simp [h]

theorem mem_states_concat {first second : Nfa Vertex α} {q : Vertex}
    (hq : q ∈ (concat first second).states) : q ∈ first.states ∨ q ∈ second.states := by
  rcases Diagram.mem_states.1 hq with rfl | haccept | ⟨rule, hrule, hend⟩
  · exact .inl Diagram.start_mem_states
  · exact .inr (Diagram.mem_states_of_mem_accept haccept)
  · rcases mem_rules_concat.1 hrule with hfirst | hsecond | ⟨r, hr, rfl⟩
    · exact .inl (Diagram.ends_mem_states hfirst hend)
    · exact .inr (Diagram.ends_mem_states hsecond hend)
    · rcases hend with rfl | rfl
      · exact .inl (Diagram.mem_states_of_mem_accept hr)
      · exact .inr Diagram.start_mem_states

theorem mem_states_choice {start : Vertex} {first second : Nfa Vertex α} {q : Vertex}
    (hq : q ∈ (choice start first second).states) :
    q = start ∨ q ∈ first.states ∨ q ∈ second.states := by
  rcases Diagram.mem_states.1 hq with rfl | haccept | ⟨rule, hrule, hend⟩
  · exact .inl rfl
  · rcases SortedSet.mem_union.1 haccept with h | h
    · exact .inr (.inl (Diagram.mem_states_of_mem_accept h))
    · exact .inr (.inr (Diagram.mem_states_of_mem_accept h))
  · rcases mem_rules_choice.1 hrule with hfirst | hsecond | rfl | rfl
    · exact .inr (.inl (Diagram.ends_mem_states hfirst hend))
    · exact .inr (.inr (Diagram.ends_mem_states hsecond hend))
    · rcases hend with rfl | rfl
      · exact .inl rfl
      · exact .inr (.inl Diagram.start_mem_states)
    · rcases hend with rfl | rfl
      · exact .inl rfl
      · exact .inr (.inr Diagram.start_mem_states)

theorem mem_states_star {start : Vertex} {part : Nfa Vertex α} {q : Vertex}
    (hq : q ∈ (star start part).states) : q = start ∨ q ∈ part.states := by
  rcases Diagram.mem_states.1 hq with rfl | haccept | ⟨rule, hrule, hend⟩
  · exact .inl rfl
  · rcases SortedSet.mem_insert.1 haccept with h | h
    · exact .inl h
    · exact .inr (Diagram.mem_states_of_mem_accept h)
  · rcases mem_rules_star.1 hrule with hpart | ⟨r, hr, rfl⟩ | rfl
    · exact .inr (Diagram.ends_mem_states hpart hend)
    · rcases hend with rfl | rfl
      · exact .inr (Diagram.mem_states_of_mem_accept hr)
      · exact .inr Diagram.start_mem_states
    · rcases hend with rfl | rfl
      · exact .inl rfl
      · exact .inr Diagram.start_mem_states

end Nfa

namespace Pattern

variable {α : Type}

/-- The vertices that the automaton of the pattern takes from its supply. -/
def vertexCount : Pattern α → Nat
  | .empty => 1
  | .literal _ => 2
  | .concat p q => p.vertexCount + q.vertexCount
  | .choice p q => p.vertexCount + q.vertexCount + 1
  | .star p => p.vertexCount + 1

theorem used_assemble (p : Pattern α) (supply : Supply) :
    (p.assemble supply).2.used = supply.used + p.vertexCount := by
  induction p generalizing supply with
  | empty => rfl
  | literal a => rfl
  | concat p q ihp ihq =>
    simp only [assemble, vertexCount, ihp, ihq]
    omega
  | choice p q ihp ihq =>
    simp only [assemble, vertexCount, Supply.fresh, ihp, ihq]
    omega
  | star p ih =>
    simp only [assemble, vertexCount, Supply.fresh, ih]
    omega

/-- The states of an assembled automaton are vertices that were taken from the supply
for it. -/
theorem mem_states_assemble {p : Pattern α} {supply : Supply} {v : Vertex}
    (hv : v ∈ (p.assemble supply).1.states) :
    supply.used ≤ v.index ∧ v.index < supply.used + p.vertexCount := by
  induction p generalizing supply with
  | empty =>
    have hindex := Nfa.mem_states_ofEmpty hv
    simp [hindex, vertexCount]
  | literal a =>
    rcases Nfa.mem_states_ofLiteral hv with rfl | rfl
    · simp [vertexCount]
    · simp [vertexCount]
  | concat p q ihp ihq =>
    have hused := used_assemble p supply
    rcases Nfa.mem_states_concat hv with h | h
    · have := ihp h
      simp only [vertexCount]
      omega
    · have := ihq h
      simp only [vertexCount]
      omega
  | choice p q ihp ihq =>
    have hp := used_assemble p supply
    have hq := used_assemble q (p.assemble supply).2
    rcases Nfa.mem_states_choice hv with rfl | h | h
    · simp only [vertexCount]
      omega
    · have := ihp h
      simp only [vertexCount]
      omega
    · have := ihq h
      simp only [vertexCount]
      omega
  | star p ih =>
    have hused := used_assemble p supply
    rcases Nfa.mem_states_star hv with rfl | h
    · simp only [vertexCount]
      omega
    · have := ih h
      simp only [vertexCount]
      omega

/-- Parts that are assembled one after the other have no state in common. -/
theorem not_mem_states_assemble (p q : Pattern α) (supply : Supply) :
    ∀ v ∈ (p.assemble supply).1.states,
      v ∉ (q.assemble (p.assemble supply).2).1.states := by
  intro v hv hq
  have hfirst := mem_states_assemble hv
  have hsecond := mem_states_assemble hq
  rw [used_assemble] at hsecond
  omega

/-- A vertex that is taken later is no state of the automaton. -/
theorem fresh_not_mem_states_assemble (p : Pattern α) {supply later : Supply}
    (hlater : (p.assemble supply).2.used ≤ later.used) :
    later.fresh.1 ∉ (p.assemble supply).1.states := by
  intro hv
  have hindex := mem_states_assemble hv
  rw [used_assemble] at hlater
  simp only [Supply.fresh] at hindex
  omega

end Pattern

end Acceptor
