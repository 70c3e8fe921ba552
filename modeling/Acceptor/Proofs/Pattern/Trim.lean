import Acceptor.Pattern.Table
import Acceptor.Proofs.Dfa.Numbering
import Acceptor.Proofs.Nfa.Lockstep
import Acceptor.Proofs.Pattern.Blocks

/-!
# Assembled automata are trim

An automaton is trim if each of its states is on some path from the start to an accept state.
Gluing keeps this (`Nfa.trim_concat`, `Nfa.trim_choice`, `Nfa.trim_star`), whether or not the
parts share states: a part lies in the glued automaton so that its start can be reached and
its accept states lead on to an accept state (`Trim.useful_of_part`).

In the deterministic automaton of a trim one a set with a member is alive. So no set is dead
but the empty one, and reading leads from it to itself (`dead_table`).
-/

namespace Acceptor

namespace Diagram

variable {σ α : Type} [Ordered σ]

/-- The state is on some path from the start to an accept state. -/
def Useful (d : Diagram σ α) (q : σ) : Prop :=
  d.Leads d.start q ∧ ∃ r ∈ d.accept, d.Leads q r

def Trim (d : Diagram σ α) : Prop := ∀ q ∈ d.states, d.Useful q

/-- The states of a trim part are useful in the whole, if the start of the part can be
reached and its accept states lead to accept states. -/
theorem Trim.useful_of_part {part whole : Diagram σ α} (hpart : part.Trim)
    (hrules : ∀ rule ∈ part.rules, rule ∈ whole.rules)
    (hstart : whole.Leads whole.start part.start)
    (haccept : ∀ r ∈ part.accept, ∃ s ∈ whole.accept, whole.Leads r s) {q : σ}
    (hq : q ∈ part.states) : whole.Useful q := by
  obtain ⟨hbefore, r, hr, hafter⟩ := hpart q hq
  obtain ⟨s, hs, hrest⟩ := haccept r hr
  exact ⟨hstart.trans (hbefore.mono hrules), s, hs, (hafter.mono hrules).trans hrest⟩

end Diagram

namespace Nfa

section gluing

variable {α : Type} {first second part : Nfa Vertex α}

theorem trim_ofEmpty (start : Vertex) : (ofEmpty (α := α) start).Trim := by
  intro q hq
  rw [mem_states_ofEmpty hq]
  exact ⟨.refl _ start, start, SortedSet.mem_singleton.2 rfl, .refl _ start⟩

theorem trim_ofLiteral (start stop : Vertex) (a : α) : (ofLiteral start stop a).Trim := by
  intro q hq
  have hstop : stop ∈ (ofLiteral start stop a).accept := SortedSet.mem_singleton.2 rfl
  have hread : (ofLiteral start stop a).Leads start stop := .of_rule (List.mem_singleton.2 rfl)
  rcases mem_states_ofLiteral hq with rfl | rfl
  · exact ⟨.refl _ q, stop, hstop, hread⟩
  · exact ⟨hread, q, hstop, .refl _ q⟩

theorem trim_concat (hfirst : first.Trim) (hsecond : second.Trim) :
    (concat first second).Trim := by
  have hinFirst : ∀ rule ∈ first.rules, rule ∈ (concat first second).rules :=
    fun _ h => mem_rules_concat.2 (.inl h)
  have hinSecond : ∀ rule ∈ second.rules, rule ∈ (concat first second).rules :=
    fun _ h => mem_rules_concat.2 (.inr (.inl h))
  have hmove : ∀ r ∈ first.accept, (concat first second).Leads r second.start :=
    fun r hr => .of_rule (mem_rules_concat.2 (.inr (.inr ⟨r, hr, rfl⟩)))
  obtain ⟨_, r, hr, hthrough⟩ := hfirst first.start Diagram.start_mem_states
  obtain ⟨_, s, hs, hend⟩ := hsecond second.start Diagram.start_mem_states
  intro q hq
  rcases mem_states_concat hq with h | h
  · exact hfirst.useful_of_part hinFirst (.refl _ _)
      (fun r hr => ⟨s, hs, (hmove r hr).trans (hend.mono hinSecond)⟩) h
  · exact hsecond.useful_of_part hinSecond ((hthrough.mono hinFirst).trans (hmove r hr))
      (fun r hr => ⟨r, hr, .refl _ r⟩) h

theorem trim_choice (start : Vertex) (hfirst : first.Trim) (hsecond : second.Trim) :
    (choice start first second).Trim := by
  have hinFirst : ∀ rule ∈ first.rules, rule ∈ (choice start first second).rules :=
    fun _ h => mem_rules_choice.2 (.inl h)
  have hinSecond : ∀ rule ∈ second.rules, rule ∈ (choice start first second).rules :=
    fun _ h => mem_rules_choice.2 (.inr (.inl h))
  have htoFirst : (choice start first second).Leads start first.start :=
    .of_rule (mem_rules_choice.2 (.inr (.inr (.inl rfl))))
  have htoSecond : (choice start first second).Leads start second.start :=
    .of_rule (mem_rules_choice.2 (.inr (.inr (.inr rfl))))
  obtain ⟨_, r, hr, hthrough⟩ := hfirst first.start Diagram.start_mem_states
  intro q hq
  rcases mem_states_choice hq with rfl | h | h
  · exact ⟨.refl _ q, r, SortedSet.mem_union.2 (.inl hr),
      htoFirst.trans (hthrough.mono hinFirst)⟩
  · exact hfirst.useful_of_part hinFirst htoFirst
      (fun r hr => ⟨r, SortedSet.mem_union.2 (.inl hr), .refl _ r⟩) h
  · exact hsecond.useful_of_part hinSecond htoSecond
      (fun r hr => ⟨r, SortedSet.mem_union.2 (.inr hr), .refl _ r⟩) h

theorem trim_star (start : Vertex) (hpart : part.Trim) : (star start part).Trim := by
  have hin : ∀ rule ∈ part.rules, rule ∈ (star start part).rules :=
    fun _ h => mem_rules_star.2 (.inl h)
  have hto : (star start part).Leads start part.start :=
    .of_rule (mem_rules_star.2 (.inr (.inr rfl)))
  intro q hq
  rcases mem_states_star hq with rfl | h
  · exact ⟨.refl _ q, q, SortedSet.mem_insert.2 (.inl rfl), .refl _ q⟩
  · exact hpart.useful_of_part hin hto
      (fun r hr => ⟨r, SortedSet.mem_insert.2 (.inr hr), .refl _ r⟩) h

end gluing

section dead

variable {σ α : Type} [Ordered σ] [Ordered α] {m : Nfa σ α}

/-- A path from a member of a set to an accept state is a run of the deterministic automaton
from that set. -/
theorem exists_run_toDfa {S : SortedSet σ} (hS : S ∈ m.stateSets) {q r : σ} (hq : q ∈ S)
    {w : List α} (path : m.toDiagram.Path q w r) (hr : r ∈ m.accept) :
    ∃ T, T ∈ m.toDfa.accept ∧ m.toDfa.run S w = .ok T := by
  have hw : ∀ a ∈ w, a ∈ m.alphabet := path.mem_alphabet
  have hT : r ∈ w.foldl m.advance S := by
    have hrun : r ∈ m.run S w := mem_run.2 ⟨q, hq, path⟩
    rwa [run, closure_of_mem_stateSets hS] at hrun
  have hmem := foldl_advance_mem_stateSets hS hw
  have haccepting : m.accepting (w.foldl m.advance S) = true := by
    rw [accepting, closure_of_mem_stateSets hmem]
    exact SortedSet.meets_iff.2 ⟨r, hT, hr⟩
  exact ⟨_, mem_accept_toDfa.2 ⟨hmem, haccepting⟩, run_toDfa_from hS hw⟩

/-- The only set that can be dead is the empty one. -/
theorem eq_empty_of_mem_deadStates (hm : m.Trim) {S : SortedSet σ} (hS : S ∈ m.stateSets)
    (hdead : S ∈ m.toDfa.deadStates) : S = .empty := by
  refine SortedSet.ext fun q => iff_of_false (fun hq => ?_) (SortedSet.not_mem_empty q)
  obtain ⟨_, r, hr, w, path⟩ := hm q (within_of_mem_stateSets hS q hq)
  obtain ⟨T, hT, hrun⟩ := exists_run_toDfa hS hq path hr
  exact (Dfa.mem_deadStates.1 hdead).2 w T (Dfa.path_of_run hrun) hT

theorem advance_empty (m : Nfa σ α) (a : α) : m.advance .empty a = .empty := by
  refine SortedSet.ext fun r => iff_of_false (fun hr => ?_) (SortedSet.not_mem_empty r)
  obtain ⟨q, hq, _⟩ := mem_advance.1 hr
  exact SortedSet.not_mem_empty q hq

theorem mem_deadStates_number (hm : m.Trim) {i : Nat}
    (hi : i ∈ m.toDfa.number.deadStates) :
    SortedSet.empty ∈ m.toDfa.reachable ∧ i = m.toDfa.reachable.idxOf .empty := by
  obtain ⟨S, hS, rfl⟩ := Dfa.mem_states_number.1 (Dfa.mem_deadStates.1 hi).1
  have hdead := (m.toDfa.renames_number.mem_deadStates_iff hS).1 hi
  have hempty := eq_empty_of_mem_deadStates hm (mem_stateSets_of_mem_reachable hS) hdead
  exact ⟨hempty ▸ hS, by rw [hempty]⟩

theorem zero_not_mem_deadStates_number (hm : m.Trim) : 0 ∉ m.toDfa.number.deadStates := by
  intro hdead
  obtain ⟨hmem, hzero⟩ := mem_deadStates_number hm hdead
  have hstart : m.start ∈ m.initial :=
    mem_closure_iff_path.2 ⟨m.start, SortedSet.mem_singleton.2 rfl, .nil _⟩
  have hempty : m.initial = .empty :=
    m.toDfa.injOn_idxOf_reachable m.toDfa.closed_reachable.start_mem hmem
      (m.toDfa.idxOf_start.trans hzero)
  rw [hempty] at hstart
  exact SortedSet.not_mem_empty _ hstart

theorem target_of_mem_deadStates_number (hm : m.Trim) {rule : Rule Nat α}
    (hrule : rule ∈ m.toDfa.number.rules) (hdead : rule.source ∈ m.toDfa.number.deadStates) :
    rule.target = rule.source := by
  obtain ⟨⟨S, label, T⟩, hmem, hS, rfl⟩ := Dfa.exists_of_mem_rules_number hrule
  obtain ⟨hempty, hplace⟩ := mem_deadStates_number hm hdead
  obtain rfl : S = .empty := m.toDfa.injOn_idxOf_reachable hS hempty hplace
  obtain ⟨_, a, _, _, rfl⟩ := mem_rules_toDfa.1 hmem
  rw [Rule.mapStates, advance_empty]

end dead

end Nfa

namespace Pattern

variable {α : Type}

theorem trim_assemble (p : Pattern α) (supply : Supply) : (p.assemble supply).1.Trim := by
  induction p generalizing supply with
  | empty => exact Nfa.trim_ofEmpty _
  | literal a => exact Nfa.trim_ofLiteral _ _ a
  | concat p q ihp ihq => exact Nfa.trim_concat (ihp _) (ihq _)
  | choice p q ihp ihq => exact Nfa.trim_choice _ (ihp _) (ihq _)
  | star p ih => exact Nfa.trim_star _ (ih _)

theorem trim_toNfa (p : Pattern α) : p.toNfa.Trim := by
  rw [toNfa_eq]
  exact p.trim_assemble {}

/-- The automaton of a pattern is trim. So the table of the pattern has at most one dead
state, which is not the initial state, and all rules that leave it lead back to it. -/
theorem dead_table [Ordered α] (p : Pattern α) :
    (∀ q ∈ p.toNfa.states, p.toNfa.Leads p.toNfa.start q ∧
      ∃ r ∈ p.toNfa.accept, p.toNfa.Leads q r) ∧
    p.table.dead.size ≤ 1 ∧ p.table.initial = 0 ∧ 0 ∉ p.table.dead ∧
    ∀ q ∈ p.table.dead, ∀ rule ∈ p.table.automaton.rules, rule.source = q → rule.target = q := by
  have htrim : p.toNfa.Trim := p.trim_toNfa
  refine ⟨htrim, ?_, p.toNfa.toDfa.idxOf_start, Nfa.zero_not_mem_deadStates_number htrim, ?_⟩
  · exact SortedSet.size_le_one fun _ hq => (Nfa.mem_deadStates_number htrim hq).2
  · intro q hq rule hrule hsource
    subst hsource
    exact Nfa.target_of_mem_deadStates_number htrim hrule hq

example : (concat (literal 'a') (star (literal 'b'))).table.dead.toList = [2] := by
  cbv

end Pattern

end Acceptor
