import Acceptor.Proofs.Dfa.Numbering

/-!
# How a numbered automaton is laid out

The rules of a numbered automaton are listed state by state in the order of the numbers.
Along this list new targets come up in the order of their numbers, without gaps
(`unseen_target_number`), and every state but the start is the target of a rule of a smaller
state (`exists_rule_number_of_pos`): numbers are places in the order of discovery.
-/

namespace Acceptor.Dfa

theorem map_idxOf_self {σ : Type} [DecidableEq σ] {order : List σ} (horder : order.Nodup) :
    order.map order.idxOf = List.range order.length := by
  refine List.ext_getElem (by simp) fun i hi _ => ?_
  rw [List.getElem_map, List.getElem_range]
  exact horder.idxOf_getElem i (by simpa using hi)

theorem idxOf_lt_of_mem_take {σ : Type} [DecidableEq σ] {order : List σ} {i : Nat} {q : σ}
    (hq : q ∈ order.take i) : order.idxOf q < i := by
  calc order.idxOf q
      = (order.take i ++ order.drop i).idxOf q := by rw [List.take_append_drop]
    _ = (order.take i).idxOf q := List.idxOf_append_of_mem hq
    _ < (order.take i).length := List.idxOf_lt_length_of_mem hq
    _ ≤ i := List.length_take_le i order

variable {σ α : Type} [Ordered σ] (m : Dfa σ α)

theorem length_reachable_pos : 0 < m.reachable.length :=
  List.length_pos_of_mem m.closed_reachable.start_mem

theorem map_target_rules_number :
    m.number.rules.map Rule.target =
      (m.reachable.flatMap m.successors).map m.reachable.idxOf := by
  simp only [number, numberAlong, List.map_flatMap, List.map_map, Diagram.successors]
  rfl

/-- New targets come up in the order `1, 2, 3, …`. -/
theorem unseen_target_number :
    unseen [0] (m.number.rules.map Rule.target) = List.range' 1 (m.reachable.length - 1) := by
  have hstart : ∀ q ∈ [m.start], q ∈ m.reachable := by simp [m.closed_reachable.start_mem]
  have hsuccessors : ∀ r ∈ m.reachable.flatMap m.successors, r ∈ m.reachable := by
    intro r hr
    obtain ⟨q, hq, hnext⟩ := List.mem_flatMap.1 hr
    exact mem_reachable_of_mem_successors hq hnext
  -- The places of the reachable states are all numbers in order; after the start these are
  -- the places of the successors, each at its first occurrence.
  have hnumbers : List.range m.reachable.length =
      0 :: unseen [0] (m.number.rules.map Rule.target) := by
    calc List.range m.reachable.length
        = m.reachable.map m.reachable.idxOf := (map_idxOf_self m.nodup_reachable).symm
      _ = (m.start :: unseen [m.start] (m.reachable.flatMap m.successors)).map
            m.reachable.idxOf := congrArg _ m.reachable_eq_start_cons
      _ = 0 :: unseen [0] (m.number.rules.map Rule.target) := by
          rw [List.map_cons, ← unseen_map m.injOn_idxOf_reachable hstart hsuccessors,
            List.map_singleton, idxOf_start, map_target_rules_number]
  have hlength : m.reachable.length = (m.reachable.length - 1) + 1 :=
    (Nat.sub_add_cancel m.length_reachable_pos).symm
  rw [List.range_eq_range', hlength, List.range'_succ] at hnumbers
  exact (List.cons_eq_cons.1 hnumbers).2.symm

/-- Every state but the start is found from a state that was found before it. -/
theorem exists_rule_number_of_pos {i : Nat} (hpos : 0 < i) (hi : i < m.reachable.length) :
    ∃ rule ∈ m.number.rules, rule.source < i ∧ rule.target = i := by
  have hcut : m.reachable = m.reachable.take i ++ m.reachable[i] :: m.reachable.drop (i + 1) := by
    rw [List.getElem_cons_drop, List.take_append_drop]
  have hplace : m.reachable.idxOf m.reachable[i] = i := m.nodup_reachable.idxOf_getElem i hi
  rcases exists_earlier_of_search_eq hcut with hstart | ⟨q, hq, hnext⟩
  · rw [List.mem_singleton.1 hstart, idxOf_start] at hplace
    exact absurd hplace (Nat.ne_of_lt hpos)
  · obtain ⟨rule, hrule, htarget⟩ := List.mem_map.1 hnext
    refine ⟨rule.mapStates m.reachable.idxOf, ?_, ?_, ?_⟩
    · exact List.mem_flatMap.2
        ⟨q, List.mem_of_mem_take hq, List.mem_map.2 ⟨rule, hrule, rfl⟩⟩
    · rw [Rule.mapStates, (mem_rulesFrom.1 hrule).2]
      exact idxOf_lt_of_mem_take hq
    · rw [Rule.mapStates, htarget]
      exact hplace

end Acceptor.Dfa
