import Acceptor.Pattern.Table
import Acceptor.Proofs.Dfa.Layout
import Acceptor.Proofs.Nfa.Lockstep
import Acceptor.Proofs.Pattern.Blocks

/-!
# How the table of a pattern is laid out

A set of states has one rule for each symbol of the alphabet, in the order of the alphabet,
so the rules of a numbered automaton of sets stand in blocks of one length, and the place of
a rule tells its state and its symbol (`Nfa.getElem?_rules_number`). The alphabet is that of
the literals of the pattern (`alphabet_toNfa`).
-/

namespace Acceptor

section blocks

variable {β γ : Type} {f : β → List γ} {k : Nat}

theorem length_flatMap_of_length {l : List β} (hlength : ∀ x ∈ l, (f x).length = k) :
    (l.flatMap f).length = l.length * k := by
  rw [List.length_flatMap, List.map_congr_left hlength, List.map_const', List.sum_replicate_nat]

/-- In a list of blocks of the length `k` the place `i * k + j` is the place `j` of the block
`i`. -/
theorem getElem?_flatMap_of_length {l : List β} (hlength : ∀ x ∈ l, (f x).length = k)
    (i : Nat) {j : Nat} (hj : j < k) :
    (l.flatMap f)[i * k + j]? = l[i]?.bind fun x => (f x)[j]? := by
  induction l generalizing i with
  | nil => simp
  | cons x l ih =>
    obtain ⟨hx, hl⟩ := List.forall_mem_cons.1 hlength
    rw [List.flatMap_cons]
    cases i with
    | zero =>
      rw [Nat.zero_mul, Nat.zero_add, List.getElem?_append_left (hx ▸ hj)]
      rfl
    | succ i =>
      have hplace : (i + 1) * k + j = (f x).length + (i * k + j) := by
        rw [hx, Nat.succ_mul]
        omega
      rw [hplace, List.getElem?_append_right (Nat.le_add_right _ _), Nat.add_sub_cancel_left,
        ih hl]
      rfl

end blocks

namespace Nfa

variable {σ α : Type} [Ordered σ] [Ordered α] {m : Nfa σ α}

theorem length_rulesFrom_toDfa (S : SortedSet σ) (hS : S ∈ m.toDfa.reachable) :
    ((m.toDfa.rulesFrom S).map (Rule.mapStates m.toDfa.reachable.idxOf)).length =
      m.alphabet.toList.length := by
  rw [rulesFrom_toDfa_of_mem_reachable hS, List.length_map]

theorem length_rules_number :
    m.toDfa.number.rules.length = m.toDfa.reachable.length * m.alphabet.toList.length :=
  length_flatMap_of_length length_rulesFrom_toDfa

/-- The place of a rule tells its state and its symbol. -/
theorem getElem?_rules_number {i j : Nat} (hi : i < m.toDfa.reachable.length)
    (hj : j < m.alphabet.toList.length) :
    ∃ target, m.toDfa.number.rules[i * m.alphabet.toList.length + j]? =
      some ⟨i, some m.alphabet.toList[j], target⟩ := by
  have hplace := getElem?_flatMap_of_length (length_rulesFrom_toDfa (m := m)) i hj
  have hnumber := m.toDfa.nodup_reachable.idxOf_getElem i hi
  rw [List.getElem?_eq_getElem hi, Option.bind_some,
    rulesFrom_toDfa_of_mem_reachable (List.getElem_mem hi), List.getElem?_map,
    List.getElem?_eq_getElem hj, Option.map_some, hnumber] at hplace
  exact ⟨_, hplace⟩

theorem mem_alphabet_concat {first second : Nfa Vertex α} {a : α} :
    a ∈ (concat first second).alphabet ↔ a ∈ first.alphabet ∨ a ∈ second.alphabet := by
  simp [Diagram.mem_alphabet, mem_rules_concat, or_and_right, exists_or, Rule.free]

theorem mem_alphabet_choice {start : Vertex} {first second : Nfa Vertex α} {a : α} :
    a ∈ (choice start first second).alphabet ↔ a ∈ first.alphabet ∨ a ∈ second.alphabet := by
  simp [Diagram.mem_alphabet, mem_rules_choice, or_and_right, exists_or, Rule.free]

theorem mem_alphabet_star {start : Vertex} {part : Nfa Vertex α} {a : α} :
    a ∈ (star start part).alphabet ↔ a ∈ part.alphabet := by
  simp [Diagram.mem_alphabet, mem_rules_star, or_and_right, exists_or, Rule.free]

end Nfa

namespace Pattern

variable {α : Type} [Ordered α]

/-- The symbols of the literals. -/
def alphabet (p : Pattern α) : SortedSet α := .ofList p.symbols

theorem mem_alphabet_assemble (p : Pattern α) (supply : Supply) {a : α} :
    a ∈ (p.assemble supply).1.alphabet ↔ a ∈ p.symbols := by
  induction p generalizing supply with
  | empty => simp [assemble, Nfa.ofEmpty, Diagram.mem_alphabet, symbols]
  | literal b => simp [assemble, Nfa.ofLiteral, Diagram.mem_alphabet, symbols, eq_comm]
  | concat p q ihp ihq =>
    rw [symbols, List.mem_append, assemble, Nfa.mem_alphabet_concat, ihp, ihq]
  | choice p q ihp ihq =>
    rw [symbols, List.mem_append, assemble, Nfa.mem_alphabet_choice, ihp, ihq]
  | star p ih => rw [symbols, assemble, Nfa.mem_alphabet_star, ih]

theorem alphabet_toNfa (p : Pattern α) : p.toNfa.alphabet = p.alphabet := by
  refine SortedSet.ext fun a => ?_
  rw [toNfa_eq, mem_alphabet_assemble, alphabet, SortedSet.mem_ofList]

/-- A table is complete and canonical. With `A` the symbols of the pattern in order, its
states are the numbers below some `n` and it starts in `0`. Its rules are `n` blocks, one for
each state, with one rule for each symbol of `A`. Every state but the start is the target of
a rule of a smaller state, and new targets come up in order along the rules. Accept states
are not dead. -/
theorem table_layout (p : Pattern α) :
    let A := p.alphabet.toList
    let m := p.table.automaton
    ∃ n, 1 ≤ n ∧ (∀ q, q ∈ m.states ↔ q < n) ∧ m.start = 0 ∧
      m.rules.length = n * A.length ∧
      (∀ i < n, ∀ (j : Nat) (hj : j < A.length), ∃ target,
        m.rules[i * A.length + j]? = some ⟨i, some A[j], target⟩) ∧
      (∀ q, 0 < q → q < n → ∃ rule ∈ m.rules, rule.source < q ∧ rule.target = q) ∧
      unseen [0] (m.rules.map Rule.target) = List.range' 1 (n - 1) ∧
      ∀ q ∈ m.accept, q ∉ p.table.dead := by
  intro A m
  have hA : A = p.toNfa.alphabet.toList := by rw [alphabet_toNfa]
  refine ⟨p.toNfa.toDfa.reachable.length, p.toNfa.toDfa.length_reachable_pos,
    fun q => Dfa.mem_states_number_iff_lt, p.toNfa.toDfa.idxOf_start, ?_, ?_,
    fun q => Dfa.exists_rule_number_of_pos _, Dfa.unseen_target_number _,
    fun q => Dfa.not_mem_deadStates_of_mem_accept⟩
  · rw [hA]
    exact Nfa.length_rules_number
  · rw [hA]
    intro i hi j hj
    exact Nfa.getElem?_rules_number hi hj

example : (concat (literal 'a') (star (literal 'b'))).table.automaton.rules =
    [⟨0, some 'a', 1⟩, ⟨0, some 'b', 2⟩, ⟨1, some 'a', 2⟩, ⟨1, some 'b', 3⟩,
      ⟨2, some 'a', 2⟩, ⟨2, some 'b', 2⟩, ⟨3, some 'a', 2⟩, ⟨3, some 'b', 3⟩] := by
  cbv

end Pattern

end Acceptor
