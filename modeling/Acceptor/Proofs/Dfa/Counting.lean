import Acceptor.Dfa.Counting
import Acceptor.Proofs.Dfa.Numbering

/-!
# What the loop counts

The loop finds the states in the order of the search and writes down the numbered automaton
(`counted_eq_number`). It writes a rule when only some states have a number, but those that
come later get places behind them, so no number that was written down changes
(`rulesAlong_append`).
-/

namespace Acceptor.Dfa

variable {σ α : Type} [Ordered σ] {m : Dfa σ α}

/-- The rules of the states `done` with the places in `order` for names. -/
def rulesAlong (m : Dfa σ α) (order done : List σ) : List (Rule Nat α) :=
  done.flatMap fun q => (m.rulesFrom q).map (Rule.mapStates order.idxOf)

section along

variable {order done : List σ}

/-- States that get their numbers later leave the numbers as they are. -/
theorem rulesAlong_append (later : List σ)
    (hdone : ∀ q ∈ done, q ∈ order ∧ ∀ r ∈ m.successors q, r ∈ order) :
    m.rulesAlong (order ++ later) done = m.rulesAlong order done := by
  refine List.flatMap_congr fun q hq => List.map_congr_left fun rule hrule => ?_
  obtain ⟨hmem, hnext⟩ := hdone q hq
  obtain ⟨_, rfl⟩ := mem_rulesFrom.1 hrule
  have htarget : rule.target ∈ order := hnext _ (List.mem_map.2 ⟨rule, hrule, rfl⟩)
  simp only [Rule.mapStates, List.idxOf_append_of_mem hmem, List.idxOf_append_of_mem htarget]

theorem rulesAlong_concat (later : List σ)
    (hdone : ∀ q ∈ done, q ∈ order ∧ ∀ r ∈ m.successors q, r ∈ order) {q : σ} (hq : q ∈ order) :
    m.rulesAlong (order ++ later) (done ++ [q]) =
      m.rulesAlong order done ++ (m.rulesFrom q).map fun rule =>
        ⟨order.idxOf q, rule.label, (order ++ later).idxOf rule.target⟩ := by
  have hlast : (m.rulesFrom q).map (Rule.mapStates (order ++ later).idxOf) =
      (m.rulesFrom q).map fun rule =>
        ⟨order.idxOf q, rule.label, (order ++ later).idxOf rule.target⟩ := by
    refine List.map_congr_left fun rule hrule => ?_
    rw [Rule.mapStates, (mem_rulesFrom.1 hrule).2, List.idxOf_append_of_mem hq]
  rw [← rulesAlong_append later hdone, ← hlast, rulesAlong, List.flatMap_append,
    List.flatMap_singleton, rulesAlong]

end along

/-- The loop in the middle of its work: `done` has been expanded, `waiting` has not. -/
theorem countFrom_eq (m : Dfa σ α) {done waiting : List σ}
    (hdone : ∀ q ∈ done, ∀ r ∈ m.successors q, r ∈ done ++ waiting) :
    m.countFrom ⟨done ++ waiting, waiting, m.rulesAlong (done ++ waiting) done⟩ =
      let order := expand m.successors ⟨_, m.finitelyMany_successors⟩ done waiting
      ⟨order, [], m.rulesAlong order order⟩ := by
  fun_induction expand m.successors ⟨_, m.finitelyMany_successors⟩ done waiting with
  | case1 done => rw [List.append_nil, countFrom_nil]
  | case2 done q waiting ih =>
    have hknown : ∀ p ∈ done, p ∈ done ++ q :: waiting ∧
        ∀ r ∈ m.successors p, r ∈ done ++ q :: waiting :=
      fun p hp => ⟨List.mem_append_left _ hp, hdone p hp⟩
    rw [countFrom_cons, ← rulesAlong_concat _ hknown (by simp), ← expanded_append]
    refine ih fun p hp r hr => ?_
    rw [expanded_append, mem_append_unseen]
    rcases List.mem_append.1 hp with hp | hp
    · exact .inl (hdone p hp r hr)
    · rw [List.mem_singleton.1 hp] at hr
      exact .inr hr

theorem count_eq (m : Dfa σ α) :
    m.count = ⟨m.reachable, [], m.rulesAlong m.reachable m.reachable⟩ :=
  m.countFrom_eq fun _ hq => absurd hq List.not_mem_nil

/-- The loop writes down the numbered automaton. -/
theorem counted_eq_number (m : Dfa σ α) : m.counted = m.number := by
  refine Dfa.ext m.idxOf_start.symm (SortedSet.ext fun i => ?_) (congrArg Counting.rules m.count_eq)
  simp only [counted, number, numberAlong, m.count_eq, SortedSet.mem_ofList, List.mem_filterMap,
    List.mem_map, List.mem_filter, decide_eq_true_eq, Option.ite_none_right_eq_some,
    Option.some.injEq, and_assoc]

end Acceptor.Dfa
