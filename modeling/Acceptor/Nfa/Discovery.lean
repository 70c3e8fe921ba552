import Acceptor.Nfa.Subset

/-!
# The work list of the subset construction

Discovering the sets of states and writing down the rules between them is one loop: the
set that has waited longest is taken, one rule for each symbol is written down, and
targets that were not known yet start waiting. The loop ends because what it finds are
sets of targets of rules; each round finds a new one or shortens the list.
-/

namespace Acceptor

/-- What the loop knows: the sets that were found, those of them that still wait in the
order in which they were found, and the rules written so far. -/
structure Discovery (σ α : Type) [Ordered σ] where
  found : SortedSet (SortedSet σ)
  waiting : List (SortedSet σ)
  rules : List (Rule (SortedSet σ) α)

namespace Discovery

variable {σ α : Type} [Ordered σ]

/-- Writes a rule down. Its target waits if it was not known. -/
def note (d : Discovery σ α) (rule : Rule (SortedSet σ) α) : Discovery σ α :=
  if rule.target ∈ d.found then { d with rules := d.rules ++ [rule] }
  else ⟨d.found.insert rule.target, d.waiting ++ [rule.target], d.rules ++ [rule]⟩

/-- The rules are written in their order, and the targets that were not known wait each
at its first place. -/
theorem foldl_note (d : Discovery σ α) (rules : List (Rule (SortedSet σ) α)) :
    rules.foldl note d =
      ⟨d.found.union (.ofList (rules.map Rule.target)),
        d.waiting ++ unseen d.found.toList (rules.map Rule.target), d.rules ++ rules⟩ := by
  induction rules generalizing d with
  | nil =>
    have hfound : d.found.union (.ofList []) = d.found := rfl
    rw [List.foldl_nil, List.map_nil, hfound, unseen, List.append_nil, List.append_nil]
  | cons rule rules ih =>
    rw [List.foldl_cons, ih, note, List.map_cons, unseen]
    by_cases hknown : rule.target ∈ d.found
    · have hfound : d.found.union (.ofList (rule.target :: rules.map Rule.target)) =
          d.found.union (.ofList (rules.map Rule.target)) := by
        refine SortedSet.ext fun S => ?_
        simp only [SortedSet.mem_union, SortedSet.mem_ofList, List.mem_cons]
        constructor
        · rintro (h | rfl | h)
          · exact .inl h
          · exact .inl hknown
          · exact .inr h
        · exact Or.imp_right .inr
      rw [if_pos hknown, if_pos (SortedSet.mem_toList.2 hknown), hfound]
      simp
    · have hfound : (d.found.insert rule.target).union (.ofList (rules.map Rule.target)) =
          d.found.union (.ofList (rule.target :: rules.map Rule.target)) := by
        refine SortedSet.ext fun S => ?_
        simp only [SortedSet.mem_union, SortedSet.mem_insert, SortedSet.mem_ofList,
          List.mem_cons, or_assoc, or_left_comm]
      have hunseen : unseen (d.found.insert rule.target).toList (rules.map Rule.target) =
          unseen (rule.target :: d.found.toList) (rules.map Rule.target) := by
        refine unseen_congr (fun S => ?_) _
        rw [SortedSet.mem_toList, SortedSet.mem_insert, List.mem_cons, SortedSet.mem_toList]
      rw [if_neg hknown, if_neg (mt SortedSet.mem_toList.1 hknown), hfound, hunseen]
      simp

end Discovery

namespace Nfa

variable {σ α : Type} [Ordered σ] [Ordered α]

theorem map_target_rulesOfSet (m : Nfa σ α) (S : SortedSet σ) :
    (m.rulesOfSet S).map Rule.target = m.advances S := by
  rw [rulesOfSet, List.map_map]
  rfl

/-- Goes on until nothing waits. -/
def exploreFrom (m : Nfa σ α) (d : Discovery σ α) : Discovery σ α :=
  match _ : d.waiting with
  | [] => d
  | S :: waiting =>
    m.exploreFrom ((m.rulesOfSet S).foldl .note { d with waiting := waiting })
termination_by ((remaining m.targets.subsets d.found.toList).length, d.waiting.length)
decreasing_by
  rename_i hwaiting
  rw [Discovery.foldl_note, map_target_rulesOfSet]
  have hsub : d.found.toList ⊆ (d.found.union (.ofList (m.advances S))).toList :=
    fun T hT => SortedSet.mem_union.2 (.inl hT)
  cases hnew : unseen d.found.toList (m.advances S) with
  | nil =>
    rcases Nat.lt_or_eq_of_le (length_remaining_le hsub) with h | h
    · exact Prod.Lex.left _ _ h
    · rw [h]
      exact Prod.Lex.right _ (by simp [hwaiting])
  | cons T l =>
    have hT : T ∈ m.advances S ∧ T ∉ d.found.toList := mem_unseen.1 (by simp [hnew])
    have hbound := m.finitelyMany_advances S T hT.1
    have hfound : T ∈ (d.found.union (.ofList (m.advances S))).toList :=
      SortedSet.mem_union.2 (.inr (SortedSet.mem_ofList.2 hT.1))
    exact Prod.Lex.left _ _ (length_remaining_lt hsub hbound hT.2 hfound)

/-- The sets that reading leads to from the family `X`, with the rules between them. -/
def explore (m : Nfa σ α) (X : SortedSet (SortedSet σ)) : Discovery σ α :=
  m.exploreFrom ⟨X, X.toList, []⟩

theorem exploreFrom_nil (m : Nfa σ α) (found : SortedSet (SortedSet σ))
    (rules : List (Rule (SortedSet σ) α)) :
    m.exploreFrom ⟨found, [], rules⟩ = ⟨found, [], rules⟩ := by
  rw [exploreFrom]

theorem exploreFrom_cons (m : Nfa σ α) (found : SortedSet (SortedSet σ)) (S : SortedSet σ)
    (waiting : List (SortedSet σ)) (rules : List (Rule (SortedSet σ) α)) :
    m.exploreFrom ⟨found, S :: waiting, rules⟩ =
      m.exploreFrom ⟨found.union (.ofList (m.advances S)),
        waiting ++ unseen found.toList (m.advances S), rules ++ m.rulesOfSet S⟩ := by
  rw [exploreFrom]
  simp only [Discovery.foldl_note, map_target_rulesOfSet]

end Nfa

end Acceptor
