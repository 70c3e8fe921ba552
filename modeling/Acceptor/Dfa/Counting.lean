import Acceptor.Dfa.Numbering

/-!
# Numbering in one loop

Finding the states, giving out the numbers and writing down the rules is one loop: the state
that has waited longest is taken, its rules are written down with numbers, and a target that
has no number gets the next one and starts waiting. The number of a state is its place among
the states that have a number, so the next number is how many there are.
-/

namespace Acceptor

/-- What the loop knows: the states that have a number, in the order of the numbers, those of
them that still wait, and the rules written so far. -/
structure Counting (σ α : Type) where
  numbered : List σ
  waiting : List σ
  rules : List (Rule Nat α)

namespace Counting

variable {σ α : Type} [DecidableEq σ]

/-- Writes down a rule of the state with the number `source`. -/
def note (source : Nat) (c : Counting σ α) (rule : Rule σ α) : Counting σ α :=
  if rule.target ∈ c.numbered then
    { c with rules := c.rules ++ [⟨source, rule.label, c.numbered.idxOf rule.target⟩] }
  else
    ⟨c.numbered ++ [rule.target], c.waiting ++ [rule.target],
      c.rules ++ [⟨source, rule.label, c.numbered.length⟩]⟩

/-- The targets get their numbers in the order in which they come up, and each rule is written
with the number that its target has in the end. -/
theorem foldl_note (source : Nat) (c : Counting σ α) (rules : List (Rule σ α)) :
    rules.foldl (note source) c =
      let fresh := unseen c.numbered (rules.map Rule.target)
      ⟨c.numbered ++ fresh, c.waiting ++ fresh, c.rules ++ rules.map fun rule =>
        ⟨source, rule.label, (c.numbered ++ fresh).idxOf rule.target⟩⟩ := by
  induction rules generalizing c with
  | nil => simp [unseen]
  | cons rule rules ih =>
    rw [List.foldl_cons, ih, note, List.map_cons, unseen]
    by_cases hknown : rule.target ∈ c.numbered
    · rw [if_pos hknown, if_pos hknown]
      simp [List.idxOf_append, hknown]
    · have hfresh : unseen (c.numbered ++ [rule.target]) (rules.map Rule.target) =
          unseen (rule.target :: c.numbered) (rules.map Rule.target) := by
        refine unseen_congr (fun q => ?_) _
        simp [or_comm]
      rw [if_neg hknown, if_neg hknown, hfresh]
      simp [List.idxOf_append, hknown]

end Counting

namespace Dfa

variable {σ α : Type} [Ordered σ]

/-- Goes on until nothing waits. -/
def countFrom (m : Dfa σ α) (c : Counting σ α) : Counting σ α :=
  match _ : c.waiting with
  | [] => c
  | q :: waiting =>
    m.countFrom ((m.rulesFrom q).foldl (.note (c.numbered.idxOf q)) { c with waiting := waiting })
termination_by ((remaining (m.rules.map Rule.target) c.numbered).length, c.waiting.length)
decreasing_by
  rename_i hwaiting
  rw [Counting.foldl_note]
  change Prod.Lex _ _ ((remaining (m.rules.map Rule.target)
    (c.numbered ++ unseen c.numbered (m.successors q))).length,
    (waiting ++ unseen c.numbered (m.successors q)).length) _
  by_cases hnew : unseen c.numbered (m.successors q) = []
  · rw [hnew, List.append_nil, List.append_nil, hwaiting]
    exact Prod.Lex.right _ (Nat.lt_succ_self _)
  · obtain ⟨r, hr⟩ := List.exists_mem_of_ne_nil _ hnew
    obtain ⟨hr, hfresh⟩ := mem_unseen.1 hr
    exact Prod.Lex.left _ _ (length_remaining_lt (List.subset_append_left _ _)
      (m.finitelyMany_successors q r hr) hfresh (mem_append_unseen.2 (.inr hr)))

def count (m : Dfa σ α) : Counting σ α := m.countFrom ⟨[m.start], [m.start], []⟩

/-- The numbered automaton as the loop writes it down. -/
def counted (m : Dfa σ α) : Dfa Nat α :=
  let c := m.count
  { start := 0
    accept := .ofList (m.accept.toList.filterMap fun q =>
      if q ∈ c.numbered then some (c.numbered.idxOf q) else none)
    rules := c.rules }

theorem countFrom_nil (m : Dfa σ α) (numbered : List σ) (rules : List (Rule Nat α)) :
    m.countFrom ⟨numbered, [], rules⟩ = ⟨numbered, [], rules⟩ := by
  rw [countFrom]

theorem countFrom_cons (m : Dfa σ α) (numbered : List σ) (q : σ) (waiting : List σ)
    (rules : List (Rule Nat α)) :
    m.countFrom ⟨numbered, q :: waiting, rules⟩ =
      m.countFrom ⟨numbered ++ unseen numbered (m.successors q),
        waiting ++ unseen numbered (m.successors q),
        rules ++ (m.rulesFrom q).map fun rule => ⟨numbered.idxOf q, rule.label,
          (numbered ++ unseen numbered (m.successors q)).idxOf rule.target⟩⟩ := by
  rw [countFrom]
  simp only [Counting.foldl_note]
  rfl

end Dfa

end Acceptor
