import Acceptor.Pushdown.Rule
import Acceptor.Search

/-!
# Settling

A configuration settles by following free moves until none applies. Free moves may
go on forever, and whether they do can be decided: what happens depends only on the
state and the symbol on top, the head. While the symbols that came out of one head
are being used up, the same head must not come up again, or it would do so over and
over on a growing or unchanging stack. So the search below keeps the heads that are
being worked off, gives up when one returns, and otherwise ends, because there are
only as many heads as rules.
-/

namespace Acceptor.Pushdown

variable {σ α : Type} [DecidableEq σ] [DecidableEq α]

/-- The first free rule for the state `q` with `x` on top. -/
def freeRule? (rules : List (Rule σ α)) (q : σ) (x : α) : Option (Rule σ α) :=
  rules.find? fun rule => rule.source = q ∧ rule.pop = x ∧ rule.label = none

/-- The heads at which rules apply. -/
def heads (rules : List (Rule σ α)) : List (σ × α) :=
  rules.map fun rule => (rule.source, rule.pop)

theorem mem_heads_of_freeRule? {rules : List (Rule σ α)} {q : σ} {x : α} {rule : Rule σ α}
    (h : freeRule? rules q x = some rule) : (q, x) ∈ heads rules := by
  have hrule := List.find?_some h
  simp only [decide_eq_true_eq] at hrule
  exact List.mem_map.2 ⟨rule, List.mem_of_find?_eq_some h, by rw [hrule.1, hrule.2.1]⟩

/-- The state and the stack after following free moves from the state `q` as long as
they use symbols of the given stack; `none` if they never end or if one of the heads
in `opened` comes up again. The stack that is left is empty if all of it was used up. -/
def settleFrom? (rules : List (Rule σ α)) (opened : List (σ × α)) (q : σ) :
    List α → Option (σ × List α)
  | [] => some (q, [])
  | x :: below =>
    if _ : (q, x) ∈ opened then none
    else
      match _ : freeRule? rules q x with
      | none => some (q, x :: below)
      | some rule =>
        match settleFrom? rules ((q, x) :: opened) rule.target rule.push with
        | none => none
        | some (r, []) => settleFrom? rules opened r below
        | some (r, y :: left) => some (r, y :: left ++ below)
termination_by stack => ((remaining (heads rules) opened).length, stack.length)
decreasing_by
  · exact Prod.Lex.left _ _ (length_remaining_lt (List.subset_cons_self _ _)
      (mem_heads_of_freeRule? ‹_›) ‹_› List.mem_cons_self)
  · exact Prod.Lex.right _ (by simp)

/-- The configuration after all free moves, if they come to an end. -/
def settle? (rules : List (Rule σ α)) (c : Configuration σ α) : Option (Configuration σ α) :=
  match c.control with
  | .stuck => some c
  | .live q =>
    (settleFrom? rules [] q c.stack.toList).map fun (r, stack) => ⟨.live r, .ofList stack⟩

end Acceptor.Pushdown
