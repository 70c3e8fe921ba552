import Acceptor.Pushdown.Machine

/-!
# Runs by rules

What a pushdown automaton can do if every rule that applies may be used, free moves
and reading moves in any order. A machine decides this relation as far as its rules
leave no choice.
-/

namespace Acceptor.Pushdown

variable {σ α : Type}

/-- Some sequence of rules leads from the first configuration to the second one and
reads exactly the word. -/
inductive Run (rules : List (Rule σ α)) :
    Configuration σ α → List α → Configuration σ α → Prop
  | refl (c : Configuration σ α) : Run rules c [] c
  | free {c d : Configuration σ α} {rule : Rule σ α} {w : List α} :
      rule ∈ rules → rule.AppliesTo c none → Run rules (rule.follow c) w d → Run rules c w d
  | read {c d : Configuration σ α} {rule : Rule σ α} {a : α} {w : List α} :
      rule ∈ rules → rule.AppliesTo c (some a) → Run rules (rule.follow c) w d →
      Run rules c (a :: w) d

/-- Some rule with the label leads from the first configuration to the second one. -/
def Moves (rules : List (Rule σ α)) (c : Configuration σ α) (label : Option α)
    (d : Configuration σ α) : Prop :=
  ∃ rule ∈ rules, rule.AppliesTo c label ∧ d = rule.follow c

/-- No free rule applies. -/
def Resting (rules : List (Rule σ α)) (c : Configuration σ α) : Prop :=
  ∀ d, ¬ Moves rules c none d

/-- The rules leave no choice: those that apply to a configuration for one label do the
same, and where a free rule applies no other rule reads. -/
structure Deterministic (rules : List (Rule σ α)) : Prop where
  same_result : ∀ {c d e : Configuration σ α} {label : Option α},
    Moves rules c label d → Moves rules c label e → d = e
  free_alone : ∀ {c d e : Configuration σ α} {a : α},
    Moves rules c none d → ¬ Moves rules c (some a) e

/-- No chain of free moves goes on forever from a configuration that some run from `c`
comes to. -/
def FreeMovesEnd (rules : List (Rule σ α)) (c : Configuration σ α) : Prop :=
  ∀ chain : Nat → Configuration σ α, (∃ w, Run rules c w (chain 0)) →
    ¬ ∀ n, Moves rules (chain n) none (chain (n + 1))

theorem Run.append {rules : List (Rule σ α)} {c d e : Configuration σ α} {u v : List α}
    (h : Run rules c u d) (h' : Run rules d v e) : Run rules c (u ++ v) e := by
  induction h with
  | refl => exact h'
  | free hmem happ _ ih => exact .free hmem happ (ih h')
  | read hmem happ _ ih => exact .read hmem happ (ih h')

theorem Moves.run {rules : List (Rule σ α)} {c d e : Configuration σ α} {label : Option α}
    {w : List α} (h : Moves rules c label d) (h' : Run rules d w e) :
    Run rules c (label.toList ++ w) e := by
  obtain ⟨rule, hmem, happ, rfl⟩ := h
  cases label with
  | none => exact .free hmem happ h'
  | some a => exact .read hmem happ h'

end Acceptor.Pushdown
