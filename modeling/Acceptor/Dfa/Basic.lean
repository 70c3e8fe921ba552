import Acceptor.Diagram

/-!
# Deterministic automata

A deterministic automaton reads a diagram by its first rule that applies. Nothing
forces the rules to be deterministic or complete: a later rule for the same state
and symbol is never used, nor is a rule without a label, and where no rule applies
the run ends with the failure that names the state and the symbol. The machine
then stands in that state, so a failed reading keeps the part that could be read.
-/

namespace Acceptor

/-- A diagram whose first applicable rule is the one that counts. -/
structure Dfa (σ α : Type) [Ordered σ] extends Diagram σ α

namespace Dfa

variable {σ α : Type} [Ordered σ] [DecidableEq α]

/-- The rule that is used in the state `q` for the symbol `a`. -/
def ruleFor? (m : Dfa σ α) (q : σ) (a : α) : Option (Rule σ α) :=
  m.rules.find? fun rule => rule.AppliesTo q (some a)

def step (m : Dfa σ α) (q : σ) (a : α) : Except (NoApplicableRule σ α) σ :=
  match m.ruleFor? q a with
  | some rule => .ok rule.target
  | none => .error ⟨q, some a⟩

/-- The state after reading a word from the state `q`, or the first failure. -/
def run (m : Dfa σ α) (q : σ) : List α → Except (NoApplicableRule σ α) σ
  | [] => .ok q
  | a :: w =>
    match m.step q a with
    | .ok r => m.run r w
    | .error failure => .error failure

/-- The state in which the machine stands after a word was given to it in the state
`q`: the last one it could reach. -/
def reached (m : Dfa σ α) (q : σ) (w : List α) : σ :=
  match m.run q w with
  | .ok r => r
  | .error failure => failure.state

/-- Whether the word leads to an accept state, or the first failure. -/
def verdict (m : Dfa σ α) (w : List α) : Except (NoApplicableRule σ α) Bool :=
  (m.run m.start w).map fun q => q ∈ m.accept

/-- Whether the word leads to an accept state; a missing rule rejects. -/
def accepts (m : Dfa σ α) (w : List α) : Bool :=
  match m.verdict w with
  | .ok accepted => accepted
  | .error _ => false

@[simp] theorem run_nil (m : Dfa σ α) (q : σ) : m.run q [] = .ok q := rfl

theorem run_cons (m : Dfa σ α) (q : σ) (a : α) (w : List α) :
    m.run q (a :: w) = (m.step q a).bind fun r => m.run r w := by
  rw [run]
  cases m.step q a <;> rfl

theorem run_append (m : Dfa σ α) (q : σ) (u v : List α) :
    m.run q (u ++ v) = (m.run q u).bind fun r => m.run r v := by
  induction u generalizing q with
  | nil => rfl
  | cons a u ih =>
    rw [List.cons_append, run_cons, run_cons]
    cases m.step q a with
    | ok r => exact ih r
    | error failure => rfl

end Dfa

end Acceptor
