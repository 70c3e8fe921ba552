import Acceptor.Text.Quoted

/-!
# Rules of finite automata

A rule leads from a state to a state and reads the symbol on its label. A rule
without a label is a free move: it reads nothing. No symbol can be mistaken for a
missing label, since the label is an `Option`.
-/

namespace Acceptor

/-- A move from `source` to `target`, reading the symbol on its label if it has
one. -/
structure Rule (σ α : Type) where
  source : σ
  label : Option α
  target : σ
deriving DecidableEq

namespace Rule

variable {σ τ α : Type}

def free (source target : σ) : Rule σ α := ⟨source, none, target⟩

def isFree (rule : Rule σ α) : Bool := rule.label.isNone

/-- The rule leaves the state `q` and has the label `a`. -/
abbrev AppliesTo (rule : Rule σ α) (q : σ) (a : Option α) : Prop :=
  rule.source = q ∧ rule.label = a

def mapStates (f : σ → τ) (rule : Rule σ α) : Rule τ α :=
  ⟨f rule.source, rule.label, f rule.target⟩

instance [Quoted σ] [Quoted α] : Quoted (Rule σ α) where
  quoted rule := Text.record "FARule"
    [("state", quoted rule.source), ("character", quoted rule.label),
      ("next_state", quoted rule.target)]

def arrow [Quoted σ] [Quoted α] (rule : Rule σ α) : String :=
  "#<FARule " ++ quoted rule.source ++ " --" ++ Text.labelText rule.label ++ "--> " ++
    quoted rule.target ++ ">"

end Rule

/-- The failure of a machine in `state` that found no rule with the label
`label`. -/
structure NoApplicableRule (σ α : Type) where
  state : σ
  label : Option α
deriving DecidableEq

namespace NoApplicableRule

variable {σ α : Type} [Quoted σ] [Quoted α]

def message (failure : NoApplicableRule σ α) : String :=
  "no rule applies to " ++ quoted failure.state ++ " reading " ++
    Text.labelText failure.label

end NoApplicableRule

end Acceptor
