import Acceptor.Pushdown.Stack
import Acceptor.Rule

/-!
# Rules of pushdown automata

A configuration is a control state and a stack. A rule applies to a configuration
in its source state with its symbol `pop` on top; it replaces that symbol by the
symbols `push`, the first of which ends on top. A machine that found no rule is
stuck: it keeps its stack but has no state any more, and no rule applies to it.
-/

namespace Acceptor.Pushdown

/-- The control of a pushdown automaton: in a state, or stuck. -/
inductive Control (σ : Type) where
  | live (q : σ)
  | stuck
deriving DecidableEq

instance {σ : Type} [Quoted σ] : Quoted (Control σ) where
  quoted
    | .live q => "Live(" ++ quoted q ++ ")"
    | .stuck => "Stuck"

/-- A control and a stack. -/
structure Configuration (σ α : Type) where
  control : Control σ
  stack : Stack α

namespace Configuration

variable {σ α : Type}

def stuck (c : Configuration σ α) : Configuration σ α := ⟨.stuck, c.stack⟩

def isStuck (c : Configuration σ α) : Bool :=
  match c.control with
  | .live _ => false
  | .stuck => true

end Configuration

/-- In the state `source` with `pop` on top, reading the symbol on the label if it has
one: go to `target` and replace the top by `push`. -/
structure Rule (σ α : Type) where
  source : σ
  label : Option α
  target : σ
  pop : α
  push : List α
deriving DecidableEq

namespace Rule

variable {σ α : Type}

/-- The rule can be used in the configuration `c` for the label `a`. -/
abbrev AppliesTo (rule : Rule σ α) (c : Configuration σ α) (a : Option α) : Prop :=
  c.control = .live rule.source ∧ c.stack.top? = some rule.pop ∧ rule.label = a

def nextStack (rule : Rule σ α) (s : Stack α) : Stack α := s.pop.pushAll rule.push

def follow (rule : Rule σ α) (c : Configuration σ α) : Configuration σ α :=
  ⟨.live rule.target, rule.nextStack c.stack⟩

instance [Quoted σ] [Quoted α] : Quoted (Rule σ α) where
  quoted rule := Text.record "PDARule"
    [("state", quoted rule.source), ("character", quoted rule.label),
      ("next_state", quoted rule.target), ("pop_character", quoted rule.pop),
      ("push_characters", quoted rule.push)]

def arrow [Quoted σ] [Quoted α] (rule : Rule σ α) : String :=
  "#<PDARule " ++ quoted rule.source ++ " --" ++ Text.labelText rule.label ++ "; " ++
    quoted rule.pop ++ "/" ++ quoted rule.push ++ "--> " ++ quoted rule.target ++ ">"

end Rule

variable {σ α : Type} [DecidableEq σ] [DecidableEq α]

/-- The first of the rules that applies to `c` for the label `a`. -/
def ruleFor? (rules : List (Rule σ α)) (c : Configuration σ α) (a : Option α) :
    Option (Rule σ α) :=
  rules.find? fun rule => rule.AppliesTo c a

def step (rules : List (Rule σ α)) (c : Configuration σ α) (a : Option α) :
    Except (NoApplicableRule (Control σ) α) (Configuration σ α) :=
  match ruleFor? rules c a with
  | some rule => .ok (rule.follow c)
  | none => .error ⟨c.control, a⟩

end Acceptor.Pushdown
