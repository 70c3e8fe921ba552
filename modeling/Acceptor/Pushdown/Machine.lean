import Acceptor.Pushdown.Settle
import Acceptor.SortedSet.Basic

/-!
# Deterministic pushdown machines

A machine reads a symbol by settling first and then using the first rule for the
symbol; if there is none it gets stuck with the settled stack. Free moves after a
symbol are followed when the machine is looked at or reads on, so the answers are
`none` exactly where free moves never end.
-/

namespace Acceptor.Pushdown

/-- A start state, the symbol at the bottom of the stack, accept states and rules. -/
structure Machine (σ α : Type) [Ordered σ] where
  start : σ
  bottom : α
  accept : SortedSet σ
  rules : List (Rule σ α)

namespace Machine

variable {σ α : Type} [Ordered σ] [DecidableEq α]

def initial (m : Machine σ α) : Configuration σ α := ⟨.live m.start, .ofList [m.bottom]⟩

def read? (m : Machine σ α) (c : Configuration σ α) (a : α) : Option (Configuration σ α) :=
  (settle? m.rules c).map fun settled =>
    match step m.rules settled (some a) with
    | .ok next => next
    | .error _ => settled.stuck

/-- The configuration after reading a word; a stuck machine ignores the rest of it. -/
def run? (m : Machine σ α) (c : Configuration σ α) : List α → Option (Configuration σ α)
  | [] => some c
  | a :: w =>
    if c.isStuck then some c
    else (m.read? c a).bind fun next => m.run? next w

/-- Whether the configuration settles in an accept state. -/
def accepting? (m : Machine σ α) (c : Configuration σ α) : Option Bool :=
  (settle? m.rules c).map fun settled =>
    match settled.control with
    | .live q => q ∈ m.accept
    | .stuck => false

/-- Whether the word leads from the initial configuration to an accept state. -/
def accepts? (m : Machine σ α) (w : List α) : Option Bool :=
  (m.run? m.initial w).bind fun c => (m.accepting? c).map (· && !c.isStuck)

end Machine

end Acceptor.Pushdown
