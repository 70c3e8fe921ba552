import Acceptor.Nfa.Basic
import Acceptor.Pattern.Basic
import Acceptor.Pattern.Vertex

/-!
# Assembling an automaton from a pattern

Every node of a pattern becomes a small automaton that is glued to those of its
parts by free moves. The nodes are worked off bottom up; finished automata wait on
a stack until the node above them takes them. All of them draw their states from
one supply, so no two share a state.

The longer list of rules comes first when two automata are joined. This shows only
in listings: a nondeterministic automaton does not care about the order.
-/

namespace Acceptor

namespace Nfa

variable {α : Type}

/-- The rules of two automata together, the longer list first. -/
def mergeRules (first second : List (Rule Vertex α)) : List (Rule Vertex α) :=
  if second.length ≤ first.length then first ++ second else second ++ first

/-- Free moves from the accept states of `m` to `target`. -/
def exits (m : Nfa Vertex α) (target : Vertex) : List (Rule Vertex α) :=
  m.accept.toList.map fun q => .free q target

/-- Accepts the empty word only. -/
def ofEmpty (start : Vertex) : Nfa Vertex α where
  start := start
  accept := .singleton start
  rules := []

/-- Accepts the word of the symbol `a` only. -/
def ofLiteral (start stop : Vertex) (a : α) : Nfa Vertex α where
  start := start
  accept := .singleton stop
  rules := [⟨start, some a, stop⟩]

/-- Runs the first automaton and then the second one. -/
def concat (first second : Nfa Vertex α) : Nfa Vertex α where
  start := first.start
  accept := second.accept
  rules := mergeRules first.rules second.rules ++ first.exits second.start

/-- Runs one of two automata, from a start state of its own. -/
def choice (start : Vertex) (first second : Nfa Vertex α) : Nfa Vertex α where
  start := start
  accept := first.accept.union second.accept
  rules := mergeRules first.rules second.rules ++
    [.free start first.start, .free start second.start]

/-- Runs an automaton any number of times, from a start state of its own that also
accepts. -/
def star (start : Vertex) (part : Nfa Vertex α) : Nfa Vertex α where
  start := start
  accept := part.accept.insert start
  rules := part.rules ++ part.exits part.start ++ [.free start part.start]

end Nfa

/-- Work in progress: the vertices that are left, and the finished automata, the last
one first. -/
structure Assembly (α : Type) where
  supply : Supply := {}
  parts : List (Nfa Vertex α) := []

namespace Assembly

variable {α : Type}

/-- Takes the last finished automaton. Where none is left the automaton of the empty
pattern takes its place. -/
def take (w : Assembly α) : Nfa Vertex α × Assembly α :=
  match w.parts with
  | m :: parts => (m, { w with parts := parts })
  | [] =>
    let (start, supply) := w.supply.fresh
    (.ofEmpty start, { w with supply := supply })

/-- Builds the automaton of one node from those of its parts. -/
def add (w : Assembly α) : Pattern.Step α → Assembly α
  | .empty =>
    let (start, supply) := w.supply.fresh
    ⟨supply, .ofEmpty start :: w.parts⟩
  | .literal a =>
    let (start, supply) := w.supply.fresh
    let (stop, supply) := supply.fresh
    ⟨supply, .ofLiteral start stop a :: w.parts⟩
  | .concat =>
    let (second, w) := w.take
    let (first, w) := w.take
    { w with parts := .concat first second :: w.parts }
  | .choice =>
    let (second, w) := w.take
    let (first, w) := w.take
    let (start, supply) := w.supply.fresh
    ⟨supply, .choice start first second :: w.parts⟩
  | .star =>
    let (part, w) := w.take
    let (start, supply) := w.supply.fresh
    ⟨supply, .star start part :: w.parts⟩

/-- Works off the nodes of a pattern from the bottom up. -/
def run (steps : List (Pattern.Step α)) : Assembly α := steps.foldl add {}

end Assembly

namespace Pattern

variable {α : Type}

def toNfa (p : Pattern α) : Nfa Vertex α := (Assembly.run p.steps).take.1

def accepts [DecidableEq α] (p : Pattern α) (w : List α) : Bool := p.toNfa.accepts w

end Pattern

end Acceptor
